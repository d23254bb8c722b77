import PolicyFormat.Policy.Comment

/-!
The tree of a policy file. Every node carries `Traits`; the lists of the tree hold their elements
in source order, with standalone comments between them once comments are placed.
-/
namespace PolicyFormat.Policy

/-- One level of indentation. -/
def tabSize : Int := 2

/-- What every node has: the text it covers, whether a blank line stood before it and whether
such a line is kept, the comments it holds, and whether it hands its comments to its parent.
A node that yields with a nonzero rank keeps no comments. -/
structure Traits where
  span : Span
  yields : Option Int := none
  afterBlank : Bool := false
  keepsBlank : Bool := false
  comments : List Comment := []
deriving Repr, DecidableEq, Inhabited

namespace Traits

/-- The rank with which the node hands on its comments, if it does. -/
def handsOn? (t : Traits) : Option Int :=
  t.yields.filter (· != 0)

/-- The line on which the node starts together with a comment directly above it. -/
def startLineWithComment (t : Traits) : Int :=
  match t.comments with
  | c :: _ => if c.span.endLine == t.span.startLine - 1 then c.span.startLine else t.span.startLine
  | [] => t.span.startLine

/-- The comments that may stand at the end of the node's last line, best first: the highest rank
wins, and of equal ranks the last. -/
def tailCandidates (t : Traits) : List (Nat × Comment) :=
  let numbered := t.comments.mapIdx (fun i c => (i, c))
  (numbered.mergeSort (fun a b => a.2.rank ≤ b.2.rank)).reverse

/-- The comment that stands at the end of the node's last line, and its place among the node's
comments. It comes from a line that the node covers. -/
def tail? (t : Traits) : Option (Nat × Comment) :=
  t.tailCandidates.find? (fun (_, c) => c.isEndOfLine && t.span.covers c.span.startLine)

/-- The places of the comments that stand on lines of their own before the node. -/
def leadingIndices (t : Traits) : List Nat :=
  let tail := t.tail?.map (·.1)
  (List.range t.comments.length).filter (fun i => tail != some i)

/-- The comments that stand on lines of their own before the node. -/
def leading (t : Traits) : List Comment :=
  t.leadingIndices.filterMap (fun i => t.comments[i]?)

end Traits

/-- A node that is one token. -/
structure Leaf where
  traits : Traits
  text : String
deriving Repr, DecidableEq, Inhabited

/-- A leaf as it is shown in a log: its first six characters. -/
def Leaf.describe (l : Leaf) : String :=
  "String('" ++ String.ofList (l.text.toList.take 6) ++ "')"

/-- What stands in a list: an element or a standalone comment. -/
inductive Entry (α : Type) where
  | item (value : α)
  | comment (value : Comment)
deriving Repr, Inhabited

/-- A list of a policy file with its brackets, if it has any. -/
structure ItemList (α : Type) where
  traits : Traits
  opening : Option Leaf
  entries : List (Entry α)
  closing : Option Leaf
deriving Repr, Inhabited

/-- A value inside a list: a word, or a call with its arguments. -/
inductive Element where
  | leaf (word : Leaf)
  | call (traits : Traits) (name : Leaf) (arguments : ItemList Element)
deriving Inhabited

/-- What is assigned: a single value, or a list in braces. -/
inductive Value where
  | single (element : Element)
  | list (elements : ItemList Element)
deriving Inhabited

/-- An attribute and its value. The comma after it is optional. -/
structure Assignment where
  traits : Traits
  name : Leaf
  arrow : Leaf
  value : Value
  comma : Option Leaf
deriving Inhabited

/-- A class expression, which guards what follows it. -/
structure Guard where
  traits : Traits
  expression : Leaf
deriving Repr, DecidableEq, Inhabited

/-- A promise: who promises, to whom, and the attributes. -/
structure Promise where
  traits : Traits
  promiser : Leaf
  promisee : Option Value
  comma : Option Leaf
  constraints : ItemList Assignment
  semicolon : Leaf
deriving Inhabited

/-- What stands under a promise type. -/
inductive Clause where
  | guard (value : Guard)
  | promise (value : Promise)
deriving Inhabited

/-- The promises of one type. -/
structure PromiseType where
  traits : Traits
  name : Leaf
  clauses : ItemList Clause
deriving Inhabited

/-- What stands in a body. -/
inductive Selection where
  | guard (value : Guard)
  | assignment (value : Assignment)
deriving Inhabited

/-- The part of a block between its braces. -/
inductive Contents where
  | bundle (statements : ItemList PromiseType)
  | body (selections : ItemList Selection)
deriving Inhabited

/-- A bundle or a body. -/
structure Block where
  traits : Traits
  keyword : Leaf
  type : Leaf
  name : Leaf
  parameters : ItemList Leaf
  contents : Contents
deriving Inhabited

/-- A policy file. -/
abbrev Specification := ItemList Block

namespace Element

def traits : Element → Traits
  | .leaf word => word.traits
  | .call traits _ _ => traits

def withTraits (f : Traits → Traits) : Element → Element
  | .leaf word => .leaf { word with traits := f word.traits }
  | .call traits name arguments => .call (f traits) name arguments

end Element

namespace Value

def traits : Value → Traits
  | .single element => element.traits
  | .list elements => elements.traits

end Value

namespace Clause

def traits : Clause → Traits
  | .guard value => value.traits
  | .promise value => value.traits

/-- It is a class expression. -/
def isGuard : Clause → Bool
  | .guard _ => true
  | .promise _ => false

def withTraits (f : Traits → Traits) : Clause → Clause
  | .guard value => .guard { value with traits := f value.traits }
  | .promise value => .promise { value with traits := f value.traits }

end Clause

namespace Selection

def traits : Selection → Traits
  | .guard value => value.traits
  | .assignment value => value.traits

/-- It is a class expression. -/
def isGuard : Selection → Bool
  | .guard _ => true
  | .assignment _ => false

def withTraits (f : Traits → Traits) : Selection → Selection
  | .guard value => .guard { value with traits := f value.traits }
  | .assignment value => .assignment { value with traits := f value.traits }

end Selection

namespace Contents

/-- The traits of what stands between the braces of a block. -/
def traits : Contents → Traits
  | .bundle statements => statements.traits
  | .body selections => selections.traits

end Contents

end PolicyFormat.Policy
