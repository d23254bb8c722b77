import PolicyFormat.Policy.Share
import PolicyFormat.Policy.Tree

/-!
Placing the comments of a file in its tree. Comments go down from the file to the nodes that they
stand at. A node that hands comments on passes them to its parent, and so on up to the nearest
node that keeps them.
-/
namespace PolicyFormat.Policy

/-- The comments as a node of the given rank passes them on. -/
def handOn (rank : Int) (comments : List Comment) : List Comment :=
  comments.map (fun c => { c with rank })

/-- What decides whether a node keeps comments, and whether one may stand at its line end. -/
structure Keeper where
  yields : Option Int
  allowsTail : Bool := true
deriving Repr, DecidableEq

namespace Keeper

/-- The rank with which the node hands on comments, if it does. -/
def handsOn? (k : Keeper) : Option Int :=
  k.yields.filter (· != 0)

/-- The comments as the node keeps them. Where none may stand at a line end, all belong to the
code after them. -/
def settle (k : Keeper) (comments : List Comment) : List Comment :=
  if k.allowsTail then comments
  else comments.map (fun c => { c with affinity := some .nextNode })

/-- Hands comments up a chain of nodes, innermost first, to the first that keeps them. The result
is what each node of the chain keeps, or nothing if the chain has no keeper. -/
def adoptAlong (comments : List Comment) : List Keeper → Option (List (List Comment))
  | [] => none
  | k :: outer =>
    match k.handsOn? with
    | some rank => (adoptAlong (handOn rank comments) outer).map ([] :: ·)
    | none => some (k.settle comments :: outer.map (fun _ => []))

end Keeper

/-- Keeps the comments that the parts of a node handed up, or hands them on. -/
def Traits.adopt (t : Traits) (handed : List Comment) (allowsTail : Bool := true) :
    Traits × List Comment :=
  let keeper : Keeper := { yields := t.yields, allowsTail }
  match keeper.handsOn? with
  | some rank => (t, handOn rank handed)
  | none => ({ t with comments := t.comments ++ keeper.settle handed }, [])

/-- Gives comments to a leaf, which keeps them or hands them on. -/
def Leaf.receive (leaf : Leaf) (comments : List Comment) : Leaf × List Comment :=
  match leaf.traits.handsOn? with
  | some rank => (leaf, handOn rank comments)
  | none => ({ leaf with traits := { leaf.traits with comments } }, [])

/-- Gives comments to a leaf that may be missing. -/
def receiveOptional (leaf : Option Leaf) (comments : List Comment) : Option Leaf × List Comment :=
  match leaf with
  | some leaf =>
    let (leaf, handed) := leaf.receive comments
    (some leaf, handed)
  | none => (none, [])

/-- How a kind of list shares out its comments. `opensBlock` lists leave the comments before
their opening brace to the brace, and `owns` is as in `Sharing`. -/
structure ListRule where
  opensBlock : Bool := false
  owns : Comment → Bool := fun _ => false

/-- Which comments go where in a list: to its opening bracket, before and to each element, after
the last element, and to its closing bracket. -/
structure Plan where
  opening : List Comment
  shares : List (List Comment × List Comment)
  trailing : List Comment
  closing : List Comment

/-- A comment at the end of the line of an opening bracket, if the first element starts on a
later line, stands by itself. -/
def detachFirst (firstLine : Option Int) : List Comment → List Comment
  | [] => []
  | c :: rest =>
    if c.isEndOfLine && firstLine.any (c.span.startLine < ·) then
      { c with affinity := some .standalone } :: rest
    else c :: rest

namespace Entry

variable {α : Type}

/-- The element, if the entry is one. -/
def item? : Entry α → Option α
  | .item value => some value
  | .comment _ => none

end Entry

namespace ItemList

variable {α : Type}

/-- The elements of a list without the comments between them. -/
def items (g : ItemList α) : List α :=
  g.entries.filterMap Entry.item?

/-- Divides the comments of a list. -/
def plan (g : ItemList α) (rule : ListRule) (span : α → Span) (comments : List Comment) : Plan :=
  let (opening, comments) : List Comment × List Comment :=
    match g.opening with
    | some leaf =>
      if rule.opensBlock then comments.partition (fun (c : Comment) => c.span.start < leaf.traits.span.start)
      else ([], comments)
    | none => ([], comments)
  let (closing, comments) : List Comment × List Comment :=
    match g.closing with
    | some leaf => comments.partition (fun c => leaf.traits.span.start < c.span.start)
    | none => ([], comments)
  let firstLine := g.items.head?.map (fun item => (span item).startLine)
  let sharing : Sharing α := { span, inserts := true, owns := fun _ => rule.owns }
  let shares := sharing.share g.items (detachFirst firstLine comments)
  { opening, closing
    shares := shares.slots.map (fun slot => (slot.before, slot.given))
    trailing := shares.trailing }

/-- Gives each element its comments. Returns the entries with the comments between them, and what
the elements handed up. -/
def receiveEach (give : α → List Comment → α × List Comment) :
    List (Entry α) → List (List Comment × List Comment) → List (Entry α) × List Comment
  | .item value :: rest, (before, given) :: shares =>
    let (value, handed) := give value given
    let (entries, more) := receiveEach give rest shares
    (before.map .comment ++ .item value :: entries, handed ++ more)
  | .comment c :: rest, shares =>
    let (entries, more) := receiveEach give rest shares
    (.comment c :: entries, more)
  | entries, _ => (entries, [])

/-- Completes a list whose elements have their comments. -/
def complete (g : ItemList α) (plan : Plan) (entries : List (Entry α)) (handed : List Comment) :
    ItemList α × List Comment :=
  let (opening, fromOpening) := receiveOptional g.opening plan.opening
  let (closing, fromClosing) := receiveOptional g.closing plan.closing
  let (traits, handed) := g.traits.adopt (fromOpening ++ handed ++ fromClosing)
  ({ traits, opening, closing, entries := entries ++ plan.trailing.map .comment }, handed)

/-- Gives comments to a list. -/
def receive (g : ItemList α) (rule : ListRule) (span : α → Span)
    (give : α → List Comment → α × List Comment) (comments : List Comment) :
    ItemList α × List Comment :=
  let plan := g.plan rule span comments
  let (entries, handed) := receiveEach give g.entries plan.shares
  g.complete plan entries handed

end ItemList

mutual

/-- Gives comments to a word or a call. -/
def Element.receive : Element → List Comment → Element × List Comment
  | .leaf word, comments =>
    let (word, handed) := word.receive comments
    (.leaf word, handed)
  | .call traits name ⟨argTraits, opening, entries, closing⟩, comments =>
    let share := shareAmongParts [(0, name.traits.span), (1, argTraits.span)] comments
    let (name, fromName) := name.receive (share 0)
    let arguments : ItemList Element := ⟨argTraits, opening, entries, closing⟩
    let plan := arguments.plan {} (fun e => e.traits.span) (share 1)
    let (entries, fromEntries) := Element.receiveEach entries plan.shares
    let (arguments, fromArguments) := arguments.complete plan entries fromEntries
    let (traits, handed) := traits.adopt (fromName ++ fromArguments)
    (.call traits name arguments, handed)

/-- Gives each argument of a call its comments. -/
def Element.receiveEach :
    List (Entry Element) → List (List Comment × List Comment) → List (Entry Element) × List Comment
  | .item value :: rest, (before, given) :: shares =>
    let (value, handed) := value.receive given
    let (entries, more) := Element.receiveEach rest shares
    (before.map .comment ++ .item value :: entries, handed ++ more)
  | .comment c :: rest, shares =>
    let (entries, more) := Element.receiveEach rest shares
    (.comment c :: entries, more)
  | entries, _ => (entries, [])

end

/-- Gives comments to a value. -/
def Value.receive : Value → List Comment → Value × List Comment
  | .single element, comments =>
    let (element, handed) := element.receive comments
    (.single element, handed)
  | .list elements, comments =>
    let (elements, handed) := elements.receive {} (fun e => e.traits.span) Element.receive comments
    (.list elements, handed)

/-- A numbered part of a node that may be missing. -/
def optionalPart (number : Nat) (traits : Option Traits) : List (Nat × Span) :=
  (traits.map (fun t => (number, t.span))).toList

/-- Gives comments to an assignment, which keeps what its parts hand up. -/
def Assignment.receive (a : Assignment) (comments : List Comment) : Assignment × List Comment :=
  let parts := [(0, a.name.traits.span), (1, a.arrow.traits.span), (2, a.value.traits.span)]
    ++ optionalPart 3 (a.comma.map (·.traits))
  let share := shareAmongParts parts comments
  let (name, fromName) := a.name.receive (share 0)
  let (arrow, fromArrow) := a.arrow.receive (share 1)
  let (value, fromValue) := a.value.receive (share 2)
  let (comma, fromComma) := receiveOptional a.comma (share 3)
  let (traits, handed) := a.traits.adopt (fromName ++ fromArrow ++ fromValue ++ fromComma)
  ({ traits, name, arrow, value, comma }, handed)

/-- Gives comments to a class expression. -/
def Guard.receive (g : Guard) (comments : List Comment) : Guard × List Comment :=
  let (expression, fromExpression) := g.expression.receive comments
  let (traits, handed) := g.traits.adopt fromExpression
  ({ traits, expression }, handed)

/-- Gives comments to a promise, which keeps what its parts hand up. -/
def Promise.receive (p : Promise) (comments : List Comment) : Promise × List Comment :=
  let parts := [(0, p.promiser.traits.span)]
    ++ optionalPart 1 (p.promisee.map (·.traits))
    ++ optionalPart 2 (p.comma.map (·.traits))
    ++ [(3, p.constraints.traits.span), (4, p.semicolon.traits.span)]
  let share := shareAmongParts parts comments
  let (promiser, fromPromiser) := p.promiser.receive (share 0)
  let (promisee, fromPromisee) :=
    match p.promisee with
    | some value =>
      let (value, handed) := value.receive (share 1)
      (some value, handed)
    | none => (none, [])
  let (comma, fromComma) := receiveOptional p.comma (share 2)
  let (constraints, fromConstraints) :=
    p.constraints.receive {} (fun a => a.traits.span) Assignment.receive (share 3)
  let (semicolon, fromSemicolon) := p.semicolon.receive (share 4)
  let (traits, handed) := p.traits.adopt
    (fromPromiser ++ fromPromisee ++ fromComma ++ fromConstraints ++ fromSemicolon)
  ({ traits, promiser, promisee, comma, constraints, semicolon }, handed)

/-- Gives comments to a class expression or a promise. -/
def Clause.receive : Clause → List Comment → Clause × List Comment
  | .guard value, comments =>
    let (value, handed) := value.receive comments
    (.guard value, handed)
  | .promise value, comments =>
    let (value, handed) := value.receive comments
    (.promise value, handed)

/-- Gives comments to a promise type. -/
def PromiseType.receive (p : PromiseType) (comments : List Comment) : PromiseType × List Comment :=
  let share := shareAmongParts [(0, p.name.traits.span), (1, p.clauses.traits.span)] comments
  let (name, fromName) := p.name.receive (share 0)
  let (clauses, fromClauses) :=
    p.clauses.receive {} (fun c => c.traits.span) Clause.receive (share 1)
  let (traits, handed) := p.traits.adopt (fromName ++ fromClauses)
  ({ traits, name, clauses }, handed)

/-- Gives comments to what stands in a body. -/
def Selection.receive : Selection → List Comment → Selection × List Comment
  | .guard value, comments =>
    let (value, handed) := value.receive comments
    (.guard value, handed)
  | .assignment value, comments =>
    let (value, handed) := value.receive comments
    (.assignment value, handed)

/-- In a bundle, a comment that is indented deeper than a promise type belongs to the promise
type before it. -/
def bundleRule : ListRule where
  opensBlock := true
  owns c := tabSize < c.column

/-- A body has no promise types that comments could belong to. -/
def bodyRule : ListRule where
  opensBlock := true

/-- Gives comments to what stands between the braces of a block. -/
def Contents.receive : Contents → List Comment → Contents × List Comment
  | .bundle statements, comments =>
    let (statements, handed) :=
      statements.receive bundleRule (fun p => p.traits.span) PromiseType.receive comments
    (.bundle statements, handed)
  | .body selections, comments =>
    let (selections, handed) :=
      selections.receive bodyRule (fun s => s.traits.span) Selection.receive comments
    (.body selections, handed)

/-- Gives comments to a block. No comment stands at the end of a block's line. -/
def Block.receive (b : Block) (comments : List Comment) : Block × List Comment :=
  let parts := [(0, b.keyword.traits.span), (1, b.type.traits.span), (2, b.name.traits.span),
    (3, b.parameters.traits.span), (4, b.contents.traits.span)]
  let share := shareAmongParts parts comments
  let (keyword, fromKeyword) := b.keyword.receive (share 0)
  let (type, fromType) := b.type.receive (share 1)
  let (name, fromName) := b.name.receive (share 2)
  let (parameters, fromParameters) :=
    b.parameters.receive {} (fun l => l.traits.span) Leaf.receive (share 3)
  let (contents, fromContents) := b.contents.receive (share 4)
  let (traits, handed) := b.traits.adopt
    (fromKeyword ++ fromType ++ fromName ++ fromParameters ++ fromContents) false
  ({ traits, keyword, type, name, parameters, contents }, handed)

/-- Gives comments to a file. The second part is what no node keeps. -/
def Specification.receive (s : Specification) (comments : List Comment) :
    Specification × List Comment :=
  ItemList.receive s {} (fun b => b.traits.span) Block.receive comments

end PolicyFormat.Policy
