import PolicyFormat.Text.Blank
import PolicyFormat.Text.Digit
import PolicyFormat.Text.Word

/-!
Regular expressions with numbered groups.
-/
namespace PolicyFormat

/-- A part of a character class. The kinds stand for the characters of the kind, or for all others. -/
inductive ClassItem where
  | char (c : Char)
  | range (first last : Char)
  | digit (inside : Bool)
  | word (inside : Bool)
  | blank (inside : Bool)
deriving Repr, BEq

def ClassItem.has : ClassItem → Char → Bool
  | .char d, c => c == d
  | .range first last, c => first ≤ c && c ≤ last
  | .digit inside, c => Text.isDigit c == inside
  | .word inside, c => Text.isWord c == inside
  | .blank inside, c => Text.isBlank c == inside

/-- A condition on a place in a text. -/
inductive Anchor where
  | textStart
  /-- The end of the text, or the place before a line feed that ends it. -/
  | lastLineEnd
  | textEnd
  /-- A place between a word and something else, or any other place. -/
  | wordEdge (inside : Bool)
deriving Repr, BEq

/-- Which of the possible numbers of repetitions is tried first, and whether others are tried. -/
inductive Eagerness where
  | greedy
  | lazy
  | possessive
deriving Repr, BEq

/-- Regular expressions. -/
inductive Pattern where
  | empty
  /-- Any character but a line feed. -/
  | any
  /-- A character of a class, or one that is not in it. -/
  | oneOf (inside : Bool) (items : List ClassItem)
  | anchor (a : Anchor)
  | seq (p q : Pattern)
  | alt (p q : Pattern)
  | group (number : Nat) (p : Pattern)
  /-- A part in brackets that is no group. -/
  | cluster (p : Pattern)
  /-- A part that is not matched in another way once it has matched. -/
  | atomic (p : Pattern)
  /-- What follows matches, or does not match. -/
  | ahead (inside : Bool) (p : Pattern)
  | repeated (least : Nat) (most : Option Nat) (eagerness : Eagerness) (p : Pattern)
deriving Repr, BEq, Inhabited

namespace Pattern

def char (c : Char) : Pattern := .oneOf true [.char c]

/-- Parts one after the other. -/
def ofList : List Pattern → Pattern
  | [] => .empty
  | p :: rest => rest.foldl .seq p

end Pattern

/-- A regular expression with the names of its groups, in the order in which they open. -/
structure Expression where
  pattern : Pattern
  names : List (String × Nat)
deriving Repr, BEq

end PolicyFormat
