import PolicyFormat.Pattern.Basic

/-!
Matching regular expressions. A match is described by the place where it ends and the group that was closed
last, and the possible matches come in the order in which they are preferred.
-/
namespace PolicyFormat.Pattern

/-- A place in a text that was reached while matching. -/
structure Reached where
  position : Nat
  /-- The number of the group that was closed last. -/
  lastGroup : Option Nat := none
deriving Repr, BEq

def wordAt (text : Array Char) (i : Nat) : Bool :=
  (text[i]?.map Text.isWord).getD false

def anchorHolds (text : Array Char) (i : Nat) : Anchor → Bool
  | .textStart => i == 0
  | .lastLineEnd => i == text.size || (i + 1 == text.size && text[i]? == some '\n')
  | .textEnd => i == text.size
  | .wordEdge inside =>
    let before := i != 0 && wordAt text (i - 1)
    (before != wordAt text i) == inside

def stepIf (text : Array Char) (holds : Char → Bool) (r : Reached) : List Reached :=
  match text[r.position]? with
  | some c => if holds c then [{ r with position := r.position + 1 }] else []
  | none => []

/-- Goes on from each of several places. The same place is kept only once. -/
def fromEach (places : List Reached) (go : Reached → List Reached) : List Reached :=
  match places with
  | [] => []
  | [r] => go r
  | many => (many.flatMap go).eraseDups

/-- Goes through a part a number of times. -/
def times (body : Reached → List Reached) : Nat → List Reached → List Reached
  | 0, places => places
  | n + 1, places => times body n (fromEach places body)

/-- Goes through a part again and again, at most a number of times. A repetition that reads nothing is the
last. What follows from a place is listed when the place is first seen. -/
def again (body : Reached → List Reached) (lazy : Bool) :
    (limit : Nat) → (most : Option Nat) → Reached → List (Reached × Option Nat) →
    List Reached × List (Reached × Option Nat)
  | 0, _, r, seen => ([r], seen)
  | limit + 1, most, r, seen =>
    if seen.contains (r, most) then ([], seen)
    else
      let seen := (r, most) :: seen
      if most == some 0 then ([r], seen)
      else
        let (further, seen) := ((body r).filter (· != r)).foldl (fun (out, seen) e =>
          if e.position == r.position then (out ++ [e], seen)
          else
            let (more, seen) := again body lazy limit (most.map (· - 1)) e seen
            (out ++ more, seen)) ([], seen)
        (if lazy then r :: further else further ++ [r], seen)

def repeatFrom (body : Reached → List Reached) (lazy : Bool) (size least : Nat) (most : Option Nat)
    (r : Reached) : List Reached :=
  fromEach (times body least [r]) (fun e => (again body lazy (size + 1) (most.map (· - least)) e []).1)

/-- The places that are reached by matching from a place, in the order of preference. -/
def ends (text : Array Char) : Pattern → Reached → List Reached
  | .empty, r => [r]
  | .any, r => stepIf text (· != '\n') r
  | .oneOf inside items, r => stepIf text (fun c => items.any (·.has c) == inside) r
  | .anchor a, r => if anchorHolds text r.position a then [r] else []
  | .seq p q, r => fromEach (ends text p r) (ends text q)
  | .alt p q, r => (ends text p r ++ ends text q r).eraseDups
  | .group number p, r => (ends text p r).map (fun e => { e with lastGroup := some number })
  | .cluster p, r => ends text p r
  | .atomic p, r => (ends text p r).take 1
  | .ahead inside p, r =>
    match ends text p r with
    | [] => if inside then [] else [r]
    | e :: _ => if inside then [{ e with position := r.position }] else []
  | .repeated least most eagerness p, r =>
    let all := repeatFrom (ends text p) (eagerness == .lazy) text.size least most r
    if eagerness == .possessive then all.take 1 else all

def matchAt? (p : Pattern) (text : Array Char) (position : Nat) : Option Reached :=
  (ends text p { position }).head?

end PolicyFormat.Pattern
