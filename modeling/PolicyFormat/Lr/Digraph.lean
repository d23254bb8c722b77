/-!
Sets that grow along a relation: the set of each node takes in the sets of all nodes that it is related to.
Nodes that are related to each other in a circle end up with one set in common, so that a later change for
one of them is seen by all.
-/
namespace PolicyFormat.Lr

/-- A set for each node. Nodes that have the same cell share one set. -/
structure SharedSets (α : Type) where
  cellOf : Array Nat
  cells : Array (List α)

namespace SharedSets

variable {α : Type} [BEq α]

def separate (sets : List (List α)) : SharedSets α :=
  { cellOf := (List.range sets.length).toArray, cells := sets.toArray }

def of (s : SharedSets α) (node : Nat) : List α :=
  s.cells[s.cellOf[node]?.getD 0]?.getD []

/-- Adds to the set of `x` what is in the set of `y` and not yet there. -/
def absorb (s : SharedSets α) (x y : Nat) : SharedSets α :=
  let new := (s.of y).foldl (fun xs a => if xs.contains a then xs else xs ++ [a]) (s.of x)
  { s with cells := s.cells.setIfInBounds (s.cellOf[x]?.getD 0) new }

def join (s : SharedSets α) (x y : Nat) : SharedSets α :=
  { s with cellOf := s.cellOf.setIfInBounds y (s.cellOf[x]?.getD 0) }

end SharedSets

/-- How far the search has come with a node: the depth of the lowest open node that it is known to reach, or
that its circle is complete. -/
inductive Mark where
  | new
  | reaches (depth : Nat)
  | closed
deriving Repr, BEq

/-- The lower of two marks. A closed node reaches no open one. -/
def Mark.lower : Mark → Mark → Mark
  | .reaches a, .reaches b => .reaches (min a b)
  | .reaches a, _ => .reaches a
  | _, m => m

/-- A depth-first search in progress, with the open nodes, the last one first. -/
structure Search (α : Type) where
  marks : Array Mark
  stack : List Nat := []
  sets : SharedSets α

namespace Search

variable {α : Type} [BEq α]

def mark (s : Search α) (node : Nat) : Mark :=
  s.marks[node]?.getD .closed

def setMark (s : Search α) (node : Nat) (m : Mark) : Search α :=
  { s with marks := s.marks.setIfInBounds node m }

/-- Closes the open nodes down to `x`, all of which share the set of `x` from now on. -/
def closeDownTo (x : Nat) : List Nat → Search α → Search α
  | [], s => s
  | y :: stack, s =>
    let s := { s.setMark y .closed with sets := s.sets.join x y, stack }
    if y == x then s else closeDownTo x stack s

/-- Visits a node and all that it is related to. A visit only goes deeper at a new node, so the number of
nodes limits the depth. -/
def visit (related : Nat → List Nat) : (limit : Nat) → Nat → Search α → Search α
  | 0, _, s => s
  | limit + 1, x, s =>
    let s := { s with stack := x :: s.stack }
    let depth := s.stack.length
    let s := s.setMark x (.reaches depth)
    let s := (related x).foldl (fun s y =>
      let s := if s.mark y == .new then visit related limit y s else s
      let s := s.setMark x ((s.mark x).lower (s.mark y))
      { s with sets := s.sets.absorb x y }) s
    if s.mark x == .reaches depth then closeDownTo x s.stack s else s

end Search

/-- The least sets that contain the given ones and grow along the relation. -/
def digraph {α : Type} [BEq α] (related : Nat → List Nat) (sets : SharedSets α) : SharedSets α :=
  let count := sets.cellOf.size
  let start : Search α := { marks := Array.replicate count .new, sets }
  ((List.range count).foldl (fun s x =>
    if s.mark x == .new then Search.visit related (count + 1) x s else s) start).sets

/-- The least sets of named nodes, where some sets and relations may be missing. The nodes that are related to
have to be among the nodes. -/
def namedDigraph? (nodes : List String) (relation sets : List (String × List String)) :
    Option (List (String × List String)) :=
  let related (x : String) : List String := (relation.lookup x).getD []
  if nodes.any (fun x => (related x).any (fun y => !nodes.contains y)) then none
  else
    let start := SharedSets.separate (nodes.map (fun x => (sets.lookup x).getD []))
    let step (n : Nat) : List Nat := (related (nodes[n]?.getD "")).filterMap (fun y => nodes.idxOf? y)
    let out := digraph step start
    some (nodes.zipIdx.map (fun (x, n) => (x, out.of n)))

end PolicyFormat.Lr
