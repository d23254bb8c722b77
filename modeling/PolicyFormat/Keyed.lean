/-!
Values under keys, in the order in which the keys first came. Setting a key again keeps its place.
-/
namespace PolicyFormat

/-- Values under keys, in the order in which the keys first came. -/
structure Keyed (κ α : Type) where
  entries : List (κ × α) := []
deriving Repr, BEq

namespace Keyed

variable {κ α β : Type} [BEq κ]

def get? (m : Keyed κ α) (key : κ) : Option α :=
  m.entries.lookup key

/-- There is a value under the key. -/
def contains (m : Keyed κ α) (key : κ) : Bool :=
  m.entries.any (fun e => e.1 == key)

/-- Sets the value of a key in a list of pairs, at the key's place or at the end. -/
def putIn (key : κ) (value : α) : List (κ × α) → List (κ × α)
  | [] => [(key, value)]
  | e :: rest => if e.1 == key then (e.1, value) :: rest else e :: putIn key value rest

def put (m : Keyed κ α) (key : κ) (value : α) : Keyed κ α :=
  ⟨putIn key value m.entries⟩

/-- Changes the value of a key, which counts as `start` if the key is new. -/
def update (m : Keyed κ α) (key : κ) (start : α) (f : α → α) : Keyed κ α :=
  m.put key (f ((m.get? key).getD start))

def keys (m : Keyed κ α) : List κ :=
  m.entries.map (·.1)

/-- The same keys with changed values. -/
def map (f : α → β) (m : Keyed κ α) : Keyed κ β :=
  ⟨m.entries.map (fun e => (e.1, f e.2))⟩

/-- The pairs of a list, a later one counting over an earlier one of the same key. -/
def ofList (pairs : List (κ × α)) : Keyed κ α :=
  pairs.foldl (fun m e => m.put e.1 e.2) {}

end Keyed

/-- Adds an element at the end, unless it is there. -/
def addNew {α : Type} [BEq α] (xs : List α) (x : α) : List α :=
  if xs.contains x then xs else xs ++ [x]

/-- Adds elements one after the other, each at the end unless it is there. -/
def addAllNew {α : Type} [BEq α] (xs ys : List α) : List α :=
  ys.foldl addNew xs

end PolicyFormat
