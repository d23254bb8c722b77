import PolicyFormat.Lr.Collection
import PolicyFormat.Lr.Digraph

/-!
The terminals at which a complete item of a state may be reduced. They are found from the transitions on
nonterminals: what can be read directly after a transition, what can be read after a part that derives
nothing, and what follows a transition that ends with another.
-/
namespace PolicyFormat.Lr

/-- A state and a nonterminal that it can read. -/
abbrev Transition := Nat × String

/-- The nonterminals that derive the empty text. -/
def nullable (g : Grammar) : List String :=
  let round (known : List String) : List String :=
    g.rules.foldl (fun known p => if p.symbols.all known.contains then addNew known p.name else known)
      known
  untilStable round (g.nonterminals.entries.length + 1) []

def transitions (g : Grammar) (states : Array ItemSet) : List Transition :=
  (states.toList.zipIdx).flatMap fun (s, n) =>
    (addAllNew [] ((s.items.filterMap (·.next? g)).filter g.isNonterminal)).map (fun x => (n, x))

def itemsAfter (states : Array ItemSet) (state : Nat) (symbol : String) : Option (Nat × List Item) := do
  let s ← states[state]?
  let target ← s.move? symbol
  let t ← states[target]?
  return (target, t.items)

/-- The terminals that can be read directly after a transition. -/
def directReads (g : Grammar) (states : Array ItemSet) (t : Transition) : List String :=
  match itemsAfter states t.1 t.2 with
  | none => []
  | some (_, items) =>
    let found := addAllNew [] ((items.filterMap (·.next? g)).filter g.isTerminal)
    if t.1 == 0 && t.2 == g.start then found ++ [Grammar.endSymbol] else found

/-- The transitions after a transition whose nonterminal can be empty. -/
def emptyReads (g : Grammar) (states : Array ItemSet) (empty : List String) (t : Transition) :
    List Transition :=
  match itemsAfter states t.1 t.2 with
  | none => []
  | some (target, items) =>
    ((items.filterMap (·.next? g)).filter empty.contains).map (fun x => (target, x))

/-- Reads the rest of a production from a state. The result is the state at its end, and the transitions on
the way after which the rest of the production can be empty. -/
def followItem (g : Grammar) (states : Array ItemSet) (known : Transition → Bool) (empty : List String) :
    Nat → List String → Nat × List Transition
  | state, [] => (state, [])
  | state, symbol :: rest =>
    let vanishes := rest.all (fun s => !g.isTerminal s && empty.contains s)
    let found := if known (state, symbol) && vanishes then [(state, symbol)] else []
    match (states[state]?).bind (·.move? symbol) with
    | none => (state, found)
    | some target =>
      let (last, later) := followItem g states known empty target rest
      (last, found ++ later)

/-- An item of the state at the end of a production belongs to the item at its start: they have the same
left-hand side and length, and the symbols before the dot of the one stand after the dot of the other. -/
def matchesStart (g : Grammar) (start item : Item) : Bool :=
  let p := start.rule g
  let r := item.rule g
  r.name == p.name && r.symbols.length == p.symbols.length
    && (item.dotted g).take item.dot == ((start.dotted g).drop 1).take item.dot

/-- What a transition leads back to: the items at the ends of the productions of its nonterminal, and the
transitions that it includes. -/
def lookback (g : Grammar) (states : Array ItemSet) (known : Transition → Bool) (empty : List String)
    (t : Transition) : List (Nat × Item) × List Transition :=
  match states[t.1]? with
  | none => ([], [])
  | some s =>
    let starts := s.items.filter (fun i => (i.rule g).name == t.2)
    let each := starts.map fun i =>
      let (last, includes) := followItem g states known empty t.1 ((i.rule g).symbols.drop i.dot)
      let ends := match states[last]? with
        | none => []
        | some e => e.items.filter (matchesStart g i)
      (ends.map (fun r => (last, r)), includes)
    (each.flatMap (·.1), each.flatMap (·.2))

abbrev Lookaheads := Array (Keyed Item (List String))

def lookaheads (g : Grammar) (states : Array ItemSet) : Lookaheads :=
  let empty := nullable g
  let trans := transitions g states
  let indices : Array (Keyed String Nat) :=
    trans.zipIdx.foldl (fun a (t, n) => a.modify t.1 (·.put t.2 n)) (Array.replicate states.size {})
  let index (t : Transition) : Option Nat := (indices[t.1]?).bind (·.get? t.2)
  let reads := trans.map (fun t => (emptyReads g states empty t).filterMap index)
  let reads := reads.toArray
  let readSets := digraph (fun n => reads[n]?.getD [])
    (SharedSets.separate (trans.map (directReads g states)))
  let back := trans.map (lookback g states (fun t => (index t).isSome) empty)
  let included : Array (List Nat) :=
    back.zipIdx.foldl
      (fun a ((_, includes), n) =>
        (includes.filterMap index).foldl (fun a m => a.modify m (· ++ [n])) a)
      (Array.replicate trans.length [])
  let followSets := digraph (fun n => included[n]?.getD []) readSets
  back.zipIdx.foldl
    (fun (looks : Lookaheads) ((ends, _), n) =>
      ends.foldl (fun (looks : Lookaheads) (state, item) =>
        looks.modify state (·.update item [] (addAllNew · (followSets.of n)))) looks)
    (Array.replicate states.size {})

end PolicyFormat.Lr
