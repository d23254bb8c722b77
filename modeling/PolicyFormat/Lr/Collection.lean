import PolicyFormat.Lr.Item

/-!
The states of an LR automaton. A state is known by its kernel, the ordered list of items by which it is
reached.
-/
namespace PolicyFormat.Lr

/-- A state: its items, and the states that its symbols lead to. -/
structure ItemSet where
  items : List Item := []
  moves : List (String × Nat) := []
deriving Repr

def ItemSet.move? (s : ItemSet) (symbol : String) : Option Nat :=
  s.moves.lookup symbol

/-- Adds the items that the items in a queue call for. A production is started once, so there are at most
as many items as in the kernel and productions together. -/
def expand (g : Grammar) : (limit : Nat) → (queue done : List Item) → (started : List Nat) → List Item
  | 0, queue, done, _ => done.reverse ++ queue
  | _ + 1, [], done, _ => done.reverse
  | limit + 1, i :: queue, done, started =>
    let new := ((i.expansions g).map (·.number)).filter (fun n => !started.contains n)
    expand g limit (queue ++ new.map (fun n => ⟨n, 0⟩)) (i :: done) (started ++ new)

def closure (g : Grammar) (kernel : List Item) : List Item :=
  expand g (kernel.length + g.rules.size + 1) kernel [] []

def advance (g : Grammar) (items : List Item) (symbol : String) : List Item :=
  (items.filter (fun i => i.next? g == some symbol)).map Item.advanced

/-- The symbols of the productions of some items, each once. -/
def symbolsOf (g : Grammar) (items : List Item) : List String :=
  items.foldl (fun seen i => addAllNew seen (i.rule g).symbols) []

/-- Finds where the symbols of a state lead. New kernels come at the end of the known ones. -/
def followMoves (g : Grammar) (items : List Item) :
    List String → Array (List Item) → Array (List Item) × List (String × Nat)
  | [], kernels => (kernels, [])
  | symbol :: rest, kernels =>
    match advance g items symbol with
    | [] => followMoves g items rest kernels
    | kernel =>
      let (kernels, target) := match kernels.findIdx? (· == kernel) with
        | some n => (kernels, n)
        | none => (kernels.push kernel, kernels.size)
      let (kernels, moves) := followMoves g items rest kernels
      (kernels, (symbol, target) :: moves)

/-- Builds the states of the kernels that are known but not done. -/
def explore (g : Grammar) :
    (limit : Nat) → (kernels : Array (List Item)) → (states : Array ItemSet) → Array ItemSet
  | 0, _, states => states
  | limit + 1, kernels, states =>
    match kernels[states.size]? with
    | none => states
    | some kernel =>
      let items := closure g kernel
      let (kernels, moves) := followMoves g items (symbolsOf g items) kernels
      explore g limit kernels (states.push ⟨items, moves⟩)

def itemCount (g : Grammar) : Nat :=
  g.productions.foldl (fun n p => n + (p.symbols.length + 1)) 0

/-- The states of a grammar, in the order in which they are found from the start. A kernel repeats no item,
so with `n` items there are at most `(n + 1) ^ n` kernels. -/
def collection (g : Grammar) : Array ItemSet :=
  let n := itemCount g
  explore g (Nat.pow (n + 1) n) #[[⟨0, 0⟩]] #[]

end PolicyFormat.Lr
