import PolicyFormat.Grammar.First

/-!
Items of LR parsing: a production with a dot in its symbols that marks how much of it has been read.
-/
namespace PolicyFormat.Lr

/-- A production with a dot before one of its symbols or at its end. -/
structure Item where
  production : Nat
  dot : Nat
deriving Repr, BEq, DecidableEq

namespace Item

def rule (g : Grammar) (i : Item) : Production :=
  g.production i.production

/-- The symbol after the dot. -/
def next? (g : Grammar) (i : Item) : Option String :=
  (i.rule g).symbols[i.dot]?

/-- The item with the dot one symbol further. -/
def advanced (i : Item) : Item :=
  { i with dot := i.dot + 1 }

/-- The symbols of the production with the dot among them. -/
def dotted (g : Grammar) (i : Item) : List String :=
  let symbols := (i.rule g).symbols
  symbols.take i.dot ++ "." :: symbols.drop i.dot

def text (g : Grammar) (i : Item) : String :=
  arrowText (i.rule g).name (i.dotted g)

/-- The element before the dot, the list of symbols and dot being taken as a ring. -/
def before? (g : Grammar) (i : Item) : Option String :=
  let all := i.dotted g
  if i.dot == 0 then all.getLast? else all[i.dot - 1]?

/-- The rules for the symbol after the dot. -/
def expansions (g : Grammar) (i : Item) : List Production :=
  match i.next? g with
  | some symbol => g.rulesFor symbol
  | none => []

def all (p : Production) : List Item :=
  (List.range (p.symbols.length + 1)).map (fun dot => ⟨p.number, dot⟩)

end Item

end PolicyFormat.Lr
