import PolicyFormat.Grammar.Check

/-!
The terminals that a symbol can start with and that can follow it. The sets are lists in the order in which
their elements are found.
-/
namespace PolicyFormat.Grammar

/-- The mark in a set of first symbols for the empty text. -/
def emptyMark : String := "<empty>"

abbrev SymbolSets := Keyed String (List String)

def SymbolSets.of (sets : SymbolSets) (symbol : String) : List String :=
  (sets.get? symbol).getD []

/-- The first symbols of a sequence: those of its elements up to the first that is never empty, and the
mark for the empty text if all of them can be empty. -/
def firstOf (first : SymbolSets) : List String → List String → List String
  | found, [] => found ++ [emptyMark]
  | found, x :: rest =>
    let set := first.of x
    let found := addAllNew found (set.filter (· != emptyMark))
    if set.contains emptyMark then firstOf first found rest else found

def firstSets (g : Grammar) : SymbolSets :=
  let own := (g.terminals.keys ++ [endSymbol]).map (fun t => (t, [t]))
  let start : SymbolSets := Keyed.ofList (own ++ g.nonterminals.keys.map (fun n => (n, [])))
  let addRule (sets : SymbolSets) (p : Production) : SymbolSets :=
    sets.update p.name [] (addAllNew · (firstOf sets [] p.symbols))
  let round (sets : SymbolSets) : SymbolSets :=
    g.nonterminals.keys.foldl (fun sets n => (g.rulesFor n).foldl addRule sets) sets
  untilStable round (g.nonterminals.entries.length * (start.entries.length + 2) + 1) start

/-- Adds to the follow sets what a rule says about the symbols in it. -/
def followRule (g : Grammar) (first : SymbolSets) (name : String) : List String → SymbolSets → SymbolSets
  | [], sets => sets
  | symbol :: rest, sets =>
    let sets :=
      if g.isNonterminal symbol then
        let next := firstOf first [] rest
        let sets : SymbolSets :=
          sets.update symbol [] (addAllNew · (next.filter (· != emptyMark)))
        if next.contains emptyMark then sets.update symbol [] (addAllNew · (sets.of name)) else sets
      else sets
    followRule g first name rest sets

/-- The symbols that can follow each nonterminal in a derivation from the first rule's nonterminal. -/
def followSets (g : Grammar) : SymbolSets :=
  let first := g.firstSets
  let start : SymbolSets := ⟨g.nonterminals.keys.map (fun n => (n, []))⟩
  let start := match g.rules[0]? with
    | some p => start.put p.name [endSymbol]
    | none => start
  let round (sets : SymbolSets) : SymbolSets :=
    g.rules.foldl (fun sets p => followRule g first p.name p.symbols sets) sets
  untilStable round (start.entries.length * (first.entries.length + 1) + 1) start

end PolicyFormat.Grammar
