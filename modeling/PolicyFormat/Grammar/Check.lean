import PolicyFormat.Grammar.Basic
import PolicyFormat.Grammar.Stable

/-!
Checks on a finished grammar: symbols that are undefined, unused, out of reach of the start symbol, or
that derive no finite text.
-/
namespace PolicyFormat.Grammar

/-- The symbols that the start symbol derives, itself included. Each round adds a symbol or is the last. -/
def reachable (g : Grammar) : List String :=
  let round (seen : List String) : List String :=
    g.rules.foldl (fun seen p => if seen.contains p.name then addAllNew seen p.symbols else seen) seen
  untilStable round (g.terminals.entries.length + g.nonterminals.entries.length + 1) [g.start]

/-- The nonterminals that cannot occur in a derivation from the start symbol. -/
def unreachable (g : Grammar) : List String :=
  let seen := g.reachable
  g.nonterminals.keys.filter (fun s => !seen.contains s)

/-- The nonterminals that derive a text of terminals. -/
def productive (g : Grammar) : List String :=
  let ends (known : List String) (s : String) : Bool :=
    if g.isNonterminal s then known.contains s else true
  let round (known : List String) : List String :=
    g.rules.foldl (fun known p => if p.symbols.all (ends known) then addNew known p.name else known) known
  untilStable round (g.nonterminals.entries.length + 1) []

/-- The nonterminals whose derivations never end. A symbol that is not defined does not count. They come in
the order of the symbols, terminals first. -/
def endless (g : Grammar) : List String :=
  let known := g.productive
  let all := addAllNew (g.terminals.keys ++ [endSymbol]) g.nonterminals.keys
  all.filter (fun s => g.isNonterminal s && !known.contains s && (g.isDefined s || g.isTerminal s))

/-- The symbols that are neither terminals nor defined, with the productions that use them. -/
def undefinedSymbols (g : Grammar) : List (String × Production) :=
  g.productions.flatMap fun p =>
    (p.symbols.filter (fun s => !g.isDefined s && !g.isTerminal s)).map (fun s => (s, p))

def unusedTerminals (g : Grammar) : List String :=
  (g.terminals.entries.filter (fun e => e.1 != errorSymbol && e.2.isEmpty)).map (·.1)

/-- The first rule of each nonterminal that no rule uses. -/
def unusedRules (g : Grammar) : List Production :=
  (g.nonterminals.entries.filter (fun e => e.2.isEmpty)).filterMap (fun e => (g.rulesFor e.1).head?)

/-- The declared precedences of symbols that are neither terminals nor used in a precedence mark. -/
def unusedPrecedences (g : Grammar) : List (String × Associativity) :=
  (g.precedences.entries.filter
    (fun e => !(g.isTerminal e.1 || g.usedPrecedences.contains e.1))).map
    (fun e => (e.1, e.2.associativity))

def withoutRule? (g : Grammar) : Option String :=
  g.nonterminals.keys.find? (fun s => !g.isDefined s)

end PolicyFormat.Grammar
