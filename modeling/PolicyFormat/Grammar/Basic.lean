import PolicyFormat.Grammar.RuleText
import PolicyFormat.Text.Unquoted

/-!
A context-free grammar under construction: its tokens, precedences and rules. A rule is added with all
checks on its names, literals and precedence mark.
-/
namespace PolicyFormat

/-- A grammar. For each symbol it holds the numbers of the rules that use it; rule 0, which is not among
`rules`, derives the start symbol. -/
structure Grammar where
  rules : Array Production := #[]
  terminals : Keyed String (List Nat) := {}
  nonterminals : Keyed String (List Nat) := {}
  precedences : Keyed String Precedence := {}
  usedPrecedences : List String := []
  start : String := ""
deriving Repr

namespace Grammar

/-- The terminal that stands for input that does not fit. -/
def errorSymbol : String := "error"

/-- The terminal that stands for the end of the input. -/
def endSymbol : String := "$end"

/-- The left-hand side of the production for the start symbol. -/
def startName : String := "S'"

def ofTokens (tokens : List String) : Grammar :=
  { terminals := Keyed.ofList ((tokens ++ [errorSymbol]).map (fun t => (t, []))) }

def isTerminal (g : Grammar) (symbol : String) : Bool :=
  g.terminals.contains symbol

def isNonterminal (g : Grammar) (symbol : String) : Bool :=
  g.nonterminals.contains symbol

def startProduction (g : Grammar) : Production :=
  { number := 0, name := startName, symbols := [g.start] }

def productions (g : Grammar) : List Production :=
  g.startProduction :: g.rules.toList

def production (g : Grammar) (number : Nat) : Production :=
  if number == 0 then g.startProduction else g.rules[number - 1]?.getD g.startProduction

def rulesFor (g : Grammar) (name : String) : List Production :=
  g.rules.toList.filter (·.name == name)

def isDefined (g : Grammar) (symbol : String) : Bool :=
  g.rules.any (·.name == symbol)

/-- The precedence of a symbol. One without a declared precedence binds least, to the right. -/
def precedenceOf (g : Grammar) (symbol : Option String) : Precedence :=
  (symbol.bind g.precedences.get?).getD {}

def declare (g : Grammar) (symbol associativity : String) (level : Int) : Except GrammarError Grammar :=
  if g.precedences.contains symbol then .error (.precedenceRepeated symbol)
  else match Associativity.ofWord? associativity with
    | some a => .ok { g with precedences := g.precedences.put symbol ⟨a, level⟩ }
    | none => .error .unknownAssociativity

/-- The names that rules and symbols may have. -/
def isName (s : String) : Bool :=
  !s.isEmpty && s.toList.all (fun c => c.isAlphanum || c == '_' || c == '-')

/-- The mark before the symbol whose precedence a rule takes. -/
def precedenceMark : String := "%prec"

/-- Steps that change a grammar and may find a fault. The changes before a fault stay. -/
abbrev Adding := ExceptT RuleFault (StateM Grammar)

/-- Reads a symbol of a rule: a name, or a quoted character, which becomes a terminal. -/
def readSymbol (rule symbol : String) : Adding String := do
  let quoted := symbol.startsWith "'" || symbol.startsWith "\""
  match if quoted then Text.unquote? symbol else none with
  | some literal =>
    if literal.length > 1 then throw (.longLiteral symbol rule)
    if !(← get).isTerminal literal then
      modify (fun g => { g with terminals := g.terminals.put literal [] })
    return literal
  | none =>
    if isName symbol || symbol == precedenceMark then return symbol
    throw (.badSymbol symbol rule)

/-- Takes the precedence mark off a list of symbols and finds the precedence of the rule: that of the
marked symbol, or else of the rightmost terminal. -/
def readPrecedence (symbols : List String) : Adding (List String × Precedence) := do
  let g ← get
  if !symbols.contains precedenceMark then
    return (symbols, g.precedenceOf (rightmostTerminal? g.isTerminal symbols))
  match symbols.reverse with
  | symbol :: mark :: front =>
    if symbol == precedenceMark then throw .nothingAfterMark
    if mark != precedenceMark then throw .markNotLast
    match g.precedences.get? symbol with
    | none => throw (.unknownPrecedence symbol)
    | some p =>
      set { g with usedPrecedences := addNew g.usedPrecedences symbol }
      return (front.reverse, p)
  | _ => throw .nothingAfterMark

def noteUse (number : Nat) (g : Grammar) (symbol : String) : Grammar :=
  if g.isTerminal symbol then
    { g with terminals := g.terminals.update symbol [] (· ++ [number]) }
  else { g with nonterminals := g.nonterminals.update symbol [] (· ++ [number]) }

def addRule (rule : WrittenRule) (action : Option String) : Adding Unit := do
  if (← get).isTerminal rule.name then throw (.nameIsToken rule.name)
  if !isName rule.name then throw (.badName rule.name)
  let symbols ← rule.symbols.mapM (readSymbol rule.name)
  let (symbols, precedence) ← readPrecedence symbols
  let g ← get
  match g.rules.find? (fun p => p.name == rule.name && p.symbols == symbols) with
  | some previous => throw (.duplicate previous)
  | none =>
    let number := g.rules.size + 1
    let g := { g with nonterminals := g.nonterminals.update rule.name [] id }
    let g := symbols.foldl (noteUse number) g
    let new : Production :=
      { number, name := rule.name, symbols, precedence, action, place := rule.place }
    set { g with rules := g.rules.push new }

/-- A grammar with one more rule, or the fault of the rule. Literals and precedences that were read before
a fault count as seen. -/
def add (g : Grammar) (rule : WrittenRule) (action : Option String) : Except GrammarError Unit × Grammar :=
  let (result, g) := (addRule rule action).run.run g
  (result.mapError (.rule rule.place), g)

/-- Adds rules up to the first fault. -/
def addAll (g : Grammar) (action : Option String) : List WrittenRule → Except GrammarError Grammar
  | [] => .ok g
  | rule :: rest =>
    match g.add rule action with
    | (.ok _, g) => g.addAll action rest
    | (.error e, _) => .error e

/-- Fixes the start symbol: the one that is given, or that of the first rule. -/
def setStart (g : Grammar) (start : Option String) : Except GrammarError Grammar :=
  let given := start.filter (fun s => !s.isEmpty)
  match given.or (g.rules[0]?.map (·.name)) with
  | none => .error .noRules
  | some symbol =>
    if g.isNonterminal symbol then
      .ok { g with start := symbol, nonterminals := g.nonterminals.update symbol [] (· ++ [0]) }
    else .error (.startUndefined symbol)

end Grammar

end PolicyFormat
