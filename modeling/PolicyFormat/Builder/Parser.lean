import PolicyFormat.Builder.ParserInfo

/-!
Building a parser from declarations: the grammar is put together and checked, and its table is made. All
that is noteworthy goes to the logs.
-/
namespace PolicyFormat.Builder

open Text

/-- How a parser is to be built. -/
structure ParserOptions where
  method : String := "LALR"
  debug : Bool := false
  /-- A start symbol that counts before the declared one. -/
  start : Datum := .nothing
  checksRecursion : Bool := true

/-- A parser that was built: its grammar and table. -/
structure Generated where
  grammar : Grammar
  table : Lr.Table

/-- Puts the grammar together from tokens, precedences and rules. The flag says that all rules were good. -/
def assemble (tokens : List Datum) (precedences : List (String × String × Int))
    (rules : List (String × WrittenRule)) : Work (Bool × Grammar) := do
  let mut g := Grammar.ofTokens (tokens.map (·.plain))
  for (symbol, associativity, level) in precedences do
    match g.declare symbol associativity level with
    | .ok new => g := new
    | .error e => Work.warn e.message
  let mut good := true
  for (name, rule) in rules do
    let (result, new) := g.add rule (some name)
    g := new
    match result with
    | .ok _ => pure ()
    | .error e =>
      Work.error e.message
      good := false
  return (good, g)

def startSymbol (d : Datum) : Work (Option String) := do
  if !d.isGiven then return none
  match d with
  | .list _ => throw .badToken
  | .record _ => throw .badToken
  | d => return some d.plain

def chooseStart (g : Grammar) (start : Datum) : Work (Option Grammar) := do
  match g.setStart (← startSymbol start) with
  | .ok g => return some g
  | .error .noRules => throw .noRules
  | .error e =>
    Work.errorAsFormat e.message
    return none

/-- A symbol and the numbers of the rules that use it, for the log. -/
def usesText (symbol : String) (uses : List Nat) : String :=
  padRight 20 symbol ++ " : " ++ String.intercalate " " (uses.map toString)

/-- Notes the uses of all symbols, in the order of the symbols. -/
def noteUses (debug : Bool) (title : String) (uses : Keyed String (List Nat)) : Work Unit := do
  Work.note debug ""
  Work.note debug (title ++ ", with rules where they appear")
  Work.note debug ""
  let sorted := uses.entries.mergeSort (fun a b => !decide (b.1 < a.1))
  sorted.forM (fun (symbol, numbers) => Work.note debug (usesText symbol numbers))

def warnCount (count : Nat) (thing : String) : Work Unit := do
  if count == 1 then Work.warn ("There is 1 unused " ++ thing)
  if count > 1 then Work.warn ("There are " ++ toString count ++ " unused " ++ thing ++ "s")

/-- A token as messages show it. One that is not a text is named by `odd`. -/
def tokenText (odd : List String) (token : String) : String :=
  if odd.contains token then token else quote token

/-- Checks the symbols of a grammar. The result says whether it can be used. -/
def checkSymbols (debug : Bool) (odd : List String) (g : Grammar) : Work Bool := do
  let unknown := g.undefinedSymbols
  for (symbol, p) in unknown do
    Work.error (p.place.text ++ ": Symbol " ++ quote symbol
      ++ " used, but not defined as a token or a rule")
  let unusedTokens := g.unusedTerminals
  if !unusedTokens.isEmpty then
    Work.note debug ""
    Work.note debug "Unused terminals:"
    Work.note debug ""
    for token in unusedTokens do
      Work.warn ("Token " ++ tokenText odd token ++ " defined, but not used")
      Work.note debug ("    " ++ token)
  Work.note debug ""
  Work.note debug "Grammar"
  Work.note debug ""
  for p in g.productions do
    Work.note debug ("Rule " ++ padRight 5 (toString p.number) ++ " " ++ p.text)
  let unusedRules := g.unusedRules
  for p in unusedRules do
    Work.warn (p.place.text ++ ": Rule " ++ quote p.name ++ " defined, but not used")
  warnCount unusedTokens.length "token"
  warnCount unusedRules.length "rule"
  return unknown.isEmpty

def noteAllUses (debug : Bool) (odd : List String) (g : Grammar) : Work Unit := do
  if !odd.isEmpty && debug then
    Work.note debug ""
    Work.note debug "Terminals, with rules where they appear"
    Work.note debug ""
    throw .unsortable
  noteUses debug "Terminals" g.terminals
  noteUses debug "Nonterminals" g.nonterminals
  Work.note debug ""

/-- Checks for symbols that cannot be reached or never end. -/
def checkRecursion (g : Grammar) : Work Bool := do
  for symbol in g.unreachable do
    Work.warn ("Symbol " ++ quote symbol ++ " is unreachable")
  let endless := g.endless
  for symbol in endless do
    Work.error ("Infinite recursion detected for symbol " ++ quote symbol)
  return endless.isEmpty

def checkPrecedences (g : Grammar) : Work Bool := do
  let unused := g.unusedPrecedences
  for (symbol, associativity) in unused do
    Work.error ("Precedence rule " ++ quote associativity.word ++ " defined for unknown symbol "
      ++ quote symbol)
  return unused.isEmpty

def warnConflicts (count : Nat) (kind : String) : Work Unit := do
  if count == 1 then Work.warn ("1 " ++ kind ++ " conflict")
  if count > 1 then Work.warn (toString count ++ " " ++ kind ++ " conflicts")

def reportConflicts (t : Lr.Table) : Work Unit := do
  warnConflicts t.shiftReduce.length "shift/reduce"
  warnConflicts t.reduceReduce.length "reduce/reduce"
  if t.shiftReduce.isEmpty && t.reduceReduce.isEmpty then return
  let note (text : String) : Work Unit := Work.note true text .warning
  note ""
  note "Conflicts:"
  note ""
  for c in t.shiftReduce do
    note ("shift/reduce conflict for " ++ c.terminal ++ " in state " ++ toString c.state
      ++ " resolved as " ++ c.resolution.word)
  let mut reported : List (Nat × Nat × Nat) := []
  for c in t.reduceReduce do
    let key := (c.state, c.chosen.number, c.rejected.number)
    if !reported.contains key then
      let chosen := "reduce/reduce conflict in state " ++ toString c.state ++ " resolved using rule ("
        ++ c.chosen.text ++ ")"
      let rejected := "rejected rule (" ++ c.rejected.text ++ ") in state " ++ toString c.state
      note chosen
      note rejected
      Work.warn chosen
      Work.warn rejected
      reported := key :: reported
  let mut warned : List Nat := []
  for c in t.reduceReduce do
    let number := c.rejected.number
    if t.reductions[number]?.getD 0 == 0 && !warned.contains number then
      note ("Rule (" ++ c.rejected.text ++ ") is never reduced")
      Work.warn ("Rule (" ++ c.rejected.text ++ ") is never reduced")
      warned := number :: warned

def makeTable (o : ParserOptions) (g : Grammar) : Work Lr.Table := do
  if o.debug then Work.say .info ("Generating " ++ o.method ++ " tables")
  let (log, result) := Lr.Table.ofMethodName g o.method
  log.forM (fun line => Work.note o.debug line)
  match result with
  | .error e => throw (.table e)
  | .ok t =>
    if o.debug then reportConflicts t
    return t

def generate (o : ParserOptions) (p : ParserInfo) : Work Generated := do
  Work.note o.debug "Created by PLY version 3.5 (http://www.dabeaz.com/ply)"
  let (precedences, rules) ← p.check
  if p.handler?.isNone then Work.warn "no p_error() function is defined"
  let (good, g) ← assemble p.tokens precedences rules
  let start := if o.start == .nothing then p.declarations.datum "start" else o.start
  match good, ← chooseStart g start with
  | true, some g =>
    let odd := (p.tokens.filter (fun t => t.text?.isNone)).map (·.plain)
    let symbolsOk ← checkSymbols o.debug odd g
    noteAllUses o.debug odd g
    let recursionOk ← if o.checksRecursion then checkRecursion g else pure true
    let precedencesOk ← checkPrecedences g
    if !(symbolsOk && recursionOk && precedencesOk) then throw .unable
    return { grammar := g, table := ← makeTable o g }
  | _, _ => throw .unable

def buildParser (o : ParserOptions) (d : Declarations) : Except BuildFailure Generated × Workshop :=
  (parserInfo d >>= generate o).run.run {}

end PolicyFormat.Builder
