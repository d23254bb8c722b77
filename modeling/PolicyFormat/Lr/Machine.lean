import PolicyFormat.Lr.Symbol
import PolicyFormat.Lr.Table

/-!
The parser that a table drives. It keeps a stack of symbols and states, reduces the top of the stack to a
node of the parse tree, and recovers from input that does not fit by the error symbol of the grammar or as
its error handler says.
-/
namespace PolicyFormat.Lr

open Text

/-- What an error handler does about a token that does not fit. -/
inductive Recovery where
  | leave
  | resume
  | restart
  | skipTo (type : String)
deriving Repr, BEq

/-- What becomes of the log of a parse. A log that is made but not kept still needs all that it shows. -/
inductive Trace where
  | off | unseen | kept
deriving Repr, BEq

/-- How a parser is to work. -/
structure Conduct where
  /-- Symbols know their places. -/
  tracks : Bool := true
  trace : Trace := .off
  /-- The error handler. Without one, a message is written. -/
  handler : Option Recovery := some .leave
  /-- Productions whose reduction counts as an error. -/
  refused : List String := []
  /-- Lines to be given to the symbols of some productions. -/
  lineOf : List (String × Int) := []
  /-- Reductions note the value before their own symbols. -/
  peeks : Bool := false
  /-- The value of a reduction is this text and the number of the production, not a node. -/
  plain : Option String := none

/-- Why a parse broke down. -/
inductive Fault where
  | stackEmpty
  | unknownPlace
  | noTarget
  | noTokens
  | endless
deriving Repr, BEq

/-- What is found before a production: the bottom of the stack, or a value. -/
inductive Peek where
  | bottom
  | value (v : Value)

/-- A parser at work. Stacks have the top first. -/
structure Machine where
  symbols : List Symbol := []
  states : List Nat := []
  state : Nat := 0
  lookahead : Option Symbol := none
  pushedBack : List Symbol := []
  /-- How many tokens must be read before a new error counts. -/
  quiet : Nat := 0
  /-- An error handler has put things right. -/
  settled : Bool := false
  input : List Token
  line : Int := 1
  offset : Int := 0
  reductions : List Nat := []
  errors : List (Option Symbol) := []
  peeked : List Peek := []
  messages : List String := []

/-- Steps of a parser. What was done before a fault stays. -/
abbrev Parsing := ExceptT Fault (StateM Machine)

namespace Parsing

/-- The number of tokens to read after an error until another one counts. -/
def quietAfterError : Nat := 3

def write (text : String) : Parsing Unit :=
  modify (fun m => { m with messages := text :: m.messages })

def log (c : Conduct) (line : String) : Parsing Unit :=
  if c.trace == .kept then write (line ++ "\n") else return

def known {α : Type} (x : Option α) : Parsing α :=
  match x with
  | some a => return a
  | none => throw .unknownPlace

def nextToken : Parsing (Option Token) := do
  let m ← get
  match m.input with
  | [] => return none
  | t :: rest =>
    set { m with input := rest, line := t.line.getD m.line, offset := t.offset }
    return some t

/-- The symbol ahead: the one at hand, one that was pushed back, the next of the input, or the end. -/
def ahead : Parsing Symbol := do
  let m ← get
  match m.lookahead with
  | some s => return s
  | none =>
    let s ← match m.pushedBack with
      | s :: rest => do
        set { m with pushedBack := rest }
        pure s
      | [] => do
        pure (((← nextToken).map Symbol.ofToken).getD .atEnd)
    modify (fun m => { m with lookahead := some s })
    return s

/-- The stack and the symbol ahead, as the log shows them. -/
def situation (ahead : Symbol) : Parsing String := do
  let m ← get
  let shown ← known ahead.shown?
  let types := (m.symbols.reverse.drop 1).map (·.type)
  let line := String.intercalate " " types ++ " . " ++ shown
  return String.ofList (line.toList.dropWhile isBlank)

/-- Empties the stack but for its bottom. -/
def restart : Parsing Unit :=
  modify (fun m => { m with symbols := [.atEnd], states := [0] })

def skipTo (type : String) : List Token → Parsing Unit
  | [] => return
  | _ :: rest => do
    match ← nextToken with
    | none => return
    | some t => if t.type == type then return else skipTo type rest

def shift (c : Conduct) (ahead : Symbol) (target : Nat) : Parsing Unit := do
  log c ("Action : Shift and goto state " ++ toString target)
  modify (fun m => { m with
    symbols := ahead :: m.symbols, states := target :: m.states, state := target
    lookahead := none, quiet := m.quiet - 1 })

/-- The value before the symbols of a production. -/
def peek : Parsing Unit := do
  let m ← get
  match m.symbols with
  | [] => throw .stackEmpty
  | s :: _ =>
    let found ← match s.value with
      | none => pure Peek.bottom
      | some (.token t) => do
        let _ ← known t.line
        pure (Peek.value (.token t))
      | some v => pure (Peek.value v)
    set { m with peeked := found :: m.peeked }

/-- The value of a part of a production. A token that did not fit has to know its line. -/
def partValue (part : Symbol) : Parsing Value := do
  match part.value with
  | some (.token t) =>
    let _ ← known t.line
    return .token t
  | some v => return v
  | none => throw .unknownPlace

/-- The value of a production from its parts, or nothing if the production is refused. -/
def act (c : Conduct) (number : Nat) (text : String) (parts : List Symbol) :
    Parsing (Option Value) := do
  modify (fun m => { m with reductions := number :: m.reductions })
  if c.refused.contains text then return none
  let value ← match c.plain with
    | some s => pure (.datum (.text (s ++ toString number)))
    | none => do
      let values ← parts.mapM partValue
      pure (.node number values (parts.map (·.span)))
  if c.peeks then peek
  return some value

/-- The symbol of a production with the place of its parts. Without parts it is where the input is. -/
def placed (c : Conduct) (name : String) (length : Nat) (parts : List Symbol) : Parsing Symbol := do
  let s : Symbol := { type := name, value := some .nothing }
  if !c.tracks then return s
  if length == 0 then
    let m ← get
    return { s with line := some m.line, offset := some m.offset }
  match parts.head?, parts.getLast? with
  | some first, some last =>
    let line ← known first.line
    let offset ← known first.offset
    let lastLine ← known last.line
    let lastOffset ← known last.offset
    return { s with
      line := some line, offset := some offset
      endLine := some (last.endLine.getD lastLine), endOffset := some (last.endOffset.getD lastOffset) }
  | _, _ => throw .stackEmpty

/-- Turns the symbol of a refused production into an error symbol ahead of the stack, whose top is taken
off. -/
def refuse (symbol ahead : Symbol) : Parsing Unit := do
  let m ← get
  match m.symbols, m.states with
  | _ :: symbols, _ :: states =>
    set { m with pushedBack := ahead :: m.pushedBack, symbols, states }
    match states with
    | [] => throw .stackEmpty
    | state :: _ =>
      modify (fun m => { m with
        state, lookahead := some { symbol with type := Grammar.errorSymbol }
        quiet := quietAfterError, settled := false })
  | _, _ => throw .stackEmpty

def pushReduced (gotos : Nat → String → Option Nat) (symbol : Symbol) : Parsing Unit := do
  modify (fun m => { m with symbols := symbol :: m.symbols })
  let m ← get
  match m.states with
  | [] => throw .stackEmpty
  | top :: _ =>
    match gotos top symbol.type with
    | none => throw .noTarget
    | some state => set { m with state, states := state :: m.states }

def sayReduction (c : Conduct) (p : Production) (length : Nat) : Parsing Unit := do
  if c.trace == .off then return
  let m ← get
  let parts := (m.symbols.take length).reverse
  let values ← parts.mapM (fun s => known s.value)
  log c ("Action : Reduce rule [" ++ p.text ++ "] with ["
    ++ String.intercalate "," (values.map (·.entryText)) ++ "] and goto state " ++ toString p.number)

/-- Reduces the top of the stack by a production. If the stack is shorter than the production, its bottom
is not among the parts. -/
def reduce (c : Conduct) (gotos : Nat → String → Option Nat) (p : Production) (ahead : Symbol) :
    Parsing Unit := do
  let length := p.symbols.length
  sayReduction c p length
  let m ← get
  let parts := ((m.symbols.take (length + 1)).reverse.drop 1)
  let parts := if length == 0 then [] else parts
  let symbol ← placed c p.name length parts
  modify (fun m => { m with symbols := m.symbols.drop length, states := m.states.drop length })
  let symbol := match c.lineOf.lookup p.text with
    | some line => { symbol with line := some line }
    | none => symbol
  match ← act c p.number p.text parts with
  | none => refuse symbol ahead
  | some value =>
    log c ("Result : " ++ value.resultText)
    pushReduced gotos { symbol with value := some value }

/-- Tells the handler about an error, or writes a message. The result says whether the parse goes on as if
nothing had happened, goes on to unwind the stack, or ends. -/
inductive Reaction where
  | goOn | unwind | stop
deriving BEq

/-- Reacts to the first error for some time. -/
def react (c : Conduct) (ahead : Symbol) : Parsing Reaction := do
  modify (fun m => { m with quiet := quietAfterError, settled := false })
  let atEnd := ahead.type == Grammar.endSymbol
  match c.handler with
  | some recovery =>
    modify (fun m => { m with errors := (if atEnd then none else some ahead) :: m.errors })
    if atEnd || recovery == .leave then return .unwind
    match recovery with
    | .restart => restart
    | .skipTo type => skipTo type (← get).input
    | _ => pure ()
    modify (fun m => { m with settled := true, lookahead := none })
    return .goOn
  | none =>
    if atEnd then
      write "yacc: Parse error in input. EOF\n"
      return .stop
    let line := ahead.line.getD 0
    if line != 0 then
      write ("yacc: Syntax error at line " ++ toString line ++ ", token=" ++ ahead.type ++ "\n")
    else write ("yacc: Syntax error, token=" ++ ahead.type)
    return .unwind

def errorFor (ahead : Symbol) : Symbol :=
  { type := Grammar.errorSymbol, value := some (.token ahead.token), line := ahead.line
    offset := ahead.offset }

/-- Takes the stack and the input apart until the error symbol fits. The result says whether the parse
goes on. -/
def unwind (c : Conduct) (ahead : Symbol) : Parsing Bool := do
  let m ← get
  let atEnd := ahead.type == Grammar.endSymbol
  if m.states.length ≤ 1 && !atEnd then
    set { m with lookahead := none, state := 0, pushedBack := [] }
    return true
  if atEnd then return false
  match m.symbols with
  | [] => throw .stackEmpty
  | top :: rest =>
    if ahead.type != Grammar.errorSymbol then
      if top.type == Grammar.errorSymbol then
        let top ← if c.tracks then do
            let line ← known top.line
            let offset ← known top.offset
            pure { top with
              endLine := some (ahead.line.getD line), endOffset := some (ahead.offset.getD offset) }
          else pure top
        set { m with lookahead := none, symbols := top :: rest }
      else set { m with lookahead := some (errorFor ahead), pushedBack := ahead :: m.pushedBack }
    else
      set { m with symbols := rest }
      let ahead ← if c.tracks then do
          let line ← known top.line
          let offset ← known top.offset
          pure { ahead with line := some line, offset := some offset }
        else pure ahead
      modify (fun m => { m with lookahead := some ahead, states := m.states.drop 1 })
      match (← get).states with
      | [] => throw .stackEmpty
      | state :: _ => modify (fun m => { m with state })
    return true

/-- One step of the parser. A value is the result of the parse. -/
def step (c : Conduct) (t : Table) (g : Grammar) : Parsing (Option Value) := do
  if c.trace != .off then
    log c ""
    log c ("State  : " ++ toString (← get).state)
  let symbol ← ahead
  if c.trace != .off then log c ("Stack  : " ++ (← situation symbol))
  let row := t.actions[(← get).state]?.getD {}
  match (row.get? symbol.type).filter (· != .forbid) with
  | some (.shift target) =>
    shift c symbol target
    return none
  | some (.reduce number) =>
    let gotos (state : Nat) (name : String) : Option Nat := (t.gotos[state]?).bind (·.get? name)
    reduce c gotos (g.production number) symbol
    return none
  | some .accept =>
    let value := ((← get).symbols.head?.bind (·.value)).getD .nothing
    if c.trace != .off then
      log c ("Done   : Returning " ++ value.resultText)
      log c "PLY: PARSE DEBUG END"
    return some value
  | _ =>
    if c.trace != .off then log c ("ERROR: Error  : " ++ (← situation symbol))
    let m ← get
    let reaction ← if m.quiet == 0 || m.settled then react c symbol else do
      set { m with quiet := quietAfterError }
      pure .unwind
    match reaction with
    | .goOn => return none
    | .stop => return some .nothing
    | .unwind => if ← unwind c symbol then return none else return some .nothing

/-- Steps until there is a result. -/
def steps (c : Conduct) (t : Table) (g : Grammar) : (limit : Nat) → Parsing Value
  | 0 => throw .endless
  | limit + 1 => do
    match ← step c t g with
    | some value => return value
    | none => steps c t g limit

/-- More steps than a parse takes that ends. Without reading a token, the tree can grow to a depth of the
number of nonterminals and can branch as often as the longest rule has symbols; errors can make the parser
walk over the stack once per token. -/
def stepLimit (g : Grammar) (tokens : Nat) : Nat :=
  let longest := g.rules.foldl (fun n p => max n p.symbols.length) 0
  Nat.pow (tokens + 2) 2 * Nat.pow (longest + 2) (g.nonterminals.entries.length + 4)

end Parsing

/-- Parses tokens. Without tokens to read from, the parse fails before it starts. -/
def parse (c : Conduct) (t : Table) (g : Grammar) (tokens : Option (List Token)) :
    Except Fault Value × Machine :=
  let start : Parsing Value := do
    if c.trace != .off then Parsing.log c "PLY: PARSE DEBUG START"
    if tokens.isNone then throw .noTokens
    Parsing.restart
    Parsing.steps c t g (Parsing.stepLimit g (tokens.getD []).length)
  start.run.run { input := tokens.getD [] }

end PolicyFormat.Lr
