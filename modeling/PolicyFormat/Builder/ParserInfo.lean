import PolicyFormat.Builder.Work
import PolicyFormat.Datum.Reader

/-!
What declarations say about a parser, and whether they say it well: the tokens, the precedences, the start
symbol, the error handler and the routines that hold the rules.
-/
namespace PolicyFormat.Builder

open Text

/-- What is declared under a name, unless it is data that counts as not given. -/
def Declarations.given? (d : Declarations) (name : String) : Option Declared :=
  (d.get? name).filter fun
    | .routine _ => true
    | .value v => v.isGiven

/-- The parts of a parser, as they are declared. The routines come in the order of their lines. -/
structure ParserInfo where
  declarations : Declarations
  tokens : List Datum
  routines : List (String × Routine)
  signature : String

/-- The routines that hold rules, in the order of their lines. -/
def ruleRoutines (d : Declarations) : List (String × Routine) :=
  let found := d.routines.filter (fun (name, _) => name.startsWith "p_" && name != "p_error")
  found.mergeSort (fun a b => a.2.line ≤ b.2.line)

def declaredTokens (d : Declarations) : Work (List Datum) := do
  match d.given? "tokens" with
  | none =>
    Work.error "No token list is defined"
    throw .unable
  | some (.value (.list tokens)) => return tokens
  | some (.value (.tuple tokens)) => return tokens
  | _ =>
    Work.error "tokens must be a list or tuple"
    throw .unable

/-- The characters of texts that go into a signature. -/
def isNarrow (s : String) : Bool :=
  s.toList.all (fun c => c.toNat < 256)

def textsOf? : Datum → Option (List String)
  | .text s => some (s.toList.map (fun c => String.ofList [c]))
  | .list items => items.mapM Datum.text?
  | .tuple items => items.mapM Datum.text?
  | .record fields => some (fields.map (·.1))
  | _ => none

def membersOf? : Datum → Option (List Datum)
  | .text s => some (s.toList.map (fun c => .text (String.ofList [c])))
  | .list items => some items
  | .tuple items => some items
  | .record fields => some (fields.map (fun f => .text f.1))
  | _ => none

/-- The text of all declarations that a table depends on: start symbol, precedences, tokens and rules. The
first part that is no narrow text ends it. -/
def signatureOf (d : Declarations) (tokens : List Datum) (routines : List (String × Routine)) :
    Work String := do
  let start ← match d.given? "start" with
    | none => pure (some "")
    | some (.value (.text s)) => pure (some s)
    | some _ => throw .startNotText
  let precedence := match d.given? "precedence" with
    | none => some ""
    | some (.value v) => do
      let members ← membersOf? v
      let texts ← members.mapM textsOf?
      return String.join (texts.map String.join)
    | some (.routine _) => none
  let tokenText := (tokens.mapM Datum.text?).map (String.intercalate " ")
  let rules := routines.map (fun (_, r) => some (r.description.getD ""))
  let parts := ([start, precedence, tokenText] ++ rules).map (fun p => p.filter isNarrow)
  return String.join ((parts.takeWhile (·.isSome)).map (·.getD ""))

def parserInfo (d : Declarations) : Work ParserInfo := do
  let tokens ← declaredTokens d
  let routines := ruleRoutines d
  let signature ← signatureOf d tokens routines
  return { declarations := d, tokens, routines, signature }

namespace ParserInfo

def handler? (p : ParserInfo) : Option Declared :=
  p.declarations.given? "p_error"

def placeAt (p : ParserInfo) (line : Int) : String :=
  Place.text ⟨p.declarations.file, line⟩

def checkStart (p : ParserInfo) : Work Unit := do
  match p.declarations.get? "start" with
  | none => return
  | some (.value .nothing) => return
  | some (.value (.text _)) => return
  | _ => Work.error "'start' must be a string"

/-- The error handler has to be a routine of one argument. -/
def checkHandler (p : ParserInfo) : Work Bool := do
  match p.handler? with
  | none => return true
  | some (.value _) =>
    Work.error "'p_error' defined, but is not a function or method"
    return false
  | some (.routine r) =>
    if r.arguments == 1 then return true
    Work.error (p.placeAt r.line ++ ": p_error() requires 1 argument")
    return false

/-- Tokens may not have the name of the error symbol, and should be declared once. -/
def checkTokens (p : ParserInfo) : Work Bool := do
  if p.tokens.contains (.text Grammar.errorSymbol) then
    Work.error "Illegal token name 'error'. Is a reserved word"
    return false
  let mut seen : List Datum := []
  for token in p.tokens do
    match token with
    | .list _ => throw .badToken
    | .record _ => throw .badToken
    | _ => if seen.contains token then Work.warn ("Token " ++ token.shown ++ " multiply defined")
    seen := token :: seen
  return true

def levelPrecedences (level : Int) (entry : Datum) : Work (Option (List (String × String × Int))) := do
  match entry.items? with
  | none =>
    Work.error "Bad precedence table"
    return none
  | some [] => malformed
  | some [_] => malformed
  | some (associativity :: terms) =>
    match associativity with
    | .text associativity =>
      match terms.mapM Datum.text? with
      | some terms => return some (terms.map (fun t => (t, associativity, level)))
      | none =>
        Work.error "precedence items must be strings"
        return none
    | _ =>
      Work.error "precedence associativity must be a string"
      return none
where
  /-- An entry that is too short. -/
  malformed : Work (Option (List (String × String × Int))) := do
    Work.error ("Malformed precedence entry " ++ entry.plain ++ ". Must be (assoc, term, ..., term)")
    return none

def levels (level : Int) : List Datum → Work (Option (List (String × String × Int)))
  | [] => return some []
  | entry :: rest => do
    match ← levelPrecedences level entry with
    | none => return none
    | some first => return (← levels (level + 1) rest).map (first ++ ·)

/-- The declared precedences: symbol, associativity and level. -/
def precedences (p : ParserInfo) : Work (Option (List (String × String × Int))) := do
  match p.declarations.given? "precedence" with
  | none => return some []
  | some (.value (.list entries)) => levels 1 entries
  | some (.value (.tuple entries)) => levels 1 entries
  | _ =>
    Work.error "precedence must be a list or tuple"
    return none

/-- The rules that a routine holds, unless there is an error in it. -/
def routineRules (p : ParserInfo) (name : String) (r : Routine) :
    Work (Option (List (String × WrittenRule))) := do
  let place := p.placeAt r.line
  if r.arguments > 1 then
    Work.error (place ++ ": Rule " ++ quote r.name ++ " has too many arguments")
    return none
  if r.arguments < 1 then
    Work.error (place ++ ": Rule " ++ quote r.name ++ " requires an argument")
    return none
  match r.description.filter (fun s => !s.isEmpty) with
  | none =>
    Work.warn (place ++ ": No documentation string specified in function " ++ quote r.name
      ++ " (ignored)")
    return some []
  | some text =>
    match WrittenRule.ofText text p.declarations.file r.line with
    | .ok rules => return some (rules.map (fun rule => (name, rule)))
    | .error e =>
      Work.errorAsFormat e.message
      return none

/-- Warns of declarations that look like rules but are not taken for such. -/
def checkLookalikes (p : ParserInfo) : Work Unit := do
  for (name, declared) in p.declarations.entries do
    match declared with
    | .value _ =>
      if name.startsWith "p_" && name != "p_error" then
        Work.warn (quote name ++ " not defined as a function")
    | .routine r =>
      if !(name.startsWith "p_" || name.startsWith "t_") && r.arguments == 1 then
        match (r.description.getD "").splitOn " " with
        | _ :: ":" :: _ =>
          Work.warn (p.placeAt r.line ++ ": Possible grammar rule " ++ quote name
            ++ " defined without p_ prefix")
        | _ => pure ()

/-- The rules of all routines, each with the name of its routine. -/
def rules (p : ParserInfo) : Work (Option (List (String × WrittenRule))) := do
  if p.routines.isEmpty then
    Work.error "no rules of the form p_rulename are defined"
    return none
  let each ← p.routines.mapM (fun (name, r) => p.routineRules name r)
  p.checkLookalikes
  return (each.mapM id).map List.flatten

/-- The source text is read if some routine in it is used. -/
def usesSource (p : ParserInfo) : Bool :=
  let handler := match p.handler? with
    | some (.routine _) => true
    | _ => false
  handler || p.routines.any (fun (_, r) => r.arguments == 1 && !(r.description.getD "").isEmpty)

/-- Warns of routines that are defined again. -/
def checkSource (p : ParserInfo) : Work Unit := do
  if !p.usesSource then return
  if p.declarations.source.isEmpty then throw .noSource
  for r in redefinitions (routineOn "p_") 1 [] (lines p.declarations.source) do
    Work.warn (p.placeAt r.line ++ ": Function " ++ r.name ++ " redefined. Previously defined on line "
      ++ toString r.previous)

/-- Checks everything. The result is the precedences and the rules. -/
def check (p : ParserInfo) :
    Work (List (String × String × Int) × List (String × WrittenRule)) := do
  p.checkStart
  let handlerOk ← p.checkHandler
  let tokensOk ← p.checkTokens
  let precedences ← p.precedences
  let rules ← p.rules
  p.checkSource
  match handlerOk && tokensOk, precedences, rules with
  | true, some precedences, some rules => return (precedences, rules)
  | _, _, _ => throw .unable

end ParserInfo

end PolicyFormat.Builder
