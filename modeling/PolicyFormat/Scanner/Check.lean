import PolicyFormat.Pattern.Match
import PolicyFormat.Pattern.Reader
import PolicyFormat.Scanner.Info

/-!
Whether the declarations of a scanner are sound.
-/
namespace PolicyFormat.Scanner

open Builder

def namedGroup (name expression : String) : String :=
  "(?P<" ++ name ++ ">" ++ expression ++ ")"

/-- The characters of token names are letters, digits and underscores. A line feed may end the name. -/
def isTokenName (name : String) : Bool :=
  let ok (cs : List Char) := !cs.isEmpty && cs.all (fun c => c.isAlphanum || c == '_')
  let cs := name.toList
  ok cs || (cs.getLast? == some '\n' && ok cs.dropLast)

namespace ScannerInfo

/-- Tokens are names, and should be declared once. -/
def checkTokens (i : ScannerInfo) : Work Unit := do
  let mut seen : List String := []
  for token in i.tokens do
    match token with
    | .text name =>
      if !isTokenName name then Work.error ("Bad token name '" ++ name ++ "'")
      if seen.contains name then Work.warn ("Token '" ++ name ++ "' multiply defined")
      seen := name :: seen
    | _ => throw .badToken

def checkLiterals (i : ScannerInfo) : Work Unit := do
  match membersOf? i.literals with
  | none =>
    Work.error "Invalid literals specification. literals must be a sequence of characters"
  | some members =>
    for member in members do
      let single := match member with
        | .text s => s.length ≤ 1
        | _ => false
      if !single then
        Work.error ("Invalid literal " ++ member.shown ++ ". Must be a single character")

/-- The expression of a rule can be read and does not fit the empty text. The place of the rule, if it is
known, leads the messages. -/
def checkExpression (place : Option String) (name shownName expression : String) : Work Unit := do
  let lead (mark : String) := (place.map (· ++ mark)).getD ""
  let written := namedGroup name expression
  match Expression.read written with
  | .ok e =>
    if (e.pattern.matchAt? #[] 0).isSome then
      Work.error (lead ": " ++ "Regular expression for rule '" ++ shownName ++ "' matches empty string")
  | .error e =>
    Work.error (lead ": " ++ "Invalid regular expression for rule '" ++ shownName ++ "'. "
      ++ e.message written)
    if expression.toList.contains '#' then
      Work.error (lead ". " ++ "Make sure '#' in rule '" ++ shownName ++ "' is escaped with '\\#'")

def checkArguments (i : ScannerInfo) (r : Routine) : Work Bool := do
  if r.arguments > 1 then
    Work.error (i.placeAt r.line ++ ": Rule '" ++ r.name ++ "' has too many arguments")
    return false
  if r.arguments < 1 then
    Work.error (i.placeAt r.line ++ ": Rule '" ++ r.name ++ "' requires an argument")
    return false
  return true

def checkRoutine (i : ScannerInfo) (name : String) (r : Routine) : Work Unit := do
  if ← i.checkArguments r then
    match r.description.filter (fun s => !s.isEmpty) with
    | none =>
      Work.error (i.placeAt r.line ++ ": No regular expression defined for rule '" ++ r.name ++ "'")
    | some expression => checkExpression (some (i.placeAt r.line)) name r.name expression

/-- Checks a rule that is a text. Its kind has to be a token, unless its tokens are ignored. -/
def checkText (i : ScannerInfo) (name text : String) : Work Unit := do
  let kind := (i.kinds.get? name).getD ""
  if !i.tokens.contains (.text kind) && !Text.occursIn "ignore_".toList kind.toList then
    Work.error ("Rule '" ++ name ++ "' defined for an unspecified token " ++ kind)
  else checkExpression none name name text

def handler? (i : ScannerInfo) (state : String) : Option Routine :=
  (i.handlers.get? state).join

def checkState (i : ScannerInfo) (state : String) : Work Unit := do
  let rules := (i.rules.get? state).getD {}
  for (name, r) in rules.routines do
    i.checkRoutine name r
  for (name, text) in rules.texts do
    i.checkText name text
  if rules.routines.isEmpty && rules.texts.isEmpty then
    Work.error ("No rules defined for state '" ++ state ++ "'")
  if let some r := i.handler? state then
    let _ ← i.checkArguments r

/-- The source text is read if some routine in it is used. -/
def usesSource (i : ScannerInfo) : Bool :=
  i.states.keys.any (fun state =>
    !((i.rules.get? state).getD {}).routines.isEmpty || (i.handler? state).isSome)

/-- A rule may be defined only once in the source text. -/
def checkSource (i : ScannerInfo) : Work Unit := do
  if !i.usesSource then return
  if i.declarations.source.isEmpty then throw .noSource
  let definedOn (cs : List Char) := (routineOn "t_" cs).orElse (fun _ => settingOn "t_" cs)
  for r in redefinitions definedOn 1 [] (Text.lines i.declarations.source) do
    Work.error (i.placeAt r.line ++ ": Rule " ++ r.name ++ " redefined. Previously defined on line "
      ++ toString r.previous)

/-- Checks everything. An error in the log means that there is no scanner. -/
def check (i : ScannerInfo) : Work Unit := do
  i.checkTokens
  i.checkLiterals
  for state in i.states.keys do
    i.checkState state
  i.checkSource
  if (← get).errors.any (·.level == .error) then throw .unableToScan

end ScannerInfo

end PolicyFormat.Scanner
