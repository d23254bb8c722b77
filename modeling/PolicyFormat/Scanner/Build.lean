import PolicyFormat.Scanner.Basic
import PolicyFormat.Scanner.Check

/-!
Building scanners from declarations.
-/
namespace PolicyFormat.Scanner

open Builder

/-- How a scanner is built. -/
structure ScannerOptions where
  /-- Whether there is a debugging log. -/
  debug : Bool := false
  /-- Whether the declarations are checked. -/
  checked : Bool := true

def distinctTokens (tokens : List Datum) : Work (List Datum) := do
  for token in tokens do
    match token with
    | .list _ => throw .badToken
    | .record _ => throw .badToken
    | _ => pure ()
  return addAllNew [] tokens

/-- Literals in one text, if they come as a sequence. -/
def joinedLiterals (literals : Datum) : Work Datum := do
  match literals.items? with
  | none => return literals
  | some items =>
    match items.head? with
    | some (.text _) =>
      match items.mapM Datum.text? with
      | some texts => return .text (String.join texts)
      | none => throw .literalNotText
    | _ => throw .literalsNotText

def expressionOf (r : Routine) : String :=
  r.description.getD "None"

def writtenRules (debug : Bool) (state : String) (rules : StateRules) : Work (List String) := do
  let all := rules.routines.map (fun (name, r) => (name, expressionOf r)) ++ rules.texts
  for (name, expression) in all do
    Work.note debug ("lex: Adding rule " ++ name ++ " -> '" ++ expression ++ "' (state '" ++ state ++ "')")
  return all.map (fun (name, expression) => namedGroup name expression)

def stateExpressions (debug : Bool) (i : ScannerInfo) (state : String) (rules : List String) :
    Work (List Alternatives) := do
  let all ← Work.ofExcept (Alternatives.ofRules i.declarations i.kinds (rules.length + 1) rules)
  for (a, n) in all.zipIdx do
    Work.note debug ("lex: state '" ++ state ++ "' : regex[" ++ toString n ++ "] = '" ++ a.written ++ "'")
  return all

/-- An inclusive state has the expressions of the initial state after its own. -/
def withInitial (states : Keyed String StateKind) (rules : Keyed String (List Alternatives)) :
    Keyed String (List Alternatives) :=
  let initial := (rules.get? initialState).getD []
  ⟨rules.entries.map fun (state, own) =>
    if state != initialState && states.get? state == some .inclusive then (state, own ++ initial)
    else (state, own)⟩

/-- Inclusive states get the handler and the skipped characters of the initial state if they have none.
Warns of those that are missing otherwise. -/
def complete (i : ScannerInfo) : Work ScannerInfo := do
  let handler := i.handler? initialState
  let ignored := (i.ignored.get? initialState).getD ""
  if handler.isNone then Work.warn "No t_error rule is defined"
  let mut i := i
  for (state, kind) in i.states.entries do
    match kind with
    | .exclusive =>
      if !i.handlers.contains state then
        Work.warn ("No error rule is defined for exclusive state '" ++ state ++ "'")
      if !i.ignored.contains state && !ignored.isEmpty then
        Work.warn ("No ignore rule is defined for exclusive state '" ++ state ++ "'")
    | .inclusive =>
      if !i.handlers.contains state then i := { i with handlers := i.handlers.put state handler }
      if !i.ignored.contains state then i := { i with ignored := i.ignored.put state ignored }
  return i

def make (o : ScannerOptions) (i : ScannerInfo) : Work Scanner := do
  Work.note o.debug ("lex: tokens   = " ++ (Datum.list i.tokens).shown)
  Work.note o.debug ("lex: literals = " ++ i.literals.shown)
  let states := i.states.entries.map (fun (state, kind) => (state, Datum.text kind.name))
  Work.note o.debug ("lex: states   = " ++ (Datum.record states).shown)
  let tokens ← distinctTokens i.tokens
  let literals ← joinedLiterals i.literals
  let written ← i.rules.entries.mapM fun (state, rules) => do
    return (state, ← writtenRules o.debug state rules)
  Work.note o.debug "lex: ==== MASTER REGEXS FOLLOW ===="
  let rules ← written.mapM fun (state, rules) => do
    return (state, ← stateExpressions o.debug i state rules)
  let i ← complete i
  return { file := i.declarations.file, tokens, literals, states := i.states
           rules := withInitial i.states ⟨rules⟩, ignored := i.ignored, handlers := i.handlers
           checked := o.checked }

def build (o : ScannerOptions) (d : Declarations) : Work Scanner := do
  let i ← scannerInfo d
  if o.checked then i.check
  make o i

end PolicyFormat.Scanner
