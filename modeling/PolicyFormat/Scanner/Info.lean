import PolicyFormat.Builder.ParserInfo
import PolicyFormat.Scanner.RuleName

/-!
What declarations say about a scanner: tokens, literals, states and rules.
-/
namespace PolicyFormat.Scanner

open Builder

/-- Whether a state has the rules of the initial state too. -/
inductive StateKind where
  | inclusive
  | exclusive
deriving Repr, BEq

def StateKind.name : StateKind → String
  | .inclusive => "inclusive"
  | .exclusive => "exclusive"

def StateKind.ofDatum? (d : Datum) : Option StateKind :=
  [StateKind.inclusive, .exclusive].find? (fun kind => d == .text kind.name)

/-- The rules of a state, in the order in which they are tried. -/
structure StateRules where
  routines : List (String × Routine) := []
  texts : List (String × String) := []

/-- The parts of a scanner, as they are declared. -/
structure ScannerInfo where
  declarations : Declarations
  tokens : List Datum := []
  literals : Datum := .text ""
  states : Keyed String StateKind := ⟨[(initialState, .inclusive)]⟩
  /-- The kind of token of each rule. -/
  kinds : Keyed String String := {}
  rules : Keyed String StateRules := {}
  /-- The characters that are skipped in a state. -/
  ignored : Keyed String String := {}
  /-- The routines that are called where no rule fits. -/
  handlers : Keyed String (Option Routine) := {}

/-- The declared tokens. Without any, the scanner has none. -/
def scannerTokens (d : Declarations) : Work (List Datum) := do
  match d.given? "tokens" with
  | none =>
    Work.error "No token list is defined"
    return []
  | some (.value (.list tokens)) => return tokens
  | some (.value (.tuple tokens)) => return tokens
  | _ =>
    Work.error "tokens must be a list or tuple"
    return []

def addState (states : Keyed String StateKind) (declared : Datum) : Work (Keyed String StateKind) := do
  match declared with
  | .tuple [name, kind] =>
    match name with
    | .text name =>
      match StateKind.ofDatum? kind with
      | none =>
        Work.error ("State type for state " ++ name ++ " must be 'inclusive' or 'exclusive'")
        return states
      | some kind =>
        if states.contains name then
          Work.error ("State '" ++ name ++ "' already defined")
          return states
        else return states.put name kind
    | _ =>
      Work.error ("State name " ++ name.shown ++ " must be a string")
      return states
  | _ =>
    Work.error ("Invalid state specifier " ++ declared.shown
      ++ ". Must be a tuple (statename,'exclusive|inclusive')")
    return states

def scannerStates (d : Declarations) (start : Keyed String StateKind) : Work (Keyed String StateKind) := do
  match d.given? "states" with
  | none => return start
  | some (.value (.list states)) => states.foldlM addState start
  | some (.value (.tuple states)) => states.foldlM addState start
  | some _ =>
    Work.error "states must be defined as a tuple or list"
    return start

namespace ScannerInfo

def placeAt (i : ScannerInfo) (line : Int) : String :=
  Place.text ⟨i.declarations.file, line⟩

def addRule (i : ScannerInfo) (states : List String) (f : StateRules → StateRules) : ScannerInfo :=
  { i with rules := states.foldl (fun rules s => rules.update s {} f) i.rules }

/-- Adds a routine that is declared as a rule. -/
def addRoutine (i : ScannerInfo) (name : String) (r : Routine) (states : List String) (kind : String) :
    Work ScannerInfo := do
  match kind with
  | "error" => return { i with handlers := states.foldl (fun hs s => hs.put s (some r)) i.handlers }
  | "ignore" =>
    Work.error (i.placeAt r.line ++ ": Rule '" ++ r.name ++ "' must be defined as a string")
    return i
  | _ => return i.addRule states (fun rules => { rules with routines := rules.routines ++ [(name, r)] })

/-- Adds a text that is declared as a rule. -/
def addText (i : ScannerInfo) (name text : String) (states : List String) (kind : String) :
    Work ScannerInfo := do
  match kind with
  | "ignore" =>
    if text.toList.contains '\\' then
      Work.warn (name ++ " contains a literal backslash '\\'")
    return { i with ignored := states.foldl (fun all s => all.put s text) i.ignored }
  | "error" =>
    Work.error ("Rule '" ++ name ++ "' must be defined as a function")
    return i
  | _ => return i.addRule states (fun rules => { rules with texts := rules.texts ++ [(name, text)] })

/-- Adds what is declared under the name of a rule. -/
def addDeclared (i : ScannerInfo) (entry : String × Declared) : Work ScannerInfo := do
  let (name, declared) := entry
  match ruleName? name i.states.keys with
  | none => return i
  | some (states, kind) =>
    let i := { i with kinds := i.kinds.put name kind }
    match declared with
    | .routine r => i.addRoutine name r states kind
    | .value (.text text) => i.addText name text states kind
    | .value _ =>
      Work.error (name ++ " not defined as a function or string")
      return i

/-- Routines come in the order of their lines, and texts with the longest first. -/
def sortRules (rules : StateRules) : StateRules :=
  { routines := rules.routines.mergeSort (fun a b => a.2.line ≤ b.2.line)
    texts := rules.texts.mergeSort (fun a b => b.2.length ≤ a.2.length) }

def collectRules (i : ScannerInfo) : Work ScannerInfo := do
  let i := { i with rules := ⟨i.states.keys.map (fun s => (s, {}))⟩ }
  let found := i.declarations.entries.filter (fun e => e.1.startsWith "t_")
  if found.isEmpty then
    Work.error "No rules of the form t_rulename are defined"
    return i
  let i ← found.foldlM addDeclared i
  return { i with rules := i.rules.map sortRules }

end ScannerInfo

def scannerInfo (d : Declarations) : Work ScannerInfo := do
  let tokens ← scannerTokens d
  let literals := match d.given? "literals" with
    | some (.value v) => v
    | _ => .text ""
  let info : ScannerInfo := { declarations := d, tokens, literals }
  let states ← scannerStates d info.states
  { info with states }.collectRules

end PolicyFormat.Scanner
