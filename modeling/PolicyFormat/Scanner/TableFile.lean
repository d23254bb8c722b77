import PolicyFormat.Datum.Reader
import PolicyFormat.Lr.TableFile
import PolicyFormat.Scanner.Build

/-!
Scanners that are kept in files, with their expressions already joined.
-/
namespace PolicyFormat.Scanner

open Builder

def fileVersion : String := "3.5"

/-- What is done for a group, as data: the name of a routine and the kind of token. -/
def foundDatum : Option Found → Datum
  | none => .nothing
  | some found =>
    let kind := (found.kind.map Datum.text).getD .nothing
    .tuple [(found.routine.map (fun r => Datum.text r.name)).getD .nothing, kind]

def fileText (s : Scanner) (module : String) : String :=
  let tokens := String.intercalate ", " (s.tokens.map (fun t => t.shown ++ ": 1"))
  let rules := (s.rules.map (fun all => Datum.list (all.map (fun a =>
    .tuple [.text a.written, .list (a.found.map foundDatum)])))).entries
  let handlers := (s.handlers.map (fun h => (h.map (fun r => Datum.text r.name)).getD .nothing)).entries
  String.join
    [ "# " ++ module ++ ".py. This file automatically created by PLY (version " ++ fileVersion ++ "). Don't edit!\n"
    , "_tabversion   = " ++ (Datum.text fileVersion).shown ++ "\n"
    , "_lextokens    = \x7b" ++ tokens ++ "\x7d\n"
    , "_lexreflags   = 0\n"
    , "_lexliterals  = " ++ s.literals.shown ++ "\n"
    , "_lexstateinfo = " ++ (Datum.record (s.states.map (fun k => Datum.text k.name)).entries).shown ++ "\n"
    , "_lexstatere   = " ++ (Datum.record rules).shown ++ "\n"
    , "_lexstateignore = " ++ (Datum.record (s.ignored.map Datum.text).entries).shown ++ "\n"
    , "_lexstateerrorf = " ++ (Datum.record handlers).shown ++ "\n" ]

def declaredRoutine (d : Declarations) (name : Datum) : Except BuildFailure Routine :=
  match name.text?.bind d.get? with
  | some (.routine r) => .ok r
  | _ => .error .undeclaredRoutine

/-- What is done for a group, from data. -/
def foundOf (d : Declarations) (entry : Datum) : Except BuildFailure (Option Found) :=
  match entry.items? with
  | some [name, kind] => do
    let routine ← if name.isGiven then some <$> declaredRoutine d name else pure none
    return some { routine, kind := kind.text? }
  | _ => return none

/-- An expression from data. -/
def alternativesOf (d : Declarations) (entry : Datum) : Except BuildFailure Alternatives := do
  match entry.items? with
  | some [.text written, found] =>
    match Expression.read written with
    | .ok e =>
      return { written, pattern := e.pattern, found := ← (found.items?.getD []).mapM (foundOf d) }
    | .error _ => throw .badExpression
  | _ => throw .badExpression

/-- Reads a scanner back from its file. There is none if the file was made by another version. -/
def ofFile (d : Declarations) (text : String) : Except BuildFailure (Option Scanner) := do
  let all := Datum.assignments text
  let get (name : String) : Datum := (all.lookup name).getD .nothing
  let fields (name : String) : List (String × Datum) := (get name).fields?.getD []
  if get "_tabversion" != .text fileVersion then return none
  let rules ← (fields "_lexstatere").mapM fun (state, entries) => do
    return (state, ← (entries.items?.getD []).mapM (alternativesOf d))
  let handlers ← (fields "_lexstateerrorf").mapM fun (state, name) => do
    return (state, some (← declaredRoutine d name))
  return some
    { file := d.file
      tokens := (fields "_lextokens").map (fun (name, _) => .text name)
      literals := get "_lexliterals"
      states := ⟨(fields "_lexstateinfo").filterMap (fun (state, kind) =>
        (StateKind.ofDatum? kind).map (fun kind => (state, kind)))⟩
      rules := ⟨rules⟩
      ignored := ⟨(fields "_lexstateignore").map (fun (state, text) => (state, text.text?.getD ""))⟩
      handlers := ⟨handlers⟩
      checked := false }

/-- Builds a scanner under the name of a module. It is read back from the text that is loaded, or else from
its file. If that is not possible it is made from the declarations, which are not checked, and kept in its
file, unless a text is loaded. -/
def buildKept (module : String) (loaded : Option String) (d : Declarations) : Work Scanner := do
  let i ← scannerInfo d
  let file := Lr.tableFileName "" module
  let files := (← get).files
  let text := loaded.orElse (fun _ => files.get? file)
  match (← text.mapM (fun text => Work.ofExcept (ofFile d text))).join with
  | some s => return s
  | none =>
    let s ← make { checked := false } i
    if loaded.isNone then Work.putFile file (s.fileText module)
    return s

end PolicyFormat.Scanner
