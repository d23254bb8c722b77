import PolicyFormat.Builder.Step
import PolicyFormat.Text.Blank
import PolicyFormat.Keyed

/-!
The declarations from which a parser or scanner is built: routines and data under names, in the order of the
names, and the text in which they are written.
-/
namespace PolicyFormat.Builder

/-- A declared routine: the line of its definition, its description, which holds grammar rules or a regular
expression, the number of its arguments, and what it does if it is a scanner's routine. -/
structure Routine where
  name : String
  line : Int
  description : Option String := none
  arguments : Int := 1
  steps : List Step := []
deriving Repr, BEq

/-- Routines in their order, where some get the description of an earlier routine, which is named beside
them. -/
def lendDescriptions (all : List (Routine × Option String)) : List Routine :=
  all.foldl (fun done (r, lender) =>
    done ++ [match lender with
      | none => r
      | some name => { r with description := (done.find? (·.name == name)).bind (·.description) }]) []

/-- What is declared under a name. -/
inductive Declared where
  | routine (r : Routine)
  | value (d : Datum)
deriving Repr, BEq

/-- Declarations, with the name and the text of their file. -/
structure Declarations where
  file : String
  source : String := "#"
  entries : List (String × Declared) := []
deriving Repr

namespace Declarations

/-- Declarations in the order of their names. Of two under one name the later one counts. -/
def ofList (file source : String) (entries : List (String × Declared)) : Declarations :=
  { file, source
    entries := (Keyed.ofList entries).entries.mergeSort (fun a b => !decide (b.1 < a.1)) }

def get? (d : Declarations) (name : String) : Option Declared :=
  d.entries.lookup name

/-- The data under a name. A routine is no data. -/
def datum (d : Declarations) (name : String) : Datum :=
  match d.get? name with
  | some (.value v) => v
  | _ => .nothing

def routines (d : Declarations) : List (String × Routine) :=
  d.entries.filterMap fun
    | (name, .routine r) => some (name, r)
    | _ => none

end Declarations

/-- A name that is defined more than once in a source text. -/
structure Redefinition where
  name : String
  line : Nat
  previous : Nat
deriving Repr, BEq

/-- Finds names that are defined again. `definedOn` gives the name that a line defines. -/
def redefinitions (definedOn : List Char → Option String) : Nat → List (String × Nat) → List String →
    List Redefinition
  | _, _, [] => []
  | line, known, text :: rest =>
    match definedOn text.toList with
    | none => redefinitions definedOn (line + 1) known rest
    | some name =>
      match known.lookup name with
      | some previous => ⟨name, line, previous⟩ :: redefinitions definedOn (line + 1) known rest
      | none => redefinitions definedOn (line + 1) ((name, line) :: known) rest

def afterWord (word : String) (cs : List Char) : Option (List Char) :=
  if word.toList.isPrefixOf cs then some (cs.drop word.length) else none

/-- The name with a given beginning at the start of a text, and the rest. -/
def nameAt (start : String) (cs : List Char) : Option (String × List Char) :=
  (afterWord start cs).map fun rest =>
    let more := rest.takeWhile (fun c => c.isAlphanum || c == '_')
    (start ++ String.ofList more, rest.drop more.length)

def routineOn (start : String) (cs : List Char) : Option String := do
  let rest ← afterWord "def" (cs.dropWhile Text.isBlank)
  let stripped := rest.dropWhile Text.isBlank
  if stripped.length == rest.length then none
  else
    match ← nameAt start stripped with
    | (name, '(' :: _) => some name
    | _ => none

def settingOn (start : String) (cs : List Char) : Option String := do
  match ← nameAt start (cs.dropWhile Text.isBlank) with
  | (name, rest) =>
    match rest.dropWhile Text.isBlank with
    | '=' :: _ => some name
    | _ => none

end PolicyFormat.Builder
