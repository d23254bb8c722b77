import PolicyFormat.Builder.Declarations
import PolicyFormat.Builder.Log
import PolicyFormat.Lr.Table
import PolicyFormat.Text.Format

/-!
The setting in which parsers and scanners are built: two logs, what is written beside them, and the files of the working
directory.
-/
namespace PolicyFormat.Builder

/-- Why no parser or scanner was built. -/
inductive BuildFailure where
  /-- There were errors, which are in the log. -/
  | unable
  | table (e : Lr.TableError)
  /-- The start symbol is no text. -/
  | startNotText
  | noRules
  /-- A token that cannot be a name. -/
  | badToken
  /-- Tokens of different kinds, which have no order. -/
  | unsortable
  | format (f : Text.FormatFault)
  | noSource
  | noDirectory
  /-- There were errors in the declarations of a scanner, which are in the log. -/
  | unableToScan
  /-- A state of a scanner has no rules. -/
  | noExpressions
  /-- A single rule of a scanner gives no expression. -/
  | badExpression
  /-- A kept scanner has a routine that is not declared. -/
  | undeclaredRoutine
  /-- The first literal is no text. -/
  | literalsNotText
  /-- A later literal is no text. -/
  | literalNotText
deriving Repr, BEq

/-- The logs with the last message first, what was written beside them, and the files. -/
structure Workshop where
  errors : List Message := []
  debug : List Message := []
  /-- The messages of both logs. -/
  all : List Message := []
  written : List String := []
  files : Keyed String String := {}

def Workshop.errorText (w : Workshop) : String := logText w.errors.reverse

def Workshop.debugText (w : Workshop) : String := logText w.debug.reverse

def Workshop.allText (w : Workshop) : String := logText w.all.reverse

/-- Building steps. What was logged and written before a failure stays. -/
abbrev Work := ExceptT BuildFailure (StateM Workshop)

namespace Work

/-- Adds to the error log. -/
def say (level : Level) (text : String) : Work Unit :=
  modify (fun w => { w with errors := ⟨level, text⟩ :: w.errors, all := ⟨level, text⟩ :: w.all })

def error (text : String) : Work Unit := say .error text

/-- Adds a warning to the error log. -/
def warn (text : String) : Work Unit := say .warning text

def errorAsFormat (text : String) : Work Unit := do
  match Text.withoutFilling text with
  | .ok text => error text
  | .error f => throw (.format f)

/-- Adds to the debugging log, if there is one. -/
def note (debug : Bool) (text : String) (level : Level := .info) : Work Unit :=
  if debug then modify (fun w => { w with debug := ⟨level, text⟩ :: w.debug, all := ⟨level, text⟩ :: w.all })
  else return

def write (text : String) : Work Unit :=
  modify (fun w => { w with written := text :: w.written })

def putFile (name text : String) : Work Unit :=
  modify (fun w => { w with files := w.files.put name text })

def ofExcept {α : Type} : Except BuildFailure α → Work α
  | .ok a => return a
  | .error e => throw e

end Work

end PolicyFormat.Builder
