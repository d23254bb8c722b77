import PolicyFormat.Beautify
import PolicyFormat.Command.Arguments
import PolicyFormat.Command.Files
import PolicyFormat.Command.Help
import PolicyFormat.Text.Color

/-!
What the command does to a directory tree. Files are written as they are processed, so a failure
leaves the files before it beautified.
-/
namespace PolicyFormat.Command

/-- Why a run breaks off. -/
inductive RunError where
  | refused (failure : Failure)
  | file (error : FileError)
deriving Repr, DecidableEq

/-- What is wrong, for a user. -/
def RunError.message : RunError → String
  | .refused (.syntaxError e) => e.message
  | .refused (.layout _) => "The text has no layout"
  | .file .notFound => "No such file or directory"
  | .file .isDirectory => "Is a directory"
  | .file .notDirectory => "Not a directory"

/-- How a run ends: with an exit code, with a complaint about the arguments, or broken off. -/
inductive RunEnd where
  | exit (code : Nat)
  | complaint (complaint : Complaint)
  | broken (error : RunError)
deriving Repr, DecidableEq

/-- What the command reads and writes. -/
structure World where
  files : Files
  stdin : String := ""
  stdout : String := ""
deriving Repr, DecidableEq

/-- A step of a run. It may end the run. -/
abbrev Run (α : Type) := ExceptT RunEnd (StateM World) α

/-- The exit code of a run that cannot do what it was asked for. -/
def refusalCode : Nat := 255

/-- A text as it is read from a stream. -/
def readText (stored : String) : String :=
  String.ofList (Text.unifyLineEnds stored.toList)

/-- A text as it is read from a file, without the mark at its start. -/
def readFileText (stored : String) : String :=
  match stored.toList with
  | '\ufeff' :: rest => String.ofList (Text.unifyLineEnds rest)
  | cs => String.ofList (Text.unifyLineEnds cs)

namespace Run

/-- Shows a text. -/
def emit (text : String) : Run Unit :=
  modify fun w => { w with stdout := w.stdout ++ text }

/-- Shows a text to a user who wants to know more. -/
def tell (arguments : Arguments) (text : String) : Run Unit := do
  if arguments.verbosity != 0 then emit text

/-- Ends the run with a message. -/
def giveUp {α : Type} (message : String) : Run α := do
  emit (message ++ "\n")
  throw (.exit refusalCode)

/-- Writes to the file that is asked for, or else to the standard output. -/
def write (path : Option String) (text : String) : Run Unit := do
  match path.filter (fun p => !p.isEmpty) with
  | none => emit text
  | some path =>
    let w ← get
    match w.files.write path text with
    | .ok files => set { w with files }
    | .error error => throw (.broken (.file error))

/-- The files that a path stands for. -/
def expand (path : String) : Run (List String) := do
  let w ← get
  match w.files.lookup path with
  | .directory directory => return w.files.policyFiles path directory
  | .file _ => return [path]
  | _ => giveUp ("Cannot find file '" ++ path ++ "'")

/-- The options that the arguments stand for. -/
def options (arguments : Arguments) : Run Options := do
  let lineEnding ←
    match arguments.lineEndings.filter (fun e => !e.isEmpty) with
    | none => pure none
    | some "windows" => pure (some "\r\n")
    | some "unix" => pure (some "\n")
    | some "detect" => pure none
    | some other => giveUp ("Invalid line endings: '" ++ other ++ "'")
  return {
    pageWidth := (arguments.pageWidth.filter (· != 0)).getD 100
    tidying := {
      removesEmptyPromiseTypes := !arguments.keepEmpty
      sortsPromiseTypes := !arguments.keepOrder }
    lineEnding }

/-- Beautifies a text. -/
def beautified (options : Options) (text : String) : Run String :=
  match beautify options text with
  | .ok text => return text
  | .error failure => throw (.broken (.refused failure))

/-- The output goes elsewhere than to the file that was read. -/
def isRedirected (arguments : Arguments) : Bool :=
  arguments.stdout || arguments.out.any (fun p => !p.isEmpty)

/-- Beautifies a file. In place, a file that is beautiful already is not written. -/
def process (arguments : Arguments) (options : Options) (path : String) : Run Unit := do
  tell arguments ("Processing... " ++ path)
  let w ← get
  let stored :=
    match w.files.lookup path with
    | .file target => (w.files.text? target).getD ""
    | _ => ""
  let input := readFileText stored
  let output ← beautified options input
  if isRedirected arguments then write arguments.out output
  else if input != output then
    tell arguments (Text.green " -> Beautified" ++ "\n")
    write (some path) output
  else tell arguments "\n"

/-- The work of the command. Without files, the standard input is beautified. -/
def command (arguments : Arguments) : Run Unit := do
  let paths := (← arguments.paths.mapM expand).flatten
  if arguments.out.any (fun p => !p.isEmpty) && 1 < paths.length then
    giveUp "output_path with multiple input paths is not supported."
  let options ← options arguments
  if paths.isEmpty then
    let output ← beautified options (readText (← get).stdin)
    write arguments.out output
  for path in paths do process arguments options path

end Run

/-- The command beautifies its standard input: no path leads to a file. -/
def readsInput (arguments : Arguments) (files : Files) : Bool :=
  match (arguments.paths.mapM Run.expand).run.run { files } with
  | (.ok paths, _) => paths.flatten.isEmpty
  | (.error _, _) => false

/-- Runs the command. -/
def run (arguments : List String) (world : World) : RunEnd × World :=
  match Arguments.ofList arguments with
  | .error (.complaint complaint) => (.complaint complaint, world)
  | .error .help => (.exit 0, { world with stdout := world.stdout ++ helpText })
  | .ok arguments =>
    match (Run.command arguments).run.run world with
    | (.ok (), world) => (.exit 0, world)
    | (.error runEnd, world) => (runEnd, world)

end PolicyFormat.Command
