import PolicyFormat.Command.Run

/-!
The command line. The files that the arguments lead to are read first, the command runs on them as a value,
and the files that it changed are written.
-/
namespace PolicyFormat.Main

open Command

/-- A file or directory with the path under which it is read and written. -/
structure Located where
  path : String
  parts : List String

/-- What was found: the files as a value, and where they are. -/
structure Snapshot where
  files : Files := {}
  located : List Located := []

namespace Snapshot

def addDirectory (s : Snapshot) (l : Located) : Snapshot :=
  { s with files := { s.files with directories := s.files.directories ++ [l.parts] } }

def addFile (s : Snapshot) (l : Located) (text : String) : Snapshot :=
  { files := s.files.put l.parts text, located := s.located ++ [l] }

/-- The path under which a file is written. -/
def pathOf (s : Snapshot) (parts : List String) : String :=
  match s.located.find? (·.parts == parts) with
  | some l => l.path
  | none => String.intercalate "/" parts

end Snapshot

/-- Reads a file, or a directory with everything below it. -/
partial def collect (s : Snapshot) (l : Located) : IO Snapshot := do
  let place := (← IO.currentDir) / l.path
  if ← place.isDir then
    let mut s := s.addDirectory l
    for entry in ← place.readDir do
      s ← collect s { path := l.path ++ "/" ++ entry.fileName, parts := l.parts ++ [entry.fileName] }
    return s
  else if ← place.pathExists then return s.addFile l (← IO.FS.readFile place)
  else return s

/-- Reads what the paths of the arguments lead to. The directory of the output file is needed too, but not
what is in it. -/
def snapshot (arguments : Arguments) : IO Snapshot := do
  let mut s : Snapshot := {}
  for path in arguments.paths do
    if !path.isEmpty then s ← collect s { path, parts := Files.target path }
  if let some path := arguments.out then
    let l : Located := { path, parts := Files.target path }
    let place := (← IO.currentDir) / path
    if ← place.isDir then s := s.addDirectory l
    else
      if let some parent := place.parent then
        if ← parent.isDir then s := s.addDirectory { path, parts := l.parts.dropLast }
      s := { s with located := s.located ++ [l] }
  return s

def writeBack (s : Snapshot) (after : Files) : IO Unit := do
  for (parts, text) in after.entries do
    if s.files.text? parts != some text then
      IO.FS.writeFile ((← IO.currentDir) / s.pathOf parts) text

/-- Runs the command on the files. -/
def runOn (arguments : List String) (s : Snapshot) (stdin : String) : IO UInt32 := do
  let (runEnd, world) := Command.run arguments { files := s.files, stdin }
  writeBack s world.files
  (← IO.getStdout).putStr world.stdout
  match runEnd with
  | .exit code => return code.toUInt32
  | .complaint complaint =>
    IO.eprintln (String.intercalate "\n" usageLines)
    IO.eprintln ("cf-beautify: error: " ++ complaint.message)
    return 2
  | .broken error =>
    IO.eprintln error.message
    return 1

/-- Reads the standard input to its end. -/
partial def readAll (stream : IO.FS.Stream) (before : String := "") : IO String := do
  let line ← stream.getLine
  if line.isEmpty then return before else readAll stream (before ++ line)

end PolicyFormat.Main

open PolicyFormat PolicyFormat.Main in
/-- Beautifies the files that the arguments name, or else the standard input. -/
def main (arguments : List String) : IO UInt32 := do
  match Command.Arguments.ofList arguments with
  | .error _ => runOn arguments {} ""
  | .ok parsed =>
    let s ← snapshot parsed
    let stdin ← if Command.readsInput parsed s.files then readAll (← IO.getStdin) else pure ""
    runOn arguments s stdin
