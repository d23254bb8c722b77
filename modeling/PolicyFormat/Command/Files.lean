/-!
A directory tree as a value: which files there are and what they hold. A path is the list of its
parts; a path from the root of the machine starts with `/`.
-/
namespace PolicyFormat.Command

/-- Directories that exist although nothing may be in them, and files with their texts. -/
structure Files where
  directories : List (List String) := []
  entries : List (List String × String) := []
deriving Repr, DecidableEq

/-- What a path written by a user leads to. -/
inductive Lookup where
  | directory (path : List String)
  | file (path : List String)
  | absent (path : List String)
  | noParent
  | throughFile
deriving Repr, DecidableEq

/-- Why a file cannot be written. -/
inductive FileError where
  | notFound
  | isDirectory
  | notDirectory
deriving Repr, DecidableEq

namespace Files

/-- The parts of a path below the directory that the command runs in. -/
def parts (path : String) : List String :=
  (path.splitOn "/").filter (fun part => !part.isEmpty && part != ".")

def ofPaths (directories : List String) (files : List (String × String)) : Files :=
  { directories := directories.map parts, entries := files.map (fun (path, text) => (parts path, text)) }

def paths (fs : Files) : List (String × String) :=
  fs.entries.map (fun (path, text) => (String.intercalate "/" path, text))

/-- The path is a directory: the one that the command runs in, one that was made, or one that a
file or a directory is below. -/
def isDirectory (fs : Files) (path : List String) : Bool :=
  path.isEmpty || fs.directories.any path.isPrefixOf
    || fs.entries.any (fun (file, _) => path.isPrefixOf file && path != file)

def text? (fs : Files) (path : List String) : Option String :=
  fs.entries.lookup path

/-- Follows the parts of a path from a directory. A dot stays, two dots go up, and any other part
goes down, if what it starts from is a directory. -/
def follow (fs : Files) (current : List String) : List String → Lookup
  | [] =>
    if fs.isDirectory current then .directory current
    else if (fs.text? current).isSome then .file current
    else .absent current
  | part :: rest =>
    if !fs.isDirectory current then
      if (fs.text? current).isSome then .throughFile else .noParent
    else if part.isEmpty || part == "." then follow fs current rest
    else if part == ".." then follow fs current.dropLast rest
    else follow fs (current ++ [part]) rest

/-- What a path leads to. The empty path leads nowhere. -/
def lookup (fs : Files) (path : String) : Lookup :=
  if path.isEmpty then .noParent
  else if path.startsWith "/" then fs.follow ["/"] (path.splitOn "/")
  else fs.follow [] (path.splitOn "/")

/-- The path that a written path leads to if all parts before the last are directories. -/
def target (path : String) : List String :=
  (path.splitOn "/").foldl (fun current part =>
    if part.isEmpty || part == "." then current
    else if part == ".." then current.dropLast
    else current ++ [part]) (if path.startsWith "/" then ["/"] else [])

def put (fs : Files) (path : List String) (text : String) : Files :=
  if fs.entries.any (·.1 == path) then
    { fs with entries := fs.entries.map (fun (p, old) => (p, if p == path then text else old)) }
  else { fs with entries := fs.entries ++ [(path, text)] }

/-- Writes a text to the file at a path. A path that ends with a slash can only be a directory. -/
def write (fs : Files) (path text : String) : Except FileError Files :=
  match fs.lookup path with
  | .directory _ => .error .isDirectory
  | .file target => .ok (fs.put target text)
  | .absent target => .ok (fs.put target text)
  | .noParent => if path.endsWith "/" then .error .isDirectory else .error .notFound
  | .throughFile => .error .notDirectory

/-- A name below a path that a user wrote. -/
def joinPath (path : String) (parts : List String) : String :=
  let start := if path.endsWith "/" then path else path ++ "/"
  start ++ String.intercalate "/" parts

/-- The policy files below a directory, as paths that start with how the user wrote it. -/
def policyFiles (fs : Files) (written : String) (directory : List String) : List String :=
  let below := fs.entries.filterMap fun (path, _) =>
    if directory.isPrefixOf path then some (path.drop directory.length) else none
  let policies := below.filter (fun parts => (parts.getLast?.getD "").endsWith ".cf")
  (policies.map (joinPath written)).mergeSort (· ≤ ·)

end Files

end PolicyFormat.Command
