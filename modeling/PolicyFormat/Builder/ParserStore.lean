import PolicyFormat.Builder.Parser
import PolicyFormat.Builder.StoredTable

/-!
Parsers whose tables are kept in files. A table that is there and fits the declarations is used again, and
otherwise a new one is made and kept.
-/
namespace PolicyFormat.Builder

open Text

/-- Where and how tables are kept. -/
structure Storage where
  module : String
  directory : String := ""
  /-- The file of a packed table. Without one, tables are kept as source text. -/
  packed : Option String := none
  /-- A table that is there counts as fitting. -/
  trusting : Bool := false

/-- A parser with a new table, or with one that was kept. -/
inductive BuiltParser where
  | generated (g : Generated)
  | stored (t : StoredTable)

namespace BuiltParser

def actions : BuiltParser → List (Keyed String Lr.Action)
  | .generated g => g.table.actions.toList
  | .stored t => t.actions.map (·.2)

/-- The targets of the states that are there. -/
def gotos : BuiltParser → List (Keyed String Nat)
  | .generated g => g.table.gotos.toList
  | .stored t => t.gotos.map (·.2)

def productions : BuiltParser → List String
  | .generated g => g.grammar.productions.map (·.text)
  | .stored t => t.productions.map (·.text)

/-- The productions as they are shown, which tells whether they were kept. -/
def shownProductions (p : BuiltParser) : List String :=
  let word := match p with
    | .generated _ => "Production"
    | .stored _ => "MiniProduction"
  p.productions.map (fun text => word ++ "(" ++ text ++ ")")

end BuiltParser

/-- The name of a file in the working directory, if the path leads to one. There are no other directories. -/
def localName? (path : String) : Option String :=
  match (path.splitOn "/").filter (· != ".") with
  | [name] => some name
  | _ => none

def Storage.load (s : Storage) (files : Keyed String String) : Loaded :=
  let text (path : String) : Option String := (localName? path).bind files.get?
  match s.packed with
  | some file => ((text file).map StoredTable.ofPacked).getD .nothing
  | none => ((text (Lr.tableFileName "" s.module)).map StoredTable.ofSource).getD .nothing

def StoredTable.undeclared? (t : StoredTable) (d : Declarations) : Option String :=
  (t.productions.filterMap (·.action)).find? (fun name => (d.get? name).isNone)

def useLoaded (p : ParserInfo) (trusting : Bool) : Loaded → Work (Option StoredTable)
  | .nothing => return none
  | .outdated => do
    Work.warn "VersionError"
    return none
  | .table t => do
    if !(trusting || t.signature == p.signature) then return none
    match t.undeclared? p.declarations with
    | none => return some t
    | some name =>
      Work.warn ("There was a problem loading the table file: KeyError(" ++ quote name ++ ")")
      return none

def Storage.keep (s : Storage) (signature : String) (g : Generated) : Work Unit := do
  let productions := g.grammar.productions
  match s.packed with
  | some file =>
    match localName? file with
    | some name => Work.putFile name (StoredTable.pack g.table productions signature)
    | none => throw .noDirectory
  | none =>
    let file := Lr.tableFileName s.directory s.module
    match localName? file with
    | some name => Work.putFile name (g.table.fileText productions file signature)
    | none =>
      Work.write ("Unable to create " ++ quote file ++ "\n")
      Work.write ("[Errno 2] No such file or directory: " ++ quote file ++ "\n")

def debugFile : String := "parser.out"

/-- Builds a parser, with the table that is kept if it fits. -/
def storedParser (o : ParserOptions) (s : Storage) (d : Declarations) : Work BuiltParser := do
  let p ← parserInfo d
  match ← useLoaded p s.trusting (s.load (← get).files) with
  | some t => return .stored t
  | none =>
    if o.debug then Work.putFile debugFile ""
    let g ← generate o p
    s.keep p.signature g
    return .generated g

/-- Builds a parser among files. The files are there also after a failure. -/
def buildStoredParser (o : ParserOptions) (s : Storage) (d : Declarations)
    (files : Keyed String String) : Except BuildFailure BuiltParser × Workshop :=
  let (result, w) := (storedParser o s d).run.run { files }
  let files := if w.debug.isEmpty then w.files else w.files.put debugFile (logText w.debug.reverse)
  (result, { w with files })

end PolicyFormat.Builder
