import PolicyFormat.Text.Integer
import PolicyFormat.Text.Quoted

/-!
The arguments of the command line. Options and paths may be mixed, but all paths stand together;
`--` ends the options, a long option may be cut short as long as it stays unique, short options
can be written together, and a value may follow its option directly or after an equals sign.
-/
namespace PolicyFormat.Command

/-- The options without a value. -/
inductive Flag where
  | help
  | verbose
  | stdout
  | keepEmpty
  | keepOrder
deriving Repr, DecidableEq

/-- The options with a value. -/
inductive Setting where
  | out
  | pageWidth
  | lineEndings
deriving Repr, DecidableEq

/-- What an option is. -/
inductive Switch where
  | flag (flag : Flag)
  | setting (setting : Setting)
deriving Repr, DecidableEq

def spellings : List (String × Switch) :=
  [("-h", .flag .help), ("--help", .flag .help), ("-v", .flag .verbose),
   ("-o", .setting .out), ("--out", .setting .out), ("--stdout", .flag .stdout),
   ("-c", .flag .keepEmpty), ("--keep-empty", .flag .keepEmpty),
   ("-n", .flag .keepOrder), ("--keep-order", .flag .keepOrder),
   ("-p", .setting .pageWidth), ("--page-width", .setting .pageWidth),
   ("-l", .setting .lineEndings), ("--line-endings", .setting .lineEndings)]

/-- An option as messages call it: all its spellings. -/
def Switch.name (s : Switch) : String :=
  String.intercalate "/" ((spellings.filter (·.2 = s)).map (·.1))

/-- What the arguments ask for. -/
structure Arguments where
  paths : List String := []
  out : Option String := none
  stdout : Bool := false
  keepEmpty : Bool := false
  keepOrder : Bool := false
  pageWidth : Option Int := none
  lineEndings : Option String := none
  verbosity : Nat := 0
deriving Repr, DecidableEq

/-- What is wrong with the arguments. -/
inductive Complaint where
  | invalidWidth (value : String)
  | missingValue (setting : Setting)
  | unneededValue (flag : Flag) (value : String)
  | ambiguous (option : String) (matching : List String)
  | unrecognized (arguments : List String)
deriving Repr, DecidableEq

def Complaint.message : Complaint → String
  | .invalidWidth value =>
    "argument " ++ (Switch.setting .pageWidth).name ++ ": invalid int value: " ++ Text.quote value
  | .missingValue setting =>
    "argument " ++ (Switch.setting setting).name ++ ": expected one argument"
  | .unneededValue flag value =>
    "argument " ++ (Switch.flag flag).name ++ ": ignored explicit argument " ++ Text.quote value
  | .ambiguous option matching =>
    "ambiguous option: " ++ option ++ " could match " ++ String.intercalate ", " matching
  | .unrecognized arguments => "unrecognized arguments: " ++ String.intercalate " " arguments

/-- How the reading of arguments ends if not with arguments. -/
inductive Interruption where
  | complaint (complaint : Complaint)
  | help
deriving Repr, DecidableEq

/-- What an argument is by its form. An option may have a value attached, with an equals sign or
without. -/
inductive Form where
  | plain
  | separator
  | option (spelling : String) (switch : Switch) (equals : Bool) (value : Option String)
  | unknown
deriving Repr, DecidableEq

def splitEquals (argument : List Char) : String × Option String :=
  let name := String.ofList (argument.takeWhile (· != '='))
  match argument.dropWhile (· != '=') with
  | [] => (name, none)
  | _ :: value => (name, some (String.ofList value))

def isNegativeNumber (argument : List Char) : Bool :=
  let cs := if argument.getLast? = some '\n' then argument.dropLast else argument
  match cs with
  | '-' :: rest =>
    let whole := rest.takeWhile Text.isDigit
    match rest.dropWhile Text.isDigit with
    | [] => !whole.isEmpty
    | '.' :: fraction => !fraction.isEmpty && fraction.all Text.isDigit
    | _ => false
  | _ => false

/-- The options that an argument with a dash may stand for. -/
def candidates (argument : List Char) : List Form :=
  match argument with
  | '-' :: '-' :: _ =>
    let (start, value) := splitEquals argument
    (spellings.filter (fun (spelling, _) => start.toList.isPrefixOf spelling.toList)).map
      (fun (spelling, switch) => .option spelling switch value.isSome value)
  | _ =>
    let short := String.ofList (argument.take 2)
    (spellings.filter (fun (spelling, _) => spelling == short)).map
      (fun (spelling, switch) =>
        .option spelling switch false (some (String.ofList (argument.drop 2))))

def classify (argument : String) : Except Interruption Form :=
  let cs := argument.toList
  match cs with
  | '-' :: _ :: _ =>
    match spellings.lookup argument, splitEquals cs with
    | some switch, _ => .ok (.option argument switch false none)
    | none, (name, value) =>
      match spellings.lookup name, value with
      | some switch, some value => .ok (.option name switch true (some value))
      | _, _ =>
        match candidates cs with
        | [form] => .ok form
        | [] => .ok (if isNegativeNumber cs || cs.contains ' ' then .plain else .unknown)
        | forms =>
          let names := forms.filterMap fun
            | .option spelling _ _ _ => some spelling
            | _ => none
          .error (.complaint (.ambiguous argument names))
  | _ => .ok .plain

def classifyAll : List String → Except Interruption (List (String × Form))
  | [] => .ok []
  | "--" :: rest => .ok (("--", .separator) :: rest.map (·, .plain))
  | argument :: rest => do
    let form ← classify argument
    return (argument, form) :: (← classifyAll rest)

def Arguments.setFlag (a : Arguments) : Flag → Except Interruption Arguments
  | .help => .error .help
  | .verbose => .ok { a with verbosity := a.verbosity + 1 }
  | .stdout => .ok { a with stdout := true }
  | .keepEmpty => .ok { a with keepEmpty := true }
  | .keepOrder => .ok { a with keepOrder := true }

def Arguments.setValue (a : Arguments) (value : String) : Setting → Except Interruption Arguments
  | .out => .ok { a with out := some value }
  | .lineEndings => .ok { a with lineEndings := some value }
  | .pageWidth =>
    match Text.integer? value with
    | some width => .ok { a with pageWidth := some width }
    | none => .error (.complaint (.invalidWidth value))

/-- What one argument switches on: flags, and at most one setting, whose value may still have to
follow; or flags and a rest that is no option. -/
structure Bunch where
  flags : List Flag := []
  setting : Option (Setting × Option String) := none
  unknown : Option String := none
deriving Repr, DecidableEq

/-- A short flag with text attached to it, which may be further short options. -/
def Bunch.ofShort (flag : Flag) : List Char → Except Interruption Bunch
  | [] => .ok { flags := [flag] }
  | '-' :: rest => .error (.complaint (.unneededValue flag (String.ofList ('-' :: rest))))
  | c :: rest =>
    match spellings.lookup (String.ofList ['-', c]), rest with
    | none, _ => .ok { flags := [flag], unknown := some (String.ofList ('-' :: c :: rest)) }
    | some (.setting setting), [] => .ok { flags := [flag], setting := some (setting, none) }
    | some (.setting setting), '=' :: value =>
      .ok { flags := [flag], setting := some (setting, some (String.ofList value)) }
    | some (.setting setting), value =>
      .ok { flags := [flag], setting := some (setting, some (String.ofList value)) }
    | some (.flag next), '=' :: value =>
      .error (.complaint (.unneededValue next (String.ofList value)))
    | some (.flag next), rest => do
      let more ← Bunch.ofShort next rest
      return { more with flags := flag :: more.flags }

/-- What an option stands for together with what is attached to it. Only short flags can have
something attached, and nothing after an equals sign. -/
def Bunch.ofOption (spelling : String) (switch : Switch) (equals : Bool) (value : Option String) :
    Except Interruption Bunch :=
  match switch, value with
  | .setting setting, _ => .ok { setting := some (setting, value) }
  | .flag flag, none => .ok { flags := [flag] }
  | .flag flag, some value =>
    if equals || value.isEmpty || spelling.length != 2 then
      .error (.complaint (.unneededValue flag value))
    else Bunch.ofShort flag value.toList

/-- The reading so far: what the arguments ask for, whether the paths have been read, and the
arguments that mean nothing. -/
structure Progress where
  arguments : Arguments := {}
  pathsRead : Bool := false
  extras : List String := []

namespace Progress

/-- Ends a run of arguments that are no options. The first such run is the paths. -/
def endRun (p : Progress) (run : List (String × Form)) : Progress :=
  if run.isEmpty then p
  else if p.pathsRead then { p with extras := p.extras ++ run.map (·.1) }
  else
    let paths := (run.filter (·.2 != .separator)).map (·.1)
    { p with pathsRead := true, arguments := { p.arguments with paths } }

/-- Switches on what an argument asks for. -/
def apply (p : Progress) (bunch : Bunch) : Except Interruption Progress := do
  let extras := p.extras ++ bunch.unknown.toList
  let arguments ← bunch.flags.foldlM Arguments.setFlag p.arguments
  match bunch.setting with
  | some (setting, some value) =>
    return { p with extras, arguments := ← arguments.setValue value setting }
  | _ => return { p with extras, arguments }

/-- Reads the arguments from left to right. `run` holds the arguments since the last option. -/
def read (p : Progress) (run : List (String × Form)) :
    List (String × Form) → Except Interruption Progress
  | [] => .ok (p.endRun run)
  | (argument, .unknown) :: rest =>
    let p := p.endRun run
    read { p with extras := p.extras ++ [argument] } [] rest
  | (_, .option spelling switch equals value) :: rest => do
    let p := p.endRun run
    let bunch ← Bunch.ofOption spelling switch equals value
    match bunch.setting, rest with
    | some (setting, none), (value, .plain) :: rest =>
      read (← p.apply { bunch with setting := some (setting, some value) }) [] rest
    | some (setting, none), _ => .error (.complaint (.missingValue setting))
    | _, rest => read (← p.apply bunch) [] rest
  | entry :: rest => read p (run ++ [entry]) rest

end Progress

/-- Reads the arguments of the command line. -/
def Arguments.ofList (arguments : List String) : Except Interruption Arguments := do
  let forms ← classifyAll arguments
  let p ← Progress.read {} [] forms
  if p.extras.isEmpty then return p.arguments
  else .error (.complaint (.unrecognized p.extras))

end PolicyFormat.Command
