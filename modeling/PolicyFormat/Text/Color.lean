import PolicyFormat.Text.Digit

/-!
Text in colours for a terminal.
-/
namespace PolicyFormat.Text

/-- The colours with the codes that a terminal knows them by. -/
def colorCodes : List (String × String) :=
  [("dark_gray", "1;30"), ("dark_red", "22;31"), ("dark_green", "22;32"), ("dark_yellow", "22;33"),
   ("dark_blue", "22;34"), ("dark_magenta", "22;35"), ("dark_cyan", "22;36"),
   ("dark_white", "22;37"), ("gray", "22;37"), ("red", "1;31"), ("green", "1;32"),
   ("yellow", "1;33"), ("blue", "1;34"), ("magenta", "1;35"), ("cyan", "1;36"), ("white", "1;37")]

def withCode (code text : String) : String :=
  "\x1b[" ++ code ++ "m" ++ text ++ "\x1b[0m"

def colored? (color text : String) : Option String :=
  (colorCodes.lookup color).map (fun code => withCode code text)

def green (text : String) : String :=
  withCode "1;32" text

def afterMark : List Char → Option (List Char)
  | [] => none
  | c :: rest => if c == 'm' then some rest else if c == '\n' then none else afterMark rest

/-- What follows a colour code at the front of a text: an escape, a bracket, a digit, and
anything up to the next `m` on the line. -/
def afterColorCode : List Char → Option (List Char)
  | '\x1b' :: '[' :: c :: rest => if isDigit c then afterMark rest else none
  | _ => none

/-- A text without colour codes. The first `skipped` characters belong to a code. -/
def dropColorCodes : (skipped : Nat) → List Char → List Char
  | _, [] => []
  | skipped + 1, _ :: rest => dropColorCodes skipped rest
  | 0, c :: rest =>
    match afterColorCode (c :: rest) with
    | some after => dropColorCodes (rest.length - after.length) rest
    | none => c :: dropColorCodes 0 rest

def withoutColors (s : String) : String :=
  String.ofList (dropColorCodes 0 s.toList)

end PolicyFormat.Text
