import PolicyFormat.Datum.Basic
import PolicyFormat.Text.Unquoted

/-!
Reading plain data from text, and the named data in a file that holds one assignment after the other.
-/
namespace PolicyFormat.Datum

/-- Drops blanks and line ends. -/
def skipBlank (cs : List Char) : List Char :=
  cs.dropWhile (fun c => c == ' ' || c == '\t' || c == '\n' || c == '\r')

def words : List (List Char × Datum) :=
  [("None".toList, .nothing), ("True".toList, .flag true), ("False".toList, .flag false)]

def readWord (cs : List Char) : Option (Datum × List Char) :=
  match words.find? (fun w => w.1.isPrefixOf cs) with
  | some (word, d) => some (d, cs.drop word.length)
  | none =>
    let (negative, digits) := match cs with
      | '-' :: rest => (true, rest)
      | _ => (false, cs)
    let run := digits.takeWhile Char.isDigit
    if run.isEmpty then none
    else
      let n : Int := Text.digitsValue 10 (run.map (fun c => c.toNat - '0'.toNat))
      some (.number (if negative then -n else n), digits.drop run.length)

mutual

/-- Reads data at the start of a text. The result is the data and the rest of the text. -/
def readAt : (limit : Nat) → List Char → Option (Datum × List Char)
  | 0, _ => none
  | limit + 1, cs =>
    match skipBlank cs with
    | '[' :: rest => (readItems limit ']' rest).map (fun (xs, rest) => (.list xs, rest))
    | '(' :: rest => (readItems limit ')' rest).map (fun (xs, rest) => (.tuple xs, rest))
    | '\x7b' :: rest => (readFields limit rest).map (fun (fs, rest) => (.record fs, rest))
    | '\'' :: rest => (Text.quotedText? ('\'' :: rest)).map (fun (s, rest) => (.text (String.ofList s), rest))
    | '"' :: rest => (Text.quotedText? ('"' :: rest)).map (fun (s, rest) => (.text (String.ofList s), rest))
    | cs => readWord cs

/-- Reads items up to a closing bracket. Each has a comma after it but perhaps the last. -/
def readItems : (limit : Nat) → Char → List Char → Option (List Datum × List Char)
  | 0, _, _ => none
  | limit + 1, close, cs =>
    match skipBlank cs with
    | [] => none
    | c :: rest =>
      if c == close then some ([], rest)
      else (readAt limit (c :: rest)).bind fun (x, rest) =>
        match skipBlank rest with
        | ',' :: rest => (readItems limit close rest).map (fun (xs, rest) => (x :: xs, rest))
        | d :: rest => if d == close then some ([x], rest) else none
        | [] => none

def readFields : (limit : Nat) → List Char → Option (List (String × Datum) × List Char)
  | 0, _ => none
  | limit + 1, cs =>
    match skipBlank cs with
    | [] => none
    | '\x7d' :: rest => some ([], rest)
    | cs =>
      (readAt limit cs).bind fun (key, rest) =>
        match key, skipBlank rest with
        | .text key, ':' :: rest =>
          (readAt limit rest).bind fun (x, rest) =>
            match skipBlank rest with
            | ',' :: rest => (readFields limit rest).map (fun (fs, rest) => ((key, x) :: fs, rest))
            | '\x7d' :: rest => some ([(key, x)], rest)
            | _ => none
        | _, _ => none

end

/-- The data that starts a text. -/
def read? (cs : List Char) : Option Datum :=
  (readAt (cs.length + 1) cs).map (·.1)

def isNameChar (c : Char) : Bool :=
  c.isAlphanum || c == '_'

def assignment? (cs : List Char) : Option (String × Datum) :=
  let name := cs.takeWhile isNameChar
  let rest := (cs.drop name.length).dropWhile (· == ' ')
  match name, rest with
  | [], _ => none
  | name, '=' :: rest => (read? rest).map (fun d => (String.ofList name, d))
  | _, _ => none

def assignmentsFrom : (lineStart : Bool) → List Char → List (String × Datum)
  | _, [] => []
  | lineStart, c :: rest =>
    let later := assignmentsFrom (c == '\n') rest
    if lineStart then
      match assignment? (c :: rest) with
      | some a => a :: later
      | none => later
    else later

/-- The named data of a file. -/
def assignments (text : String) : List (String × Datum) :=
  assignmentsFrom true text.toList

def text? : Datum → Option String
  | .text s => some s
  | _ => none

def number? : Datum → Option Int
  | .number n => some n
  | _ => none

def items? : Datum → Option (List Datum)
  | .list xs => some xs
  | .tuple xs => some xs
  | _ => none

def fields? : Datum → Option (List (String × Datum))
  | .record fs => some fs
  | _ => none

end PolicyFormat.Datum
