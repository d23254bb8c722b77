import PolicyFormat.Text.Printable

/-!
Texts and lists of texts in quoted form, as they stand in messages and table files.
-/
namespace PolicyFormat.Text

/-- A number in hexadecimal, filled up with zeros to a number of digits. -/
def hex (digits n : Nat) : List Char :=
  let cs := Nat.toDigits 16 n
  List.replicate (digits - cs.length) '0' ++ cs

/-- A character inside quotes. What cannot be shown is written by its code. -/
def quoteChar (mark c : Char) : List Char :=
  if c == mark || c == '\\' then ['\\', c]
  else if c == '\n' then ['\\', 'n']
  else if c == '\r' then ['\\', 'r']
  else if c == '\t' then ['\\', 't']
  else if 32 ≤ c.toNat && c.toNat < 127 then [c]
  else if isPrintable c then [c]
  else if c.toNat ≤ 0xFF then '\\' :: 'x' :: hex 2 c.toNat
  else if c.toNat ≤ 0xFFFF then '\\' :: 'u' :: hex 4 c.toNat
  else '\\' :: 'U' :: hex 8 c.toNat

/-- The mark around a quoted text: single quotes, unless the text has those and no double
quotes. -/
def quoteMark (cs : List Char) : Char :=
  if cs.contains '\'' && !cs.contains '"' then '"' else '\''

def quote (s : String) : String :=
  let cs := s.toList
  let mark := quoteMark cs
  String.ofList (mark :: cs.flatMap (quoteChar mark) ++ [mark])

def bracketed (items : List String) : String :=
  "[" ++ String.intercalate ", " items ++ "]"

def quoteAll (items : List String) : String :=
  bracketed (items.map quote)

end PolicyFormat.Text
