/-!
A message that is used as a format although nothing is to be filled in. A doubled percent sign stands for
one, and any other use of the sign asks for something that is not there.
-/
namespace PolicyFormat.Text

/-- Why a message cannot be used as a format. -/
inductive FormatFault where
  | incomplete
  | nothingToFill
deriving Repr, BEq

/-- The characters between a percent sign and the character that says what to fill in. -/
def isFormatDetail (c : Char) : Bool :=
  c.isDigit || ['#', '-', ' ', '+', '.', 'h', 'l', 'L'].contains c

/-- A message without anything to fill in. `inside` says that a percent sign was read. -/
def withoutFillingFrom : (inside : Bool) → List Char → Except FormatFault (List Char)
  | false, [] => .ok []
  | true, [] => .error .incomplete
  | false, c :: rest =>
    if c == '%' then withoutFillingFrom true rest
    else (withoutFillingFrom false rest).map (c :: ·)
  | true, c :: rest =>
    if c == '%' then (withoutFillingFrom false rest).map ('%' :: ·)
    else if isFormatDetail c then withoutFillingFrom true rest
    else .error .nothingToFill

/-- A message used as a format without anything to fill in. -/
def withoutFilling (s : String) : Except FormatFault String :=
  (withoutFillingFrom false s.toList).map String.ofList

end PolicyFormat.Text
