import PolicyFormat.Text.Blank
import PolicyFormat.Text.Digit

/-!
Whole numbers as users write them: blanks around, a sign, digits of any script, and underscores
between digits.
-/
namespace PolicyFormat.Text

/-- The values of digits that may have single underscores between them. -/
def digitValues? : List Char → Option (List Nat)
  | [] => none
  | [c] => (digitValue? c).map ([·])
  | c :: '_' :: rest => do return (← digitValue? c) :: (← digitValues? rest)
  | c :: rest => do return (← digitValue? c) :: (← digitValues? rest)

/-- The most digits that a number may have. -/
def maxDigits : Nat := 4300

/-- The number that a text stands for. -/
def integer? (s : String) : Option Int :=
  let cs := trim s.toList
  let (sign, digits) : Int × List Char :=
    match cs with
    | '-' :: rest => (-1, rest)
    | '+' :: rest => (1, rest)
    | _ => (1, cs)
  match digitValues? digits with
  | none => none
  | some values =>
    if maxDigits < values.length then none
    else some (sign * ((values.foldl (fun n d => 10 * n + d) 0 : Nat) : Int))

end PolicyFormat.Text
