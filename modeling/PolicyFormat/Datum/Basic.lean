import PolicyFormat.Text.Quoted

/-!
Plain data, as it is given in declarations and carried by tokens.
-/
namespace PolicyFormat

/-- Plain data: nothing, truth values, whole numbers, texts, sequences and keyed data. -/
inductive Datum where
  | nothing
  | flag (b : Bool)
  | number (n : Int)
  | text (s : String)
  | list (items : List Datum)
  | tuple (items : List Datum)
  | record (fields : List (String × Datum))
deriving Repr, BEq, Inhabited

namespace Datum

mutual

/-- Data in the form in which messages show it. -/
def shown : Datum → String
  | .nothing => "None"
  | .flag b => if b then "True" else "False"
  | .number n => toString n
  | .text s => Text.quote s
  | .list items => "[" ++ String.intercalate ", " (shownAll items) ++ "]"
  | .tuple items =>
    match items with
    | [] => "()"
    | [x] => "(" ++ shown x ++ ",)"
    | x :: rest => "(" ++ String.intercalate ", " (shown x :: shownAll rest) ++ ")"
  | .record fields => "\x7b" ++ String.intercalate ", " (shownFields fields) ++ "\x7d"

/-- The forms of several data. -/
def shownAll : List Datum → List String
  | [] => []
  | x :: rest => shown x :: shownAll rest

def shownFields : List (String × Datum) → List String
  | [] => []
  | (key, x) :: rest => (Text.quote key ++ ": " ++ shown x) :: shownFields rest

end

/-- Data inside a message: a text stands for itself. -/
def plain : Datum → String
  | .text s => s
  | d => d.shown

def kind : Datum → String
  | .nothing => "NoneType"
  | .flag _ => "bool"
  | .number _ => "int"
  | .text _ => "str"
  | .list _ => "list"
  | .tuple _ => "tuple"
  | .record _ => "dict"

/-- The data counts as given: it is not nothing, false, zero or empty. -/
def isGiven : Datum → Bool
  | .nothing => false
  | .flag b => b
  | .number n => n != 0
  | .text s => !s.isEmpty
  | .list items => !items.isEmpty
  | .tuple items => !items.isEmpty
  | .record fields => !fields.isEmpty

end Datum

end PolicyFormat
