import PolicyFormat.Grammar.Error

/-!
Grammar rules written as text. Each line that is not blank is a rule `name : symbols` or, behind a
bar, another alternative of the rule before it.
-/
namespace PolicyFormat

open Text

/-- One alternative of a rule, as it was written. -/
structure WrittenRule where
  place : Place
  name : String
  symbols : List String
deriving Repr, BEq

/-- Reads one line. The result is the name that a bar on a later line continues, and the rule of the line
if it has one. -/
def WrittenRule.ofLine (place : Place) (last : Option String) (line : String) :
    Except RuleTextError (Option String × List WrittenRule) :=
  match words line with
  | [] => .ok (last, [])
  | "|" :: symbols =>
    match last with
    | some name => .ok (last, [⟨place, name, symbols⟩])
    | none => .error ⟨place, .misplacedBar⟩
  | name :: sign :: symbols =>
    if sign == ":" || sign == "::=" then .ok (some name, [⟨place, name, symbols⟩])
    else .error ⟨place, .colonExpected⟩
  | [_] => .error ⟨place, .incomplete line⟩

def WrittenRule.ofLines (place : Place) (last : Option String) :
    List String → Except RuleTextError (List WrittenRule)
  | [] => .ok []
  | line :: rest => do
    let (last, rules) ← ofLine place last line
    let later ← ofLines { place with line := place.line + 1 } last rest
    return rules ++ later

/-- Reads the rules in a text. The line before the text has the number `line`. -/
def WrittenRule.ofText (text file : String) (line : Int) : Except RuleTextError (List WrittenRule) :=
  ofLines ⟨file, line + 1⟩ none (lines text)

end PolicyFormat
