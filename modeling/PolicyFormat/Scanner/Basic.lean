import PolicyFormat.Pattern.Match
import PolicyFormat.Pattern.Reader
import PolicyFormat.Scanner.Info

/-!
Scanners, and the expressions that find their tokens.
-/
namespace PolicyFormat.Scanner

open Builder

/-- What is done when a group of an expression is matched: a routine is called with a token, or a token of a
kind is found. Without both, the text is skipped. -/
structure Found where
  routine : Option Routine := none
  kind : Option String := none
deriving Repr, BEq

/-- An expression of several rules, and what to do for each group. -/
structure Alternatives where
  written : String
  pattern : Pattern
  found : List (Option Found)
deriving Repr

namespace Alternatives

/-- What is done for a named group, if anything is declared under the name. A declaration that is no rule
has no kind of token. -/
def foundFor (d : Declarations) (kinds : Keyed String String) (name : String) :
    Option (Option Found) :=
  match d.get? name with
  | none => some none
  | some (.value .nothing) => some none
  | some (.routine r) => (kinds.get? name).map (fun kind => some ⟨some r, some kind⟩)
  | some (.value _) =>
    let cs := name.toList
    if Text.occursIn "ignore_".toList cs && !name.startsWith "ignore_" then some (some {})
    else (kinds.get? name).map (fun kind => some ⟨none, some kind⟩)

/-- Joins rules to one expression, if that is possible. -/
def ofRules? (d : Declarations) (kinds : Keyed String String) (rules : List String) :
    Option Alternatives := do
  let written := String.intercalate "|" rules
  let expression ← (Expression.read written).toOption
  let named ← expression.names.mapM (fun (name, number) =>
    (foundFor d kinds name).map (fun found => (number, found)))
  let size := named.foldl (fun n e => max n (e.1 + 1)) 0
  let found := (List.range size).map (fun number => (named.lookup number).join)
  return { written, pattern := expression.pattern, found }

def ofRules (d : Declarations) (kinds : Keyed String String) :
    (limit : Nat) → List String → Except BuildFailure (List Alternatives)
  | _, [] => throw .noExpressions
  | 0, _ => throw .badExpression
  | limit + 1, rules => do
    match ofRules? d kinds rules with
    | some alternatives => return [alternatives]
    | none =>
      if rules.length == 1 then throw .badExpression
      let half := rules.length / 2
      return (← ofRules d kinds limit (rules.take half)) ++ (← ofRules d kinds limit (rules.drop half))

end Alternatives

end PolicyFormat.Scanner

namespace PolicyFormat

open Scanner Builder

/-- A scanner. -/
structure Scanner where
  /-- The file of its routines. -/
  file : String
  tokens : List Datum
  literals : Datum
  states : Keyed String StateKind
  /-- The expressions of each state, in the order in which they are tried. -/
  rules : Keyed String (List Alternatives)
  ignored : Keyed String String
  handlers : Keyed String (Option Routine)
  /-- The kinds of tokens that routines return are checked. -/
  checked : Bool := true

namespace Scanner

def literalChars (s : Scanner) : List Char :=
  match s.literals with
  | .text text => text.toList
  | .record fields => fields.filterMap fun (key, _) =>
    match key.toList with
    | [c] => some c
    | _ => none
  | _ => []

def rulesOf (s : Scanner) (state : String) : List Alternatives :=
  (s.rules.get? state).getD []

def ignoredIn (s : Scanner) (state : String) : List Char :=
  ((s.ignored.get? state).getD "").toList

/-- The routine that is called where no rule of a state fits. -/
def handlerOf? (s : Scanner) (state : String) : Option Routine :=
  (s.handlers.get? state).join

end Scanner

end PolicyFormat
