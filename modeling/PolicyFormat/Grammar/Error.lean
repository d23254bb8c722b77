import PolicyFormat.Grammar.Production
import PolicyFormat.Text.Blank
import PolicyFormat.Text.Quoted

/-!
What can be wrong with a grammar, and how it is said.
-/
namespace PolicyFormat

open Text

/-- What is wrong with the text of a rule. -/
inductive RuleTextFault where
  | misplacedBar
  | colonExpected
  | incomplete (line : String)
deriving Repr, BEq, DecidableEq

/-- A fault in the text of a rule, at its line. -/
structure RuleTextError where
  place : Place
  fault : RuleTextFault
deriving Repr, BEq, DecidableEq

def RuleTextError.message (e : RuleTextError) : String :=
  e.place.text ++ ": " ++ match e.fault with
    | .misplacedBar => "Misplaced '|'"
    | .colonExpected => "Syntax error. Expected ':'"
    | .incomplete line => "Syntax error in rule " ++ quote (String.ofList (trim line.toList))

/-- What is wrong with a rule that is added to a grammar. -/
inductive RuleFault where
  | nameIsToken (name : String)
  | badName (name : String)
  | longLiteral (symbol name : String)
  | badSymbol (symbol name : String)
  | nothingAfterMark
  | markNotLast
  | unknownPrecedence (symbol : String)
  | duplicate (previous : Production)
deriving Repr, BEq

def RuleFault.text : RuleFault → String
  | .nameIsToken name => "Illegal rule name " ++ quote name ++ ". Already defined as a token"
  | .badName name => "Illegal rule name " ++ quote name
  | .longLiteral symbol name =>
    "Literal token " ++ symbol ++ " in rule " ++ quote name ++ " may only be a single character"
  | .badSymbol symbol name => "Illegal name " ++ quote symbol ++ " in rule " ++ quote name
  | .nothingAfterMark => "Syntax error. Nothing follows %prec"
  | .markNotLast => "Syntax error. %prec can only appear at the end of a grammar rule"
  | .unknownPrecedence symbol => "Nothing known about the precedence of " ++ quote symbol
  | .duplicate previous =>
    "Duplicate rule " ++ previous.text ++ ". Previous definition at " ++ previous.place.text

/-- What is wrong with the declarations of a grammar. -/
inductive GrammarError where
  | precedenceRepeated (symbol : String)
  | unknownAssociativity
  | rule (place : Place) (fault : RuleFault)
  | startUndefined (symbol : String)
  | noRules
deriving Repr, BEq

def GrammarError.message : GrammarError → String
  | .precedenceRepeated symbol => "Precedence already specified for terminal " ++ quote symbol
  | .unknownAssociativity => "Associativity must be one of 'left','right', or 'nonassoc'"
  | .rule place fault => place.text ++ ": " ++ fault.text
  | .startUndefined symbol => "start symbol " ++ symbol ++ " undefined"
  | .noRules => "no rules are defined"

end PolicyFormat
