import PolicyFormat.Text.Index
import PolicyFormat.Text.Quoted

/-!
What can be wrong with a written regular expression.
-/
namespace PolicyFormat

/-- What is wrong with a written regular expression. -/
inductive PatternFault where
  | unclosedGroup
  | unclosedComment
  | unclosedClass
  | unclosedName
  | unopenedGroup
  | unexpectedEnd
  | nothingToRepeat
  | repeatedTwice
  | leastAboveMost
  | badRange (written : String)
  | badEscape (written : String)
  | incompleteEscape (written : String)
  | escapeAtEnd
  | octalTooLarge (written : String)
  | unknownReference (number : Nat)
  | openReference
  | unknownExtension (written : String)
  | flagsInside
  | noGroupName
  | badGroupName (name : String)
  | groupDefinedTwice (name : String) (number previous : Nat)
deriving Repr, BEq

def PatternFault.message : PatternFault → String
  | .unclosedGroup => "missing ), unterminated subpattern"
  | .unclosedComment => "missing ), unterminated comment"
  | .unclosedClass => "unterminated character set"
  | .unclosedName => "missing >, unterminated name"
  | .unopenedGroup => "unbalanced parenthesis"
  | .unexpectedEnd => "unexpected end of pattern"
  | .nothingToRepeat => "nothing to repeat"
  | .repeatedTwice => "multiple repeat"
  | .leastAboveMost => "min repeat greater than max repeat"
  | .badRange written => "bad character range " ++ written
  | .badEscape written => "bad escape " ++ written
  | .incompleteEscape written => "incomplete escape " ++ written
  | .escapeAtEnd => "bad escape (end of pattern)"
  | .octalTooLarge written => "octal escape value " ++ written ++ " outside of range 0-0o377"
  | .unknownReference number => "invalid group reference " ++ toString number
  | .openReference => "cannot refer to an open group"
  | .unknownExtension written => "unknown extension " ++ written
  | .flagsInside => "global flags not at the start of the expression"
  | .noGroupName => "missing group name"
  | .badGroupName name => "bad character in group name " ++ Text.quote name
  | .groupDefinedTwice name number previous =>
    "redefinition of group name " ++ Text.quote name ++ " as group " ++ toString number
      ++ "; was group " ++ toString previous

/-- A fault and its place in the written expression. -/
structure PatternError where
  fault : PatternFault
  position : Nat
deriving Repr, BEq

/-- A fault with its place. In an expression of several lines the line and column are added. -/
def PatternError.message (e : PatternError) (written : String) : String :=
  let before := written.toList.take e.position
  let line := before.count '\n' + 1
  let column := (e.position : Int) - Text.lastIndex (· == '\n') before
  e.fault.message ++ " at position " ++ toString e.position
    ++ (if written.toList.contains '\n' then
          " (line " ++ toString line ++ ", column " ++ toString column ++ ")"
        else "")

end PolicyFormat
