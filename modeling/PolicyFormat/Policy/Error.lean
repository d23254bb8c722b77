import PolicyFormat.Text.Index
import PolicyFormat.Policy.Token

/-!
Why a policy text is refused, and how that is reported.
-/
namespace PolicyFormat.Policy

/-- The first thing in a policy text that cannot be read on. -/
inductive Refusal where
  | unexpected (token : Token)
  | unreadable (rest : String) (line offset : Int)
  | endOfFile
deriving Repr, DecidableEq, Inhabited

/-- A refusal as it is shown to a user. -/
structure SyntaxError where
  fragment : String
  line : Int
  column : Int
  offset : Int
deriving Repr, DecidableEq, Inhabited

namespace SyntaxError

/-- The error about a fragment of the text. The column counts from the last line feed before the
offset. -/
def ofFragment (fragment : String) (line : Int) (text : String) (offset : Int) : SyntaxError :=
  { fragment, line, offset, column := offset - Text.previousLineFeed text.toList offset }

/-- The message names the place and shows the fragment. -/
def message (e : SyntaxError) : String :=
  s!"Syntax error, line {e.line}, column {e.column}: '" ++ e.fragment ++ "'"

end SyntaxError

namespace Refusal

/-- The report on a refusal of the given text. The end of the file has no place in the text. -/
def report (text : String) : Refusal → SyntaxError
  | .unexpected token => .ofFragment token.text token.line text token.offset
  | .unreadable rest line offset => .ofFragment rest line text offset
  | .endOfFile => .ofFragment "End of file" 0 "" 0

end Refusal

end PolicyFormat.Policy
