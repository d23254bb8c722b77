import PolicyFormat.Text.Quoted

/-!
The tokens of a policy file.
-/
namespace PolicyFormat.Policy

/-- What a token is. -/
inductive TokenKind where
  | arrow
  | assign
  | comma
  | openBrace
  | closeBrace
  | openParen
  | closeParen
  | semicolon
  | nakedVar
  | quoted
  | guard
  | symbol
  | promiseType
  | ident
  | body
  | bundle
deriving Repr, DecidableEq, Inhabited

def TokenKind.name : TokenKind → String
  | .arrow => "ARROW"
  | .assign => "ASSIGN"
  | .comma => "COMMA"
  | .openBrace => "OPEN_BRACE"
  | .closeBrace => "CLOSE_BRACE"
  | .openParen => "OPEN_PAREN"
  | .closeParen => "CLOSE_PAREN"
  | .semicolon => "SEMICOLON"
  | .nakedVar => "NAKEDVAR"
  | .quoted => "QSTRING"
  | .guard => "CLASS"
  | .symbol => "SYMBOL"
  | .promiseType => "PROMISE_TYPE"
  | .ident => "IDSYNTAX"
  | .body => "BODY"
  | .bundle => "BUNDLE"

/-- A piece of policy text with the line and the offset at which it starts. -/
structure Token where
  kind : TokenKind
  text : String
  line : Int
  offset : Int
deriving Repr, DecidableEq, Inhabited

def Token.describe (t : Token) : String :=
  "LexToken(" ++ t.kind.name ++ "," ++ Text.quote t.text ++ "," ++ toString t.line ++ ","
    ++ toString t.offset ++ ")"

def lineFeeds (s : String) : Nat :=
  s.toList.count '\n'

namespace Token

/-- The line on which the token ends. Only quoted tokens can span lines. -/
def endLine (t : Token) : Int :=
  t.line + lineFeeds t.text

/-- The offset just after the token. -/
def stop (t : Token) : Int :=
  t.offset + t.text.length

end Token

/-- A comment as it was read: its text without the blanks at its end, and where it starts. -/
structure CommentToken where
  text : String
  line : Int
  offset : Int
deriving Repr, DecidableEq, Inhabited

namespace CommentToken

def stop (c : CommentToken) : Int :=
  c.offset + c.text.length

end CommentToken

end PolicyFormat.Policy
