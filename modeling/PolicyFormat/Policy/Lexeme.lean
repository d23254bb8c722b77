import PolicyFormat.Policy.Token

/-!
The pieces that policy text falls into: tokens, comments and white space. `Lexeme.front?` finds
the piece at the front of a text; where two kinds could start, the first of the list wins.
-/
namespace PolicyFormat.Policy

/-- A kind of piece. -/
inductive Lexeme where
  | token (kind : TokenKind)
  | comment
  | space
deriving Repr, DecidableEq, Inhabited

namespace Lexeme

/-- Letters, digits, the underscore and the upper half of Latin-1. -/
def isNameChar (c : Char) : Bool :=
  c.isAlphanum || c == '_' || (0x80 ≤ c.toNat && c.toNat ≤ 0xFF)

def isGuardChar (c : Char) : Bool :=
  isNameChar c || c == '.' || c == '|' || c == '&' || c == '!' || c == '(' || c == ')' || c == ':'

/-- The characters of a variable name between its brackets. -/
def isVariableChar (c : Char) : Bool :=
  isNameChar c || c == '[' || c == ']' || c == '.' || c == ':'

/-- The rest of a quoted string after its opening mark, up to and with the closing mark. A
backslash takes the next character along where `escapes` says so. -/
def quotedTail (mark : Char) (escapes : Bool) : List Char → Option (List Char)
  | [] => none
  | [c] => if c == mark then some [c] else none
  | c :: d :: rest =>
    if c == mark then some [c]
    else if escapes && c == '\\' then (quotedTail mark escapes rest).map (c :: d :: ·)
    else (quotedTail mark escapes (d :: rest)).map (c :: ·)

/-- A string in double quotes, single quotes or back quotes. Back quotes know no escapes. -/
def quoted? : List Char → Option (List Char)
  | '"' :: rest => (quotedTail '"' true rest).map ('"' :: ·)
  | '\'' :: rest => (quotedTail '\'' true rest).map ('\'' :: ·)
  | '\x60' :: rest => (quotedTail '\x60' false rest).map ('\x60' :: ·)
  | _ => none

/-- Of a reversed run, the part that is left when characters are dropped until it ends with two
colons that have something before them. -/
def endingInColons : List Char → Option (List Char)
  | [] => none
  | c :: rest =>
    match c, rest with
    | ':', ':' :: _ :: _ => some (c :: rest)
    | _, _ => endingInColons rest

/-- A class expression: the longest piece of class characters that ends with two colons. -/
def guard? (cs : List Char) : Option (List Char) :=
  (endingInColons (cs.takeWhile isGuardChar).reverse).map List.reverse

/-- Two names joined by a colon. -/
def symbol? (cs : List Char) : Option (List Char) :=
  let first := cs.takeWhile isNameChar
  match cs.dropWhile isNameChar with
  | ':' :: rest =>
    let second := rest.takeWhile isNameChar
    if first.isEmpty || second.isEmpty then none else some (first ++ ':' :: second)
  | _ => none

/-- The heading of a group of promises: letters and underscores, then a colon. -/
def promiseType? (cs : List Char) : Option (List Char) :=
  let isHeadingChar (c : Char) : Bool := c.isAlpha || c == '_'
  let name := cs.takeWhile isHeadingChar
  match cs.dropWhile isHeadingChar with
  | ':' :: _ => if name.isEmpty then none else some (name ++ [':'])
  | _ => none

/-- A name. -/
def ident? (cs : List Char) : Option (List Char) :=
  let name := cs.takeWhile isNameChar
  if name.isEmpty then none else some name

/-- A reference to a variable that stands outside a string, in round or curly brackets. -/
def nakedVar? : List Char → Option (List Char)
  | sigil :: opening :: rest =>
    let closing := if opening == '(' then ')' else '}'
    if (sigil == '$' || sigil == '@') && (opening == '(' || opening == '{') then
      let name := rest.takeWhile isVariableChar
      match rest.dropWhile isVariableChar with
      | c :: _ => if c == closing && !name.isEmpty then some (sigil :: opening :: name ++ [c]) else none
      | [] => none
    else none
  | _ => none

/-- Spaces and tabs, or line feeds that may have one carriage return before them. -/
def space? (cs : List Char) : Option (List Char) :=
  match cs with
  | '\r' :: '\n' :: rest => some ('\r' :: '\n' :: rest.takeWhile (· == '\n'))
  | '\n' :: rest => some ('\n' :: rest.takeWhile (· == '\n'))
  | _ =>
    let run := cs.takeWhile (fun c => c == ' ' || c == '\t')
    if run.isEmpty then none else some run

/-- Everything from a number sign to the end of its line. -/
def comment? : List Char → Option (List Char)
  | '#' :: rest => some ('#' :: rest.takeWhile (· != '\n'))
  | _ => none

def punctuation? : List Char → Option (TokenKind × List Char)
  | '-' :: '>' :: _ => some (.arrow, ['-', '>'])
  | '=' :: '>' :: _ => some (.assign, ['=', '>'])
  | '(' :: _ => some (.openParen, ['('])
  | ')' :: _ => some (.closeParen, [')'])
  | ',' :: _ => some (.comma, [','])
  | '{' :: _ => some (.openBrace, ['{'])
  | '}' :: _ => some (.closeBrace, ['}'])
  | ';' :: _ => some (.semicolon, [';'])
  | _ => none

/-- A name is a keyword if it is spelled like one. -/
def identKind (name : List Char) : TokenKind :=
  if name == "body".toList then .body
  else if name == "bundle".toList then .bundle
  else .ident

/-- The piece at the front of a text, with its characters. -/
def front? (cs : List Char) : Option (Lexeme × List Char) :=
  ((quoted? cs).map ((.token .quoted, ·)))
    <|> (guard? cs).map ((.token .guard, ·))
    <|> (symbol? cs).map ((.token .symbol, ·))
    <|> (promiseType? cs).map ((.token .promiseType, ·))
    <|> (ident? cs).map (fun name => (.token (identKind name), name))
    <|> (space? cs).map ((.space, ·))
    <|> (comment? cs).map ((.comment, ·))
    <|> (nakedVar? cs).map ((.token .nakedVar, ·))
    <|> (punctuation? cs).map (fun (kind, text) => (.token kind, text))

end Lexeme

end PolicyFormat.Policy
