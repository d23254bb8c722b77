import PolicyFormat.Policy.Error
import PolicyFormat.Policy.Scan
import PolicyFormat.Policy.Tree

/-!
From tokens to the tree of a policy file. Each function reads one construct from the front of the
input and refuses at the first token that no policy file could have there.

Spans: a construct starts with its first token and ends with the last token read so far. A list
without an opening bracket has no first token of its own; it starts just after the token that
follows it.
-/
namespace PolicyFormat.Policy

/-- The tokens still to be read, how the text ends after them, and the line and offset at which
the last token read has ended. -/
structure Input where
  tokens : List Token
  ending : Ending
  endLine : Int := 0
  stop : Int := 0

abbrev Parser (α : Type) := StateT Input (Except Refusal) α

namespace Parser

/-- Where a construct starts. -/
structure Start where
  line : Int
  offset : Int

def refuse {α : Type} : Parser α := fun input =>
  match input.tokens, input.ending with
  | token :: _, _ => .error (.unexpected token)
  | [], .unreadable rest line offset => .error (.unreadable rest line offset)
  | [], .complete _ _ => .error .endOfFile

def nextKind? : Parser (Option TokenKind) := fun input =>
  .ok (input.tokens.head?.map (·.kind), input)

def atNext : Parser Start := fun input =>
  match input.tokens with
  | token :: _ => .ok (⟨token.line, token.offset⟩, input)
  | [] => refuse input

/-- The place just after the next token, or after the end of the text. -/
def afterNext : Parser Start := fun input =>
  match input.tokens, input.ending with
  | token :: _, _ => .ok (⟨token.endLine, token.stop⟩, input)
  | [], .complete line offset => .ok (⟨line, offset⟩, input)
  | [], .unreadable _ _ _ => refuse input

/-- The span from a start to the end of the last token read. -/
def spanFrom (start : Start) : Parser Span := fun input =>
  .ok (⟨start.line, input.endLine, start.offset, input.stop⟩, input)

def token (kind : TokenKind) : Parser Token := fun input =>
  match input.tokens with
  | t :: rest =>
    if t.kind = kind then
      .ok (t, { input with tokens := rest, endLine := t.endLine, stop := t.stop })
    else refuse input
  | [] => refuse input

/-- Reads a token as a node that yields its comments with the given rank. -/
def leaf (kind : TokenKind) (yields : Option Int := some 1) : Parser Leaf := do
  let t ← token kind
  return { traits := { span := ⟨t.line, t.endLine, t.offset, t.stop⟩, yields }, text := t.text }

def optional (kind : TokenKind) : Parser (Option Leaf) := do
  if (← nextKind?) = some kind then return some (← leaf kind) else return none

/-- Reads constructs as long as the next token starts one. Each has to take a token. -/
def many {α : Type} (starts : TokenKind → Bool) (one : Parser α) : Parser (List α) := fun input =>
  go input.tokens.length input
where
  /-- Reads at most `bound` constructs. -/
  go : Nat → Input → Except Refusal (List α × Input)
  | 0, input => .ok ([], input)
  | bound + 1, input =>
    if (input.tokens.head?.map (·.kind)).any starts then do
      let (first, input) ← one input
      let (rest, input) ← go bound input
      .ok (first :: rest, input)
    else .ok ([], input)

/-- Reads the elements that follow commas. A comma stays unread where `trailing` says that it
ends the list. -/
def afterCommas {α : Type} (one : Parser α) (trailing : List Token → Bool) : Parser (List α) :=
  fun input => go input.tokens.length input
where
  /-- Reads at most `bound` elements. -/
  go : Nat → Input → Except Refusal (List α × Input)
  | 0, input => .ok ([], input)
  | bound + 1, input =>
    if input.tokens.head?.map (·.kind) = some .comma && !trailing input.tokens then do
      let (_, input) ← token .comma input
      let (next, input) ← one input
      let (rest, input) ← go bound input
      .ok (next :: rest, input)
    else .ok ([], input)

/-- Reads elements with commas between them. The first element may be left out, also before a
comma. -/
def commaSeparated {α : Type} (starts : TokenKind → Bool) (one : Parser α)
    (trailing : List Token → Bool) : Parser (List α) := do
  if (← nextKind?).any starts then
    let first ← one
    return first :: (← afterCommas one trailing)
  else afterCommas one trailing

/-- A list node, which hands its comments to its parent. -/
def group {α : Type} (start : Start) (opening : Option Leaf) (items : List α)
    (closing : Option Leaf) : Parser (ItemList α) := do
  return {
    traits := { span := ← spanFrom start, yields := some 1 }
    opening, closing
    entries := items.map .item }

/-- Reads elements in round brackets. -/
def parenthesised {α : Type} (starts : TokenKind → Bool) (one : Parser α) : Parser (ItemList α) := do
  let start ← atNext
  let opening ← leaf .openParen
  let items ← commaSeparated starts one (fun _ => false)
  let closing ← leaf .closeParen (some 2)
  group start (some opening) items (some closing)

def startsCall (kind : TokenKind) : Bool :=
  kind = .ident || kind = .symbol || kind = .nakedVar

def startsElement (kind : TokenKind) : Bool :=
  startsCall kind || kind = .quoted

/-- Reads a word or a call. Calls may be nested to the given depth; every call takes tokens, so
the number of tokens is depth enough. -/
def element : (depth : Nat) → (yields : Option Int) → Parser Element
  | 0, _ => refuse
  | depth + 1, yields => do
    let start ← atNext
    match ← nextKind? with
    | none => refuse
    | some kind =>
      if kind = .quoted then return .leaf (← leaf .quoted yields)
      else if startsCall kind then
        let word ← leaf kind
        if (← nextKind?) = some .openParen then
          let arguments ← parenthesised startsElement (element depth (some 0))
          return .call { span := ← spanFrom start, yields } word arguments
        else return .leaf { word with traits := { word.traits with yields } }
      else refuse

/-- Reads a word or a call at whatever depth. -/
def anyElement (yields : Option Int) : Parser Element := fun input =>
  element input.tokens.length yields input

def endsList : List Token → Bool
  | _ :: t :: _ => t.kind = .closeBrace
  | _ => false

/-- Reads a list in braces. Its elements keep the blank lines before them. -/
def bracedList : Parser (ItemList Element) := do
  let start ← atNext
  let opening ← leaf .openBrace
  let items ← commaSeparated startsElement (anyElement (some 0)) endsList
  let _ ← optional .comma
  let closing ← leaf .closeBrace none
  let kept := items.map (Element.withTraits (fun t => { t with keepsBlank := true }))
  group start (some opening) kept (some closing)

/-- Reads the right side of an assignment, or a promisee. -/
def value : Parser Value := do
  if (← nextKind?) = some .openBrace then return .list (← bracedList)
  else return .single (← anyElement (some 1))

/-- Reads an attribute with its value and the comma after it. -/
def assignment (keepsBlank : Bool) : Parser Assignment := do
  let start ← atNext
  let name ← leaf .ident
  let arrow ← leaf .assign
  let value ← value
  let comma ← optional .comma
  return { traits := { span := ← spanFrom start, keepsBlank }, name, arrow, value, comma }

/-- Reads the attributes of a promise. -/
def constraints : Parser (ItemList Assignment) := do
  let start ← afterNext
  let items ← many (· = .ident) (assignment false)
  group start none items none

def promise : Parser Promise := do
  let start ← atNext
  let promiser ← leaf .quoted
  let promisee ←
    if (← nextKind?) = some .arrow then do
      let _ ← leaf .arrow
      pure (some (← value))
    else pure none
  let comma ← optional .comma
  let constraints ← constraints
  let semicolon ← leaf .semicolon (some 2)
  return {
    traits := { span := ← spanFrom start, keepsBlank := true }
    promiser, promisee, comma, constraints, semicolon }

/-- Reads a class expression. -/
def guard : Parser Guard := do
  let start ← atNext
  let expression ← leaf .guard
  return { traits := { span := ← spanFrom start, keepsBlank := true }, expression }

/-- Reads a class expression or a promise. -/
def clause : Parser Clause := do
  if (← nextKind?) = some .guard then return .guard (← guard) else return .promise (← promise)

def promiseType : Parser PromiseType := do
  let start ← atNext
  let name ← leaf .promiseType none
  let inner ← afterNext
  let items ← many (fun kind => kind = .guard || kind = .quoted) clause
  let clauses ← group inner none items none
  return { traits := { span := ← spanFrom start }, name, clauses }

/-- Reads a class expression, or an attribute with the semicolon after it. -/
def selection : Parser Selection := do
  if (← nextKind?) = some .guard then return .guard (← guard)
  else
    let value ← assignment true
    let _ ← leaf .semicolon (some 2)
    return .assignment value

/-- Reads the promise types of a bundle, with the braces. -/
def statements : Parser (ItemList PromiseType) := do
  let start ← atNext
  let opening ← leaf .openBrace none
  let items ← many (· = .promiseType) promiseType
  let closing ← leaf .closeBrace none
  group start (some opening) items (some closing)

/-- Reads what stands in a body, with the braces. A body is never empty. -/
def selections : Parser (ItemList Selection) := do
  let start ← atNext
  let opening ← leaf .openBrace none
  let first ← selection
  let rest ← many (fun kind => kind = .guard || kind = .ident) selection
  let closing ← leaf .closeBrace none
  group start (some opening) (first :: rest) (some closing)

/-- Reads the parameters of a block. Without brackets there are none. -/
def parameters : Parser (ItemList Leaf) := do
  if (← nextKind?) = some .openParen then
    parenthesised (· = .ident) (leaf .ident (some 0))
  else
    let start ← afterNext
    group start none [] none

/-- Reads a bundle or a body. -/
def block : Parser Block := do
  let start ← atNext
  let isBundle := (← nextKind?) = some .bundle
  let keyword ← leaf (if isBundle then .bundle else .body)
  let type ← leaf .ident
  let name ← leaf .ident
  let parameters ← parameters
  let contents ←
    if isBundle then do pure (Contents.bundle (← statements))
    else do pure (Contents.body (← selections))
  return { traits := { span := ← spanFrom start }, keyword, type, name, parameters, contents }

/-- Reads a whole policy file. -/
def specification : Parser Specification := do
  let start ← afterNext
  let blocks ← many (fun kind => kind = .bundle || kind = .body) block
  let _ ← afterLast
  group start none blocks none
where
  /-- Refuses anything that is left of the text. -/
  afterLast : Parser Unit := fun input =>
    match input.tokens, input.ending with
    | [], .complete _ _ => .ok ((), input)
    | _, _ => refuse input

end Parser

/-- The tree of a scanned text, without comments. -/
def Scan.parse (scan : Scan) : Except Refusal Specification := do
  let input : Input := { tokens := scan.tokens, ending := scan.ending }
  let (specification, _) ← Parser.specification input
  return specification

end PolicyFormat.Policy
