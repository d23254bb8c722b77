import PolicyFormat.Datum.Basic
import PolicyFormat.Policy.Span

/-!
What stands on the stack of a parser: symbols with a value and a place in the text.
-/
namespace PolicyFormat.Lr

open Policy (Span)

/-- A token of the input. One that does not know its line has none. -/
structure Token where
  type : String
  value : Datum
  line : Option Int
  offset : Int
deriving Repr, BEq

/-- The value of a symbol: that of a token, a token that did not fit, or a node of the parse tree with the
values and the places of its parts. -/
inductive Value where
  | datum (d : Datum)
  | token (t : Token)
  | node (rule : Nat) (values : List Value) (spans : List Span)
deriving Repr

def Value.nothing : Value := .datum .nothing

/-- A token in the form in which logs show it, if it knows its line. -/
def Token.shown? (t : Token) : Option String :=
  t.line.map fun line =>
    "LexToken(" ++ t.type ++ "," ++ t.value.shown ++ "," ++ toString line ++ "," ++ toString t.offset ++ ")"

/-- A place in the form in which logs show it. -/
def shownSpan (s : Span) : String :=
  Text.bracketed [toString s.startLine, toString s.endLine, toString s.start, toString s.stop]

mutual

/-- A value inside a node in the form in which logs show it. -/
def Value.shownPart : Value → String
  | .datum d => d.shown
  | .token t =>
    "\x7b'token': " ++ Text.bracketed [Text.quote t.type, t.value.shown,
      (t.line.map toString).getD "None", toString t.offset] ++ "\x7d"
  | .node rule values spans =>
    "\x7b'rule': " ++ toString rule ++ ", 'values': [" ++ String.intercalate ", " (shownParts values)
      ++ "], 'spans': " ++ Text.bracketed (spans.map shownSpan) ++ "\x7d"

def shownParts : List Value → List String
  | [] => []
  | v :: rest => v.shownPart :: shownParts rest

end

def Value.shown : Value → String
  | .token t => t.shown?.getD ""
  | v => v.shownPart

def Value.kind : Value → String
  | .datum d => d.kind
  | .token _ => "LexToken"
  | .node .. => "dict"

/-- A value among others in a log. A long one is only named by its kind. -/
def Value.entryText (v : Value) : String :=
  let s := v.shown
  if s.length < 16 then s else "<" ++ v.kind ++ " @ 0x>"

/-- The result of a reduction in a log, cut to forty characters. -/
def Value.resultText (v : Value) : String :=
  let s := v.shown
  let s := if s.length > 40 then (s.take 40).toString ++ " ..." else s
  "<" ++ v.kind ++ " @ 0x> (" ++ s ++ ")"

/-- A symbol on the stack or ahead of it. What it does not know is `none`. -/
structure Symbol where
  type : String
  value : Option Value := none
  line : Option Int := none
  endLine : Option Int := none
  offset : Option Int := none
  endOffset : Option Int := none
  isToken : Bool := false
deriving Repr

namespace Symbol

/-- The symbol for the end of the input, which is also the bottom of the stack. -/
def atEnd : Symbol := { type := "$end" }

def ofToken (t : Token) : Symbol :=
  { type := t.type, value := some (.datum t.value), line := t.line, offset := some t.offset, isToken := true }

def token (s : Symbol) : Token :=
  { type := s.type
    value := match s.value with
      | some (.datum d) => d
      | _ => .nothing
    line := s.line
    offset := s.offset.getD 0 }

/-- The symbol in the form in which logs show it, if it knows what is shown. -/
def shown? (s : Symbol) : Option String :=
  if s.isToken then s.token.shown? else some s.type

/-- The place of a symbol. What is not known counts as 0, and an end that is not known as the start. -/
def span (s : Symbol) : Span :=
  let line := s.line.getD 0
  let offset := s.offset.getD 0
  { startLine := line, endLine := s.endLine.getD line, start := offset, stop := s.endOffset.getD offset }

end Symbol

end PolicyFormat.Lr
