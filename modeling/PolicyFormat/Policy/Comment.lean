import PolicyFormat.Text.Color
import PolicyFormat.Text.Index
import PolicyFormat.Policy.Span
import PolicyFormat.Policy.Token

/-!
Comments of a policy file: what they are, and how comment tokens are grouped into them.
-/
namespace PolicyFormat.Policy

/-- What a comment belongs to: the code before it on its line, nothing, or the code after it. -/
inductive Affinity where
  | endOfLine
  | standalone
  | nextNode
deriving Repr, DecidableEq, Inhabited

/-- A comment of one or more lines. `column` is the number of characters before it on its line,
and `rank` decides which of several comments may stand at the end of a line. -/
structure Comment where
  span : Span
  lines : List String
  affinity : Option Affinity
  column : Int
  rank : Int := 0
  afterBlank : Bool := false
  keepsBlank : Bool := false
deriving Repr, DecidableEq, Inhabited

def Affinity.word : Affinity → String
  | .endOfLine => "end-of-line"
  | .standalone => "standalone"
  | .nextNode => "next-node"

namespace Comment

/-- A comment as it is shown in a log: rank, affinity and lines. Lines about promises are green. -/
def describe (c : Comment) : String :=
  let word := match c.affinity with
    | some a => a.word
    | none => "None"
  let shown := c.lines.map fun line =>
    if Text.occursIn "promise".toList line.toList then Text.green line else line
  "p" ++ toString c.rank ++ " (" ++ word ++ ") " ++ String.intercalate "," shown

def isEndOfLine (c : Comment) : Bool :=
  c.affinity == some .endOfLine

def isStandalone (c : Comment) : Bool :=
  c.affinity == some .standalone

/-- A line put before a comment. A comment at the end of a line has one line only. -/
def addBefore? (line : String) (startLine start : Int) (c : Comment) : Option Comment :=
  if c.isEndOfLine then none
  else some { c with
    lines := line :: c.lines
    span := { c.span with startLine := startLine, start := start } }

/-- Two comments made one. All but lines and end is that of the first. -/
def append (c d : Comment) : Comment :=
  { c with
    lines := c.lines ++ d.lines
    span := { c.span with endLine := d.span.endLine, stop := d.span.stop } }

def merge? : List Comment → Option Comment
  | [] => none
  | c :: rest => some (rest.foldl append c)

end Comment

namespace CommentToken

/-- How many characters stand before the token on its line. -/
def column (text : List Char) (t : CommentToken) : Int :=
  t.offset - Text.previousLineFeed text t.offset - 1

/-- Something other than spaces and tabs stands before the token on its line. -/
def followsCode (text : List Char) (t : CommentToken) : Bool :=
  let start := max (Text.previousLineFeed text t.offset) 0
  ((text.take t.offset.toNat).drop start.toNat).any (fun c => c != '\t' && c != ' ' && c != '\n')

def toComment (text : List Char) (affinity : Option Affinity) (t : CommentToken) : Comment :=
  { span := ⟨t.line, t.line, t.offset, t.stop⟩
    lines := [t.text]
    affinity := affinity
    column := t.column text }

end CommentToken

namespace Comment

/-- Takes the comment tokens from last to first. `open?` is the comment that may still get lines
put before it, and `done` the finished ones, which follow it. -/
def groupFrom (text : List Char) (finish : Comment → Comment) :
    (open? : Option Comment) → (done : List Comment) → (reversed : List CommentToken) → List Comment
  | open?, done, [] => (open?.map finish).toList ++ done
  | open?, done, t :: rest =>
    if t.followsCode text then
      groupFrom text finish none
        (t.toComment text (some .endOfLine) :: (open?.map finish).toList ++ done) rest
    else
      match open?.filter (fun c => c.span.startLine - 1 == t.line) with
      | some c =>
        let joined := (c.addBefore? t.text t.line t.offset).getD c
        groupFrom text finish (some joined) done rest
      | none =>
        groupFrom text finish (some (t.toComment text none)) ((open?.map finish).toList ++ done) rest

/-- Groups comment tokens: one that follows code on its line is a comment by itself, and all
others that stand on consecutive lines are one comment. Such a comment is standalone if a blank
line or the end of the text follows it. -/
def group (text : List Char) (isEmptyLine : Int → Bool) (lastLine : Int)
    (tokens : List CommentToken) : List Comment :=
  let finish (c : Comment) : Comment :=
    if isEmptyLine (c.span.endLine + 1) || c.span.endLine == lastLine then
      { c with affinity := some .standalone }
    else { c with affinity := some .nextNode }
  groupFrom text finish none [] tokens.reverse

end Comment

end PolicyFormat.Policy
