import PolicyFormat.Policy.Visit

/-!
Which nodes and comments had a blank line before them. Of the nodes that start on one line, the
first is the one that the blank line stands before.
-/
namespace PolicyFormat.Policy

/-- The numbers of the lines that hold only spaces, tabs and carriage returns. -/
def emptyLines (text : String) : List Int :=
  go 1 true text.toList
where
  /-- The same from within a line, which has been blank so far or not. -/
  go (line : Int) (blank : Bool) : List Char → List Int
  | [] => if blank then [line] else []
  | c :: rest =>
    if c == '\n' then
      let later := go (line + 1) true rest
      if blank then line :: later else later
    else go line (blank && (c == ' ' || c == '\t' || c == '\r')) rest

/-- Of the lines on which things start, in source order, marks those after a blank line. Things
that start on the same line as the one before are passed over, and of several that come back to a
line the last counts. -/
def markAfterBlank (isEmpty : Int → Bool) (starts : List Int) : List Bool :=
  (go (-1) starts).1
where
  /-- The marks, and the lines that later things start on. -/
  go (previous : Int) : List Int → List Bool × List Int
  | [] => ([], [])
  | line :: rest =>
    let (marks, later) := go line rest
    if line == previous then (false :: marks, later)
    else ((isEmpty (line - 1) && !later.contains line) :: marks, line :: later)

/-- Marks the comments that have a blank line before them. -/
def Comment.markAll (isEmpty : Int → Bool) (comments : List Comment) : List Comment :=
  let marks := markAfterBlank isEmpty (comments.map (·.span.startLine))
  (comments.zip marks).map (fun (c, mark) => if mark then { c with afterBlank := true } else c)

namespace Specification

/-- The lines on which the nodes start that take blank lines, with the comments above them. -/
def startLines (s : Specification) : List Int :=
  let note (takesBlank : Bool) (t : Traits) : StateM (List Int) Traits := do
    if takesBlank then modify (t.startLineWithComment :: ·)
    return t
  ((s.visit note).run []).2.reverse

def markBlankLines (isEmpty : Int → Bool) (s : Specification) : Specification :=
  let mark (takesBlank : Bool) (t : Traits) : StateM (List Bool) Traits := do
    if takesBlank then
      let marks ← get
      set marks.tail
      return if marks.head?.getD false then { t with afterBlank := true } else t
    else return t
  ((s.visit mark).run (markAfterBlank isEmpty s.startLines)).1

end Specification

end PolicyFormat.Policy
