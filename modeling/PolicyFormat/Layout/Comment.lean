import PolicyFormat.Layout.Frame
import PolicyFormat.Policy.Tree

/-!
The layout of comments, and of a node together with its comments.
-/
namespace PolicyFormat.Layout

open Policy

/-- A line of a comment: a number sign, one space and the text. A lone sign stays, and so does a
line that starts with two signs or with a sign and a dash or an equals sign. -/
def commentLine (line : String) : Except LayoutError Line :=
  match line.toList with
  | [] => .ok ⟨"#", some 0, []⟩
  | [_] => .ok ⟨"#", some 0, []⟩
  | '#' :: c :: rest =>
    if c == '#' || c == '-' || c == '=' then .ok ⟨line, some 0, []⟩
    else
      let text := if c == '\t' || c == ' ' then rest else c :: rest
      .ok ⟨"# " ++ String.ofList (text.takeWhile (· != '\n')), some 0, []⟩
  | _ => .error .malformedComment

/-- The blank line before a node or a comment, if there was one and it is kept. -/
def blankBefore (f : Frame) (afterBlank keepsBlank : Bool) : List Line :=
  if afterBlank && f.keepsBlank.getD keepsBlank then [{ text := "" }] else []

def commentLines (c : Comment) (f : Frame) : Lines := do
  let own ← c.lines.mapM commentLine
  return f.indentRest (blankBefore f c.afterBlank c.keepsBlank ++ own)

/-- The lines of a node: the blank line before it, the comments above it, its own lines and the
comment at their end. -/
def withComments (t : Traits) (own : Frame → Lines) (f : Frame) : Lines := do
  let blank := blankBefore f t.afterBlank t.keepsBlank
  if t.comments.isEmpty then
    return f.indentRest (blank ++ (← own f))
  else
    let tail ←
      match t.tail? with
      | some (_, c) => do pure (joinLines [[{ text := " " }], ← commentLines c f.child])
      | none => pure []
    let above ←
      match Comment.merge? t.leading with
      | some c => commentLines c f.child
      | none => pure []
    let lines := joinLines [← own f, [{ text := "", tail := tail.map (·.text) }]]
    return f.indentRest (blank ++ above ++ lines)

def leafLines (leaf : Leaf) (f : Frame) : Lines :=
  withComments leaf.traits (fun _ => .ok [⟨leaf.text, some 0, []⟩]) f

end PolicyFormat.Layout
