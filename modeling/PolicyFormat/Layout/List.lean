import PolicyFormat.Layout.Comment

/-!
The layout of lists. Each kind of list has one or more styles, which are tried in turn.
-/
namespace PolicyFormat.Layout

open Policy

/-- The kinds of lists in a policy file. -/
inductive ListKind where
  | braced
  | arguments
  | specification
  | promiseTypes
  | selections
  | clauses
  | constraints
deriving Repr, DecidableEq

/-- What an entry of a list is to the layout of the list. A statement is what class expressions
of that kind of list guard. -/
inductive Role where
  | guard
  | statement
  | comment
  | other
deriving Repr, DecidableEq

/-- An entry as the layout of a list sees it. -/
structure Piece where
  role : Role
  column : Int := 0
  hasComments : Bool
  lines : Frame → Lines

namespace Piece

/-- A comment that stands by itself in a list. -/
def ofComment (c : Comment) : Piece :=
  { role := .comment, column := c.column, hasComments := false, lines := commentLines c }

/-- An element of a list. -/
def ofItem (role : Role) (t : Traits) (lines : Frame → Lines) : Piece :=
  { role, hasComments := !t.comments.isEmpty, lines }

/-- The entry at the given place is moved to the right by this much. -/
abbrev Depth := List Piece → Nat → Piece → Int

end Piece

/-- How the entries of a list are put together: what stands between them, after each, around them
and in place of them if there are none; the marks after each entry and after the last; whether
entries keep the blank line before them, the first one apart; and how far they are indented. -/
structure ListStyle where
  between : List Line := []
  after : List Line := []
  empty : List Line := [{ text := "" }]
  opening : List Line := []
  closing : List Line := []
  mark : String := ""
  lastMark : String := ""
  keepsBlank : (isFirst : Bool) → Option Bool := fun _ => none
  depth : Piece.Depth := fun _ _ _ => 0

/-- Puts the entries of a list together. Comments get no mark. -/
def ListStyle.format (style : ListStyle) (pieces : List Piece) (f : Frame) : Lines := do
  if pieces.isEmpty then return style.empty
  let last := pieces.length - 1
  let runs ← (pieces.zipIdx).mapM fun (piece, i) => do
    let mark :=
      if piece.role = .comment then "" else if i = last then style.lastMark else style.mark
    let depth := style.depth pieces i piece
    let lines ← piece.lines (f.child depth (style.keepsBlank (i == 0)))
    return joinLines [[{ text := "", indent := some depth }], lines, [{ text := mark }], style.after]
  return joinLines [style.opening, joinLines (runs.intersperse style.between), style.closing]

def bracedInline : ListStyle where
  between := [{ text := " " }]
  mark := ","
  empty := [{ text := "\x7b\x7d" }]
  opening := [{ text := "\x7b " }]
  closing := [{ text := " \x7d" }]
  keepsBlank _ := some false

def bracedLined : ListStyle where
  after := lineBreak
  mark := ","
  lastMark := ","
  empty := [{ text := "\x7b\x7d" }]
  opening := [{ text := "\x7b" }, { text := "" }]
  closing := [{ text := "\x7d" }]
  keepsBlank isFirst := some (!isFirst)

def emptyArguments (f : Frame) : List Line :=
  if f.allowsBraceless then [{ text := "" }] else [{ text := "()" }]

def argumentsInline (f : Frame) : ListStyle where
  between := [{ text := " " }]
  mark := ","
  empty := emptyArguments f
  opening := [{ text := "(" }]
  closing := [{ text := ")" }]

def argumentsLined (f : Frame) : ListStyle where
  between := lineBreak
  mark := ","
  lastMark := ")"
  empty := emptyArguments f
  opening := [{ text := "(" }]
  depth _ _ _ := 1

/-- The indentation of a comment in a list of class expressions and statements. It is that of
statements if a statement comes before the next class expression. At the start of the list it is
that of class expressions. Otherwise it is what the comment's own column suggests. -/
def commentDepth (guardTabs : Int) (pieces : List Piece) (i : Nat) (column : Int) : Int :=
  let later := (pieces.drop i).find? (fun p => p.role = .guard || p.role = .statement)
  if later.any (·.role = .statement) then 2
  else if !(pieces.take (i + 1)).any (·.role = .statement) then 1
  else if column ≤ tabSize * guardTabs then 1
  else 2

/-- Class expressions are indented by one level and what they guard by two. -/
def guardedDepth (guardTabs : Int) : Piece.Depth := fun pieces i piece =>
  let level : Int :=
    match piece.role with
    | .guard => 1
    | .comment => commentDepth guardTabs pieces i piece.column
    | _ => 2
  level * tabSize

def notBeforeFirst (isFirst : Bool) : Option Bool :=
  if isFirst then some false else none

/-- The promise types of a bundle, with an empty line between them. -/
def promiseTypesStyle : ListStyle where
  between := lineBreak
  after := lineBreak
  empty := [{ text := " \x7b" }, { text := "\x7d" }]
  opening := [{ text := " \x7b" }, { text := "" }]
  closing := [{ text := "\x7d" }]
  depth _ _ _ := tabSize

/-- What stands in a body. -/
def selectionsStyle : ListStyle where
  after := lineBreak
  empty := [{ text := " \x7b" }, { text := "\x7d" }]
  opening := [{ text := " \x7b" }, { text := "" }]
  closing := [{ text := "\x7d" }]
  keepsBlank := notBeforeFirst
  depth := guardedDepth 1

/-- The blocks of a file, with an empty line between them. -/
def specificationStyle : ListStyle where
  between := lineBreak
  after := lineBreak

/-- What stands under a promise type. -/
def clausesStyle : ListStyle where
  between := lineBreak
  keepsBlank := notBeforeFirst
  depth := guardedDepth 2

/-- The attributes of a promise. -/
def constraintsStyle : ListStyle where
  between := lineBreak
  mark := ","
  lastMark := ";"
  empty := [{ text := ";" }]

/-- Puts braces that have comments into the style of a block. The opening brace then stands on a
line of its own. -/
def withBraces (style : ListStyle) (opening closing : Option Leaf) (f : Frame) :
    Except LayoutError ListStyle := do
  let commented (leaf : Option Leaf) : Option Leaf :=
    leaf.filter (fun l => !l.traits.comments.isEmpty)
  if (commented opening).isNone && (commented closing).isNone then return style
  let (style, start) ←
    match commented opening with
    | some leaf => do
      let start := { text := "" } :: (← leafLines leaf f)
      pure ({ style with opening := start ++ [{ text := "" }] }, start)
    | none => pure (style, [{ text := " \x7b" }])
  match commented closing with
  | some leaf =>
    let stop ← leafLines leaf f
    return { style with closing := stop, empty := start ++ stop }
  | none => return { style with empty := start ++ [{ text := "\x7d" }] }

/-- A list with comments in it is never put on one line, and a list of one element is always. -/
def inlineOrLined (inlined lined : ListStyle) (pieces : List Piece) : List ListStyle :=
  if pieces.any (fun p => p.hasComments || p.role = .comment) then [lined]
  else if 1 < pieces.length then [inlined, lined]
  else [inlined]

/-- The styles of a list in the order in which they are tried. -/
def ListKind.styles (kind : ListKind) (opening closing : Option Leaf) (pieces : List Piece)
    (f : Frame) : Except LayoutError (List ListStyle) := do
  match kind with
  | .braced => return inlineOrLined bracedInline bracedLined pieces
  | .arguments => return inlineOrLined (argumentsInline f) (argumentsLined f) pieces
  | .specification => return [specificationStyle]
  | .promiseTypes => return [← withBraces promiseTypesStyle opening closing f]
  | .selections => return [← withBraces selectionsStyle opening closing f]
  | .clauses => return [clausesStyle]
  | .constraints => return [constraintsStyle]

def listLines (kind : ListKind) (t : Traits) (opening closing : Option Leaf) (pieces : List Piece)
    (f : Frame) : Lines :=
  withComments t (fun f => do
    let styles ← kind.styles opening closing pieces f
    firstThatFits f (styles.map (fun style => style.format pieces))) f

/-- The lines of a list whose elements are laid out by `piece`. -/
def groupLines {α : Type} (kind : ListKind) (piece : α → Piece) (g : ItemList α) (f : Frame) : Lines :=
  let pieces := g.entries.map fun
    | .item value => piece value
    | .comment c => Piece.ofComment c
  listLines kind g.traits g.opening g.closing pieces f

end PolicyFormat.Layout
