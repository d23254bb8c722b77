import PolicyFormat.Proofs.Likeness

/-! The inks of comments, of nodes with their comments and of lists, as they are laid out. -/
namespace PolicyFormat.Layout

open Policy

variable {f : Frame} {t : Traits} {c : Comment} {lines : List Line} {R : Ink → Prop} {α : Type}

/-! ### Comments -/

variable {line : String}

theorem normalNote_cons {c : Char} {rest : List Char} (h : line.toList = '#' :: c :: rest) :
    normalNote line = if c = '#' ∨ c = '-' ∨ c = '=' then line
      else "# " ++ String.ofList (if c = '\t' ∨ c = ' ' then rest else c :: rest) := by
  simp only [normalNote, h]

theorem commentLine_eq (h : IsNote line) : commentLine line = .ok ⟨normalNote line, some 0, []⟩ := by
  obtain ⟨rest, hLine, hRest⟩ := h
  cases rest with
  | nil => simp [commentLine, normalNote, hLine]
  | cons c rest =>
    have hText : (if c = '\t' ∨ c = ' ' then rest else c :: rest).takeWhile (· != '\n') =
        if c = '\t' ∨ c = ' ' then rest else c :: rest := by
      rw [List.takeWhile_eq_self_iff.2]
      intro d hd
      have hMem : d ∈ c :: rest := by
        split at hd
        · exact List.mem_cons_of_mem c hd
        · exact hd
      simpa using fun h : d = '\n' => hRest (h ▸ hMem)
    rw [commentLine, hLine, normalNote_cons hLine]
    simp only [Bool.or_eq_true, beq_iff_eq, or_assoc, hText]
    split <;> rfl

theorem isNote_normalNote (h : IsNote line) : IsNote (normalNote line) := by
  obtain ⟨rest, hLine, hRest⟩ := h
  cases rest with
  | nil => exact ⟨[], by simp [normalNote, hLine], by simp⟩
  | cons c rest =>
    rw [normalNote_cons hLine]
    split
    · exact ⟨c :: rest, hLine, hRest⟩
    · refine ⟨' ' :: if c = '\t' ∨ c = ' ' then rest else c :: rest, by simp, ?_⟩
      split <;> simp_all

/-- The lines of a comment before they are indented. -/
def noteLines (c : Comment) : List Line :=
  c.lines.map (fun line => ⟨normalNote line, some 0, []⟩)

theorem mapM_commentLine (h : c.Legible) : c.lines.mapM commentLine = .ok (noteLines c) := by
  have hEach : ∀ lines : List String, (∀ line ∈ lines, IsNote line) →
      lines.mapM commentLine = .ok (lines.map (fun line => ⟨normalNote line, some 0, []⟩)) := by
    intro lines hLines
    induction lines with
    | nil => rfl
    | cons line lines ih =>
      rw [List.mapM_cons, commentLine_eq (hLines line (by simp)), ih (fun l hl => hLines l (by simp [hl]))]
      rfl
  exact hEach c.lines h.2

theorem commentLines_eq (h : c.Legible) (f : Frame) : commentLines c f =
      .ok (f.indentRest (blankBefore f c.afterBlank c.keepsBlank ++ noteLines c)) := by
  unfold commentLines
  rw [mapM_commentLine h]
  rfl

theorem noteLines_ne_nil (h : c.Legible) : noteLines c ≠ [] := by
  simpa [noteLines] using h.1

namespace Spells

theorem word (text : String) (indent : Option Int) : Spells [.word text] [⟨text, indent, []⟩] := by
  simp [Spells, rowsOf, Ink.rows, joinRows, Line.row, Mark.text, Mark.tails]

theorem blank (indent : Option Int) : Spells [] [⟨"", indent, []⟩] := rfl

theorem newline (first second : Option Int) : Spells [.newline] [⟨"", first, []⟩, ⟨"", second, []⟩] := rfl

theorem ownInk (c : Comment) : Spells c.ownInk (noteLines c) := by
  have hLines : ∀ lines : List String,
      Spells ((lines.map (fun line => Mark.note (normalNote line))).intersperse .newline)
        (lines.map (fun line => ⟨normalNote line, some 0, []⟩)) := by
    intro lines
    induction lines with
    | nil => rfl
    | cons line lines ih =>
      have hFirst : Spells [.note (normalNote line)] [⟨normalNote line, some 0, []⟩] := by
        simp [Spells, rowsOf, Ink.rows, joinRows, Line.row, Mark.text, Mark.tails]
      cases lines with
      | nil => exact hFirst
      | cons next lines => exact hFirst.append ih (by simp) (by simp)
  exact hLines c.lines

/-- Lines after a blank line, if that is kept. -/
theorem afterBlank {ink : Ink} (h : Spells ink lines) (hLines : lines ≠ []) (kept : Bool) :
    Spells (blankInk kept ++ ink) ((if kept then [{ text := "" }] else []) ++ lines) := by
  cases kept with
  | false => exact h
  | true => exact (blank none).append h (by simp) hLines

end Spells

theorem commentLines_inked (h : c.Legible) (f : Frame) : Inked (commentLines c f) (· = c.noted f.keepsBlank) := by
  have hLines := noteLines_ne_nil h
  refine ⟨_, commentLines_eq h f, indentRest_ne_nil f (by simp [hLines]), _, rfl, ?_⟩
  exact ((Spells.ownInk c).afterBlank hLines _).indentRest f

/-! ### Nodes with their comments -/

variable {i : Nat} {comments : List Comment} {own : Frame → Lines}

theorem lines_merge? (c : Comment) (rest : List Comment) :
    (rest.foldl Comment.append c).lines = c.lines ++ rest.flatMap (·.lines) := by
  induction rest generalizing c with
  | nil => simp
  | cons d rest ih => simp [ih, Comment.append]

theorem keepsBlank_merge? (c : Comment) (rest : List Comment) :
    (rest.foldl Comment.append c).keepsBlank = c.keepsBlank := by
  induction rest generalizing c with
  | nil => rfl
  | cons d rest ih => simp [ih, Comment.append]

theorem mem_of_mem_leading (h : c ∈ t.leading) : c ∈ t.comments := by
  obtain ⟨i, -, hi⟩ := List.mem_filterMap.1 h
  exact List.mem_of_getElem? hi

theorem getElem?_of_tail? (h : t.tail? = some (i, c)) : t.comments[i]? = some c := by
  have hMem := List.mem_of_find?_eq_some h
  simp only [Traits.tailCandidates, List.mem_reverse, List.mem_mergeSort, List.mem_mapIdx] at hMem
  obtain ⟨j, hj, hPair⟩ := hMem
  obtain ⟨rfl, rfl⟩ := Prod.mk.inj hPair
  exact List.getElem?_eq_getElem hj

theorem mem_of_tail? (h : t.tail? = some (i, c)) : c ∈ t.comments :=
  List.mem_of_getElem? (getElem?_of_tail? h)

theorem leading_of_comments_nil (h : t.comments = []) : t.leading = [] :=
  List.eq_nil_iff_forall_not_mem.2 fun c hc => by simpa [h] using mem_of_mem_leading hc

theorem tail?_of_comments_nil (h : t.comments = []) : t.tail? = none := by
  simp [Traits.tail?, Traits.tailCandidates, h]

/-- Without comments only the blank line before the node is added to its own ink. -/
theorem noted_of_comments_nil (h : t.comments = []) (keeps : Option Bool) (own : Ink) :
    t.noted keeps own = blankInk (t.afterBlank && keeps.getD t.keepsBlank) ++ own := by
  simp [Traits.noted, leading_of_comments_nil h, tail?_of_comments_nil h]

/-- A node that hands its comments on adds nothing to its own ink. -/
theorem noted_of_silent (h : t.Silent) (own : Ink) : t.noted none own = own := by
  simp [noted_of_comments_nil h.1, h.2, blankInk]

/-- The opening brace of a block stands behind a space, or on a line of its own if it has comments. -/
theorem openingInk_cases {P : Comment → Prop} {brace : Option Leaf} (h : BraceFormed P "\x7b" brace) :
    ∃ l gap, brace = some l ∧ l.text = "\x7b" ∧ l.traits.Keeps P ∧ openingInk brace = gap :: l.ink none ∧
      (gap = .space ∧ l.traits.comments = [] ∨ gap = .newline) := by
  obtain ⟨l, rfl, hText, hKeeps⟩ := h
  by_cases hNil : l.traits.comments = []
  · exact ⟨l, .space, rfl, hText, hKeeps, by
      simp [openingInk, Option.filter, Leaf.ink, noted_of_silent ⟨hNil, hKeeps.2⟩, hNil, hText], .inl ⟨rfl, hNil⟩⟩
  · exact ⟨l, .newline, rfl, hText, hKeeps, by simp [openingInk, Option.filter, hNil], .inr rfl⟩

theorem closingInk_eq {P : Comment → Prop} {brace : Option Leaf} (h : BraceFormed P "\x7d" brace) :
    ∃ l, brace = some l ∧ l.text = "\x7d" ∧ l.traits.Keeps P ∧ closingInk brace = l.ink none := by
  obtain ⟨l, rfl, hText, hKeeps⟩ := h
  refine ⟨l, rfl, hText, hKeeps, ?_⟩
  by_cases hNil : l.traits.comments = []
  · simp [closingInk, Option.filter, Leaf.ink, noted_of_silent ⟨hNil, hKeeps.2⟩, hNil, hText]
  · simp [closingInk, Option.filter, hNil]

/-- The lines that stand above a node. -/
def aboveLines (comments : List Comment) : List Line :=
  comments.flatMap noteLines

/-- Lines below comments. -/
theorem Spells.below {ink : Ink} (h : Spells ink lines) (hLines : lines ≠ []) (comments : List Comment) :
    Spells (comments.flatMap Comment.aboveInk ++ ink) (aboveLines comments ++ lines) := by
  have hNotes : ∀ notes : List String,
      Spells (notes.flatMap (fun line => [Mark.note (normalNote line), .newline]) ++ ink)
        (notes.map (fun line => ⟨normalNote line, some 0, []⟩) ++ lines) := by
    intro notes
    induction notes with
    | nil => exact h
    | cons line notes ih =>
      have hFirst : Spells [.note (normalNote line)] [⟨normalNote line, some 0, []⟩] := by
        simp [Spells, rowsOf, Ink.rows, joinRows, Line.row, Mark.text, Mark.tails]
      exact hFirst.append ih (by simp) (by simp [hLines])
  have hAll := hNotes (comments.flatMap (·.lines))
  rw [List.flatMap_assoc, List.map_flatMap] at hAll
  exact hAll

theorem noteLines_merge? (c : Comment) (rest : List Comment) :
    noteLines (rest.foldl Comment.append c) = aboveLines (c :: rest) := by
  rw [noteLines, lines_merge?, List.map_append, List.map_flatMap]
  rfl

/-- The lines of the comments above a node. They are laid out as one. -/
def above (comments : List Comment) (f : Frame) : Lines :=
  match Comment.merge? comments with
  | some c => commentLines c f.child
  | none => pure []

/-- The lines of the comment at the end of a node, with the space before it. -/
def tailing (found : Option (Nat × Comment)) (f : Frame) : Lines :=
  match found with
  | some (_, c) => do pure (joinLines [[{ text := " " }], ← commentLines c f.child])
  | none => pure []

/-- The lines of a node with its comments, but without the blank line before it. -/
def framed (t : Traits) (own : Frame → Lines) (f : Frame) : Lines :=
  if t.comments = [] then own f
  else do
    let tail ← tailing t.tail? f
    let above ← above t.leading f
    let lines ← own f
    return above ++ joinLines [lines, [{ text := "", tail := tail.map (·.text) }]]

theorem withComments_eq (t : Traits) (own : Frame → Lines) (f : Frame) : withComments t own f =
      (fun lines => f.indentRest (blankBefore f t.afterBlank t.keepsBlank ++ lines)) <$> framed t own f := by
  unfold withComments framed tailing above
  by_cases h : t.comments = []
  · simp [h]
  · simp only [List.isEmpty_iff, h, if_false]
    cases t.tail? <;> cases Comment.merge? t.leading <;> simp

theorem indentRest_eq_self (hIndent : f.indent = 0) (h : ∀ l ∈ lines, l.indent = some 0) :
    f.indentRest lines = lines := by
  cases lines with
  | nil => rfl
  | cons l rest =>
    have hRest : rest.map (fun l => { l with indent := some (l.indent.getD 0 + f.indent) }) = rest := by
      rw [List.map_congr_left (g := id), List.map_id]
      intro l hl
      obtain ⟨text, indent, tail⟩ := l
      obtain rfl : indent = some 0 := h _ (List.mem_cons_of_mem l hl)
      simp [hIndent]
    rw [Frame.indentRest, hRest]

theorem indent_of_mem_aboveLines {l : Line} (h : l ∈ aboveLines comments) : l.indent = some 0 := by
  simp only [aboveLines, noteLines, List.mem_flatMap, List.mem_map] at h
  obtain ⟨c, -, line, -, rfl⟩ := h
  rfl

theorem above_eq (h : ∀ c ∈ comments, c.Legible ∧ c.keepsBlank = false) (f : Frame) :
    above comments f = .ok (aboveLines comments) := by
  cases comments with
  | nil => rfl
  | cons c rest =>
    have hLegible : (rest.foldl Comment.append c).Legible := by
      refine ⟨?_, ?_⟩
      · simp [lines_merge?, (h c (by simp)).1.1]
      · intro line hLine
        simp only [lines_merge?, List.mem_append, List.mem_flatMap] at hLine
        rcases hLine with hLine | ⟨d, hd, hLine⟩
        · exact (h c (by simp)).1.2 line hLine
        · exact (h d (by simp [hd])).1.2 line hLine
    have hKeeps : (rest.foldl Comment.append c).keepsBlank = false := by
      rw [keepsBlank_merge?, (h c (by simp)).2]
    have hLines : above (c :: rest) f = commentLines (rest.foldl Comment.append c) f.child := rfl
    have hBlank (afterBlank : Bool) :
        blankBefore f.child afterBlank (rest.foldl Comment.append c).keepsBlank = [] := by
      simp [blankBefore, Frame.child, hKeeps]
    have hFlush : f.child.indentRest (aboveLines (c :: rest)) = aboveLines (c :: rest) :=
      indentRest_eq_self rfl fun l => indent_of_mem_aboveLines
    rw [hLines, commentLines_eq hLegible, noteLines_merge?, hBlank, List.nil_append, hFlush]

theorem Spells.tails {tail : List Line} (h : tail.map (·.text) = match c.lines with
    | [] => []
    | line :: rest => (" " ++ normalNote line) :: rest.map normalNote) :
    Spells c.tailInk [{ text := "", tail := tail.map (·.text) }] := by
  rw [h, Comment.tailInk]
  have hRest : ∀ lines : List String, Ink.rows (lines.map (fun line => Mark.tail false (normalNote line))) =
        [("", lines.map normalNote)] := by
    intro lines
    induction lines with
    | nil => rfl
    | cons line lines ih => simp [Ink.rows, ih, joinRows, Mark.text, Mark.tails]
  cases c.lines with
  | nil => rfl
  | cons line rest => simp [Spells, rowsOf, Line.row, Ink.rows, hRest, joinRows, Mark.text, Mark.tails]

theorem tailing_eq (h : t.Holds Comment.Legible) (f : Frame) : ∃ tail, tailing t.tail? f = .ok tail ∧
      Spells (t.tail?.elim [] (·.2.tailInk)) [{ text := "", tail := tail.map (·.text) }] := by
  cases hTail : t.tail? with
  | none => exact ⟨[], rfl, Spells.blank none⟩
  | some found =>
    obtain ⟨i, c⟩ := found
    obtain ⟨hLegible, hKeeps⟩ := h c (mem_of_tail? hTail)
    refine ⟨joinLines [[{ text := " " }], f.child.indentRest (noteLines c)], ?_, ?_⟩
    · rw [tailing, commentLines_eq hLegible]
      simp [blankBefore, Frame.child, hKeeps]
    · apply Spells.tails
      obtain ⟨line, rest, hLines⟩ := List.exists_cons_of_ne_nil hLegible.1
      simp [noteLines, hLines, joinLines, joinTwo, Frame.indentRest, Line.join, Function.comp_def]

theorem framed_inked (hHolds : t.Holds Comment.Legible) (hOwn : Inked (own f) R) :
    Inked (framed t own f) (fun ink => ∃ inner, R inner ∧
      ink = t.leading.flatMap Comment.aboveInk ++ inner ++ t.tail?.elim [] (·.2.tailInk)) := by
  obtain ⟨lines, hLines, hNonempty, inner, hInner, hSpells⟩ := hOwn
  by_cases hComments : t.comments = []
  · refine ⟨lines, by rw [framed, if_pos hComments, hLines], hNonempty, inner, ⟨inner, hInner, ?_⟩, hSpells⟩
    simp [leading_of_comments_nil hComments, tail?_of_comments_nil hComments]
  · obtain ⟨tail, hTail, hTailSpells⟩ := tailing_eq hHolds f
    have hAbove := above_eq (fun c hc => hHolds c (mem_of_mem_leading hc)) f
    have hJoined : Spells (inner ++ t.tail?.elim [] (·.2.tailInk))
        (joinLines [lines, [{ text := "", tail := tail.map (·.text) }]]) :=
      hSpells.joinTwo hTailSpells
    have hLast : joinLines [lines, [{ text := "", tail := tail.map (·.text) }]] ≠ [] :=
      joinLines_ne_nil ⟨lines, by simp, hNonempty⟩
    refine ⟨_, by rw [framed, if_neg hComments, hTail, hAbove, hLines]; rfl, by simp [hLast], _,
      ⟨inner, hInner, rfl⟩, ?_⟩
    rw [List.append_assoc]
    exact hJoined.below hLast t.leading

theorem withComments_inked (hHolds : t.Holds Comment.Legible)
    (hOwn : Inked (own f) (fun inner => R (t.noted f.keepsBlank inner))) : Inked (withComments t own f) R := by
  obtain ⟨lines, hLines, hNonempty, _, ⟨inner, hInner, rfl⟩, hSpells⟩ := framed_inked hHolds hOwn
  refine ⟨_, by rw [withComments_eq, hLines]; rfl, indentRest_ne_nil f (by simp [hNonempty]), _, hInner, ?_⟩
  have hAll := hSpells.afterBlank hNonempty (t.afterBlank && f.keepsBlank.getD t.keepsBlank)
  simpa [Traits.noted, blankBefore] using hAll.indentRest f

/-! ### Lists -/

variable {β γ : Type} {pieces others : List Piece} {ink : InkStyle} {style : ListStyle} {piece : α → Piece}
  {entries : List (Entry α)} {first : Ink}

theorem Spells.joinCons {a b : Ink} {run : List Line} {runs : List (List Line)} (ha : Spells a run)
    (hb : Spells b (Layout.joinLines runs)) : Spells (a ++ b) (Layout.joinLines (run :: runs)) := by
  rw [joinLines_cons]
  exact ha.joinTwo hb

theorem mapM_cons_ok {g : β → Except LayoutError γ} {b : β} {bs : List β} {c : γ} {cs : List γ} (h : g b = .ok c)
    (hs : bs.mapM g = .ok cs) : (b :: bs).mapM g = .ok (c :: cs) := by
  rw [List.mapM_cons, h, hs]
  rfl

/-- All that the layout of a list looks at before it lays out an entry. -/
def Piece.outline (p : Piece) : Role × Int × Bool :=
  (p.role, p.column, p.hasComments)

/-- An entry as a piece of its list. -/
def entryPiece {α : Type} (piece : α → Piece) : Entry α → Piece
  | .item x => piece x
  | .comment c => Piece.ofComment c

/-- Changes the element, if the entry is one. -/
def mapEntry {α β : Type} (f : α → β) : Entry α → Entry β
  | .item x => .item (f x)
  | .comment c => .comment c

/-- How much a layout shows: what `plain` forgets may be lost, and of what is quiet, nothing counts
but what makes it alike to something else. -/
structure Sight (α : Type) where
  plain : α → α
  Quiet : α → Prop
  Alike : α → α → Prop

/-- The layout of something quiet is that of everything quiet that is alike to what was shown of it. -/
def Sight.Firm {α : Type} (s : Sight α) (lay : α → Lines) (x y : α) : Prop :=
  s.Quiet x → s.Alike y x ∧ ∀ z, s.Quiet z → s.Alike y z → lay z = lay x

/-- Something that differs only in what `plain` forgets has the same layout, and one of the inks. -/
def Shown {α : Type} (s : Sight α) (lay : α → Lines) (R : α → Ink → Prop) (x : α) : Prop :=
  ∃ y, s.plain y = s.plain x ∧ lay y = lay x ∧ s.Firm lay x y ∧ Inked (lay x) (R y)

section

variable {α : Type} {s : Sight α} {lay : α → Lines} {R S : α → Ink → Prop} {x : α}

/-- Something that is shown as it is. -/
theorem Shown.self (hFirm : s.Firm lay x x) (h : Inked (lay x) (R x)) : Shown s lay R x :=
  ⟨x, rfl, rfl, hFirm, h⟩

theorem Shown.mono (h : Shown s lay R x) (hMore : ∀ y own, s.plain y = s.plain x → R y own → S y own) :
    Shown s lay S x := by
  obtain ⟨y, hPlain, hSame, hFirm, hInked⟩ := h
  exact ⟨y, hPlain, hSame, hFirm, hInked.mono (fun own => hMore y own hPlain)⟩

end

/-- There are no comments between the elements of a list, and these are quiet. -/
def EntriesQuiet {α : Type} (Quiet : α → Prop) (entries : List (Entry α)) : Prop :=
  (∀ c, .comment c ∉ entries) ∧ ∀ x, .item x ∈ entries → Quiet x

section

variable {α : Type} {Quiet : α → Prop} {entry : Entry α} {rest : List (Entry α)}

theorem EntriesQuiet.exists_item (h : EntriesQuiet Quiet (entry :: rest)) : ∃ x, entry = .item x := by
  cases entry with
  | item x => exact ⟨x, rfl⟩
  | comment c => exact absurd List.mem_cons_self (h.1 c)

theorem EntriesQuiet.eq_items (h : EntriesQuiet Quiet rest) : rest = (rest.filterMap Entry.item?).map .item :=
  Entry.eq_map_items h.1

theorem EntriesQuiet.head {x : α} (h : EntriesQuiet Quiet (.item x :: rest)) : Quiet x :=
  h.2 x List.mem_cons_self

theorem EntriesQuiet.tail (h : EntriesQuiet Quiet (entry :: rest)) : EntriesQuiet Quiet rest :=
  ⟨fun c hc => h.1 c (List.mem_cons_of_mem _ hc), fun x hx => h.2 x (List.mem_cons_of_mem _ hx)⟩

end

section

variable {α : Type} {plain : α → α} {Quiet : α → Prop} {keepsBlank : Bool → Option Bool}
  {A : Option Bool → α → α → Prop}

theorem entries_mapItems (f : α → α) (g : ItemList α) : (g.mapItems f).entries = g.entries.map (mapEntry f) := by
  apply List.map_congr_left
  intro entry _
  cases entry <;> rfl

variable {g : ItemList α}

theorem mapItems_eq_of_entries {others : List (Entry α)}
    (h : others.map (mapEntry plain) = g.entries.map (mapEntry plain)) :
    ItemList.mapItems plain { g with entries := others } = g.mapItems plain := by
  have hEntries : (ItemList.mapItems plain { g with entries := others }).entries = (g.mapItems plain).entries := by
    rw [entries_mapItems, entries_mapItems, h]
  exact congrArg (fun entries => { g with entries }) hEntries

/-- How much the layout of a list shows. -/
def Sight.list (plain : α → α) (Quiet : ItemList α → Prop) (keepsBlank : Bool → Option Bool)
    (A : Option Bool → α → α → Prop) : Sight (ItemList α) where
  plain := ItemList.mapItems plain
  Quiet
  Alike g l := EntriesAlike keepsBlank A true g.entries l.entries

/-- A list is shown if its entries are. -/
theorem Shown.ofEntries {lay : List (Entry α) → Lines} {R : List (Entry α) → Ink → Prop}
    {QuietList : ItemList α → Prop} (hQuiet : ∀ l, QuietList l → EntriesQuiet Quiet l.entries)
    (h : Shown ⟨List.map (mapEntry plain), EntriesQuiet Quiet, EntriesAlike keepsBlank A true⟩ lay R g.entries) :
    Shown (Sight.list plain QuietList keepsBlank A) (fun g => lay g.entries) (fun g => R g.entries) g := by
  obtain ⟨others, hOthers, hSame, hFirm, hInked⟩ := h
  refine ⟨{ g with entries := others }, mapItems_eq_of_entries hOthers, hSame, fun hg => ?_, hInked⟩
  obtain ⟨hAlike, hAll⟩ := hFirm (hQuiet g hg)
  exact ⟨hAlike, fun l hl => hAll l.entries (hQuiet l hl)⟩

/-- What holds of quiet things that are alike holds of the entries of lists that are. -/
theorem forall₂_of_entriesAlike {β : Type} {piece : Entry α → β} {S : β → β → Prop}
    (hPiece : ∀ keeps x y z, Quiet x → Quiet z → plain y = plain x → A keeps y z →
      S (piece (.item z)) (piece (.item x)))
    {isFirst : Bool} {xs ys zs : List (Entry α)} (h : EntriesAlike keepsBlank A isFirst ys zs)
    (hPlain : ys.map (mapEntry plain) = xs.map (mapEntry plain)) (hxs : EntriesQuiet Quiet xs)
    (hzs : EntriesQuiet Quiet zs) : List.Forall₂ S (zs.map piece) (xs.map piece) := by
  induction h generalizing xs with
  | nil =>
    obtain rfl := List.map_eq_nil_iff.1 hPlain.symm
    exact .nil
  | cons h _ ih =>
    obtain ⟨entry, rest, rfl, hHead, hTail⟩ := List.map_eq_cons_iff.1 hPlain.symm
    obtain ⟨x, rfl⟩ := hxs.exists_item
    have hSame := Entry.item.inj hHead
    exact .cons (hPiece _ x _ _ hxs.head hzs.head hSame.symm h) (ih hTail.symm hxs.tail hzs.tail)

end

/-- The style puts the ink between entries and after them, and indents entries by their outlines. -/
structure ListStyle.Draws (style : ListStyle) (ink : InkStyle) : Prop where
  mark : Spells ink.mark [{ text := style.mark }]
  lastMark : Spells ink.lastMark [{ text := style.lastMark }]
  between : Spells ink.between style.between
  after : Spells ink.after style.after
  keepsBlank : style.keepsBlank = ink.keepsBlank
  level : ∀ (pieces others : List Piece) (i : Nat) (p q : Piece),
    pieces.map Piece.outline = others.map Piece.outline → p.outline = q.outline →
    style.depth pieces i p = style.depth others i q

/-- The lines of one entry of a list, with what stands after it. -/
def ListStyle.entryLines (style : ListStyle) (depth : Nat → Piece → Int) (last : Nat) (f : Frame)
    (entry : Piece × Nat) : Lines := do
  let mark :=
    if entry.1.role = .comment then "" else if entry.2 = last then style.lastMark else style.mark
  let lines ← entry.1.lines (f.child (depth entry.2 entry.1) (style.keepsBlank (entry.2 == 0)))
  return joinLines [[{ text := "", indent := some (depth entry.2 entry.1) }], lines, [{ text := mark }], style.after]

theorem ListStyle.format_eq (style : ListStyle) (h : pieces ≠ []) (f : Frame) : style.format pieces f = do
      let runs ← pieces.zipIdx.mapM (style.entryLines (style.depth pieces) (pieces.length - 1) f)
      return joinLines [style.opening, joinLines (runs.intersperse style.between), style.closing] := by
  simp only [ListStyle.format, List.isEmpty_iff, h, if_false]
  rfl

section

variable {α : Type} {style : ListStyle} {ink : InkStyle} {piece : α → Piece} {plain : α → α}
  {Quiet : α → Prop} {A : Option Bool → α → α → Prop} {R : Option Bool → α → Ink → Prop} {f : Frame}

variable {own : Ink}

/-- The lines of an element of a list. -/
theorem ListStyle.Draws.item (hStyle : style.Draws ink) (depth : Nat → Piece → Int) (last i : Nat) {x : α}
    {lines : List Line} (hRole : (piece x).role ≠ .comment)
    (hLines : (piece x).lines (f.child (depth i (piece x)) (style.keepsBlank (i == 0))) = .ok lines)
    (hOwn : Spells own lines) :
    ∃ run, style.entryLines depth last f (piece x, i) = .ok run ∧ run ≠ [] ∧
      Spells (own ++ (if i = last then ink.lastMark else ink.mark) ++ ink.after) run := by
  refine ⟨_, by simp only [ListStyle.entryLines, hLines]; rfl, ?_, ?_⟩
  · exact joinLines_ne_nil ⟨_, List.mem_cons_self, by simp⟩
  have hMark : Spells (if i = last then ink.lastMark else ink.mark)
      [{ text := if i = last then style.lastMark else style.mark }] := by
    split
    · exact hStyle.lastMark
    · exact hStyle.mark
  simpa [hRole] using Spells.joinLines (.cons (Spells.blank _) (.cons hOwn (.cons hMark (.cons hStyle.after .nil))))

/-- The lines of a comment in a list. -/
theorem ListStyle.Draws.comment (hStyle : style.Draws ink) (depth : Nat → Piece → Int) (last i : Nat)
    {c : Comment} (hc : c.Legible) :
    ∃ run, style.entryLines depth last f (Piece.ofComment c, i) = .ok run ∧ run ≠ [] ∧
      Spells (c.noted (ink.keepsBlank (i == 0)) ++ ink.after) run := by
  obtain ⟨lines, hLines, -, own, rfl, hOwn⟩ := commentLines_inked hc
    (f.child (depth i (Piece.ofComment c)) (style.keepsBlank (i == 0)))
  have hPiece : (Piece.ofComment c).lines
      (f.child (depth i (Piece.ofComment c)) (style.keepsBlank (i == 0))) = .ok lines := hLines
  refine ⟨_, by simp only [ListStyle.entryLines, hPiece]; rfl, ?_, ?_⟩
  · exact joinLines_ne_nil ⟨_, List.mem_cons_self, by simp⟩
  rw [← hStyle.keepsBlank]
  have hRole : (Piece.ofComment c).role = .comment := rfl
  simpa [hRole, Frame.child] using Spells.joinLines
    (.cons (Spells.blank _) (.cons hOwn (.cons (Spells.blank none) (.cons hStyle.after .nil))))

/-- The inks of one entry of a list with what stands after it. -/
inductive EntryDrawn (ink : InkStyle) (R : Option Bool → α → Ink → Prop) (isFirst isLast : Bool) :
    Entry α → Ink → Prop where
  | item {x : α} {own : Ink} (hOwn : R (ink.keepsBlank isFirst) x own) : EntryDrawn ink R isFirst isLast (.item x)
        (own ++ (if isLast then ink.lastMark else ink.mark) ++ ink.after)
  | comment {c : Comment} :
      EntryDrawn ink R isFirst isLast (.comment c) (c.noted (ink.keepsBlank isFirst) ++ ink.after)

variable {isFirst : Bool}

theorem EntryDrawn.last {entry : Entry α} (h : EntryDrawn ink R isFirst true entry own) :
    EntriesInked ink R isFirst [entry] own := by
  cases h with
  | item hOwn => exact .lastItem hOwn
  | comment => exact .lastComment

variable {rest : List (Entry α)}

theorem EntryDrawn.cons {entry : Entry α} {more : Ink} (h : EntryDrawn ink R isFirst false entry own)
    (hMore : EntriesInked ink R false rest more) :
    EntriesInked ink R isFirst (entry :: rest) (own ++ (ink.between ++ more)) := by
  cases h with
  | item hOwn => simpa using EntriesInked.item hOwn hMore
  | comment => simpa using EntriesInked.comment hMore

/-- How the entries of a list look to the list, and how they are laid out. -/
structure PiecesShown (ink : InkStyle) (f : Frame) (piece : α → Piece) (plain : α → α) (Quiet : α → Prop)
    (A : Option Bool → α → α → Prop) (R : Option Bool → α → Ink → Prop) (entries : List (Entry α)) : Prop where
  role : ∀ x, (piece x).role ≠ .comment
  same : ∀ x, (piece (plain x)).outline = (piece x).outline
  quiet : ∀ x, Quiet x → (piece x).column = 0 ∧ (piece x).hasComments = false
  alike : ∀ keeps x y, A keeps x y → (piece x).role = (piece y).role
  items : ∀ x, .item x ∈ entries → ∀ depth isFirst, Shown ⟨plain, Quiet, A (ink.keepsBlank isFirst)⟩
      (fun x => (piece x).lines (f.child depth (ink.keepsBlank isFirst))) (R (ink.keepsBlank isFirst)) x
  comments : ∀ c, .comment c ∈ entries → c.Legible

section

variable {entries : List (Entry α)} (h : PiecesShown ink f piece plain Quiet A R entries)

include h

variable {x y : α}

theorem PiecesShown.outline (hPlain : plain x = plain y) : (piece x).outline = (piece y).outline := by
  rw [← h.same x, hPlain, h.same y]

theorem PiecesShown.outline_entry {a b : Entry α} (hPlain : mapEntry plain a = mapEntry plain b) :
    (entryPiece piece a).outline = (entryPiece piece b).outline := by
  cases a <;> cases b <;> simp only [mapEntry, Entry.item.injEq, Entry.comment.injEq, reduceCtorEq] at hPlain
  · exact h.outline hPlain
  · rw [hPlain]

theorem PiecesShown.look {keeps : Option Bool} {z : α} (hx : Quiet x) (hy : Quiet y) (hPlain : plain z = plain x)
    (hAlike : A keeps z y) : (piece y).outline = (piece x).outline := by
  have hRole : (piece z).role = (piece x).role := congrArg Prod.fst (h.outline hPlain)
  simp only [Piece.outline, ← h.alike keeps z y hAlike, hRole, h.quiet x hx, h.quiet y hy]

end

theorem Piece.outline_ofItem {t u : Traits} (h : t.comments = u.comments) (role : Role) (lines other : Frame → Lines) :
    (Piece.ofItem role t lines).outline = (Piece.ofItem role u other).outline := by
  simp [Piece.ofItem, Piece.outline, h]

theorem Piece.quiet_ofItem {t : Traits} (h : t.Holds Comment.Never) (role : Role) (lines : Frame → Lines) :
    (Piece.ofItem role t lines).column = 0 ∧ (Piece.ofItem role t lines).hasComments = false := by
  simp [Piece.ofItem, h.comments_nil fun _ => id]

theorem PiecesShown.tail {entry : Entry α} (h : PiecesShown ink f piece plain Quiet A R (entry :: rest)) :
    PiecesShown ink f piece plain Quiet A R rest :=
  { h with
    items := fun x hx => h.items x (List.mem_cons_of_mem entry hx)
    comments := fun c hc => h.comments c (List.mem_cons_of_mem entry hc) }

variable (hStyle : style.Draws ink) {depth : Nat → Piece → Int}
  (hDepth : ∀ (i : Nat) (p q : Piece), p.outline = q.outline → depth i p = depth i q) {entries : List (Entry α)}
  (hShown : PiecesShown ink f piece plain Quiet A R entries)

include hStyle hDepth hShown

theorem ListStyle.Draws.entry {entry : Entry α} (hEntry : entry ∈ entries) (i last : Nat) :
    ∃ other run own, mapEntry plain other = mapEntry plain entry ∧
      style.entryLines depth last f (entryPiece piece entry, i) = .ok run ∧
      style.entryLines depth last f (entryPiece piece other, i) = .ok run ∧ run ≠ [] ∧
      EntryDrawn ink R (i == 0) (i == last) other own ∧ Spells own run ∧
      ∀ x, entry = .item x → Quiet x → ∃ y, other = .item y ∧ A (ink.keepsBlank (i == 0)) y x ∧
        ∀ z, Quiet z → A (ink.keepsBlank (i == 0)) y z → (piece z).outline = (piece x).outline ∧
            style.entryLines depth last f (piece z, i) = .ok run := by
  cases entry with
  | item x =>
    obtain ⟨y, (hPlain : plain y = plain x), hSame, hFirm, lines, hLines, -, own, hOwn, hSpells⟩ :=
      hShown.items x hEntry (depth i (piece x)) (i == 0)
    rw [← hStyle.keepsBlank] at hSame hLines
    have hEntry (z : α) (hLevel : depth i (piece z) = depth i (piece x))
        (hSame : (piece z).lines (f.child (depth i (piece x)) (style.keepsBlank (i == 0))) =
          (piece x).lines (f.child (depth i (piece x)) (style.keepsBlank (i == 0)))) :
        style.entryLines depth last f (piece z, i) = style.entryLines depth last f (piece x, i) := by
      simp only [ListStyle.entryLines, hShown.role, if_false, hLevel, hSame]
    obtain ⟨run, hRun, hNonempty, hDrawn⟩ := hStyle.item depth last i (hShown.role x) hLines hSpells
    refine ⟨.item y, run, _, by simp [mapEntry, hPlain], hRun, ?_, hNonempty, .item hOwn, by simpa using hDrawn, ?_⟩
    · exact (hEntry y (hDepth i _ _ (hShown.outline hPlain)) hSame).trans hRun
    · rintro _ ⟨⟩ hQuiet
      refine ⟨y, rfl, (hFirm hQuiet).1, fun z hz hAlike => ?_⟩
      have hOutlines := hShown.look hQuiet hz hPlain hAlike
      refine ⟨hOutlines, (hEntry z (hDepth i _ _ hOutlines) ?_).trans hRun⟩
      rw [hStyle.keepsBlank]
      exact (hFirm hQuiet).2 z hz hAlike
  | comment c =>
    obtain ⟨run, hRun, hNonempty, hDrawn⟩ := hStyle.comment (f := f) depth last i (hShown.comments c hEntry)
    exact ⟨.comment c, run, _, rfl, hRun, hRun, hNonempty, .comment, hDrawn, by simp⟩

/-- What is known of the entries of a list from the given place on. -/
theorem ListStyle.Draws.runs (hEntries : entries ≠ []) (i : Nat) :
    ∃ others runs inner, others.map (mapEntry plain) = entries.map (mapEntry plain) ∧
      ((entries.map (entryPiece piece)).zipIdx i).mapM
        (style.entryLines depth (i + entries.length - 1) f) = .ok runs ∧
      ((others.map (entryPiece piece)).zipIdx i).mapM (style.entryLines depth (i + entries.length - 1) f) = .ok runs ∧
      EntriesInked ink R (i == 0) others inner ∧ joinLines (runs.intersperse style.between) ≠ [] ∧
      Spells inner (joinLines (runs.intersperse style.between)) ∧
      (EntriesQuiet Quiet entries → EntriesAlike ink.keepsBlank A (i == 0) others entries ∧
        ∀ more, EntriesQuiet Quiet more → EntriesAlike ink.keepsBlank A (i == 0) others more →
          (more.map (entryPiece piece)).map Piece.outline = (entries.map (entryPiece piece)).map Piece.outline ∧
            ((more.map (entryPiece piece)).zipIdx i).mapM
              (style.entryLines depth (i + entries.length - 1) f) = .ok runs) := by
  induction entries generalizing i with
  | nil => exact absurd rfl hEntries
  | cons entry rest ih =>
    obtain ⟨other, run, own, hOther, hRun, hOtherRun, hNonempty, hDrawn, hOwn, hFirm⟩ :=
      hStyle.entry hDepth hShown List.mem_cons_self i (i + (entry :: rest).length - 1)
    by_cases hRest : rest = []
    · subst hRest
      refine ⟨[other], [run], own, by simp [hOther], mapM_cons_ok hRun rfl, mapM_cons_ok hOtherRun rfl,
        EntryDrawn.last (by simpa using hDrawn), hNonempty, hOwn, fun hQuiet => ?_⟩
      obtain ⟨x, rfl⟩ := hQuiet.exists_item
      obtain ⟨y, rfl, hAlike, hSame⟩ := hFirm x rfl hQuiet.head
      refine ⟨.cons hAlike .nil, fun more hMore hMoreAlike => ?_⟩
      obtain _ | ⟨h, _ | _⟩ := hMoreAlike
      obtain ⟨hOutlines, hMoreRun⟩ := hSame _ hMore.head h
      exact ⟨by simp [entryPiece, hOutlines], mapM_cons_ok hMoreRun rfl⟩
    · obtain ⟨others, runs, inner, hOthers, hRuns, hOtherRuns, hInner, hSome, hSpells, hFirmRest⟩ :=
        ih hShown.tail hRest (i + 1)
      have hLength : i + 1 + rest.length - 1 = i + (entry :: rest).length - 1 := by
        rw [List.length_cons]
        omega
      have hNotLast : (i == i + (entry :: rest).length - 1) = false := by
        have hPos := List.length_pos_iff.2 hRest
        simp only [List.length_cons, beq_eq_false_iff_ne]
        omega
      rw [hLength] at hRuns hOtherRuns hFirmRest
      rw [hNotLast] at hDrawn
      obtain ⟨second, later, rfl⟩ : ∃ second later, runs = second :: later := by
        apply List.exists_cons_of_ne_nil
        rintro rfl
        exact hSome rfl
      refine ⟨other :: others, run :: second :: later, own ++ (ink.between ++ inner),
        by simp [hOther, hOthers], mapM_cons_ok hRun hRuns, mapM_cons_ok hOtherRun hOtherRuns,
        hDrawn.cons (by simpa using hInner), joinLines_ne_nil ⟨run, List.mem_cons_self, hNonempty⟩,
        hOwn.joinCons (hStyle.between.joinCons hSpells), fun hQuiet => ?_⟩
      obtain ⟨x, rfl⟩ := hQuiet.exists_item
      obtain ⟨y, rfl, hAlike, hSame⟩ := hFirm x rfl hQuiet.head
      obtain ⟨hAlikeRest, hSameRest⟩ := hFirmRest hQuiet.tail
      refine ⟨.cons hAlike (by simpa using hAlikeRest), fun more hMore hMoreAlike => ?_⟩
      obtain _ | ⟨h, hMoreRest⟩ := hMoreAlike
      obtain ⟨hOutlines, hMoreRun⟩ := hSame _ hMore.head h
      obtain ⟨hOutlinesRest, hMoreRuns⟩ := hSameRest _ hMore.tail (by simpa using hMoreRest)
      refine ⟨?_, mapM_cons_ok hMoreRun hMoreRuns⟩
      rw [List.map_cons, List.map_cons, hOutlinesRest]
      simp [entryPiece, hOutlines]

end

theorem forall₂_of_map_eq {β : Type} {f : α → β} {S : α → α → Prop} {xs ys : List α} (h : xs.map f = ys.map f)
    (hS : ∀ x ∈ xs, ∀ y ∈ ys, f x = f y → S x y) : List.Forall₂ S xs ys := by
  induction xs generalizing ys with
  | nil =>
    obtain rfl := List.map_eq_nil_iff.1 h.symm
    exact .nil
  | cons x xs ih =>
    obtain ⟨y, ys, rfl, hHead, hTail⟩ := List.map_eq_cons_iff.1 h.symm
    exact .cons (hS x List.mem_cons_self y List.mem_cons_self hHead.symm)
      (ih hTail.symm fun x hx y hy => hS x (List.mem_cons_of_mem _ hx) y (List.mem_cons_of_mem _ hy))

theorem map_eq_of_map_eq {g : α → β} {h : α → γ} (hFactor : ∀ a b, g a = g b → h a = h b) {as bs : List α}
    (hMaps : as.map g = bs.map g) : as.map h = bs.map h := by
  rw [← List.forall₂_eq_eq_eq, List.forall₂_map_left_iff, List.forall₂_map_right_iff]
  exact forall₂_of_map_eq hMaps fun a _ b _ => hFactor a b

/-- A list is laid out in one of the inks of its style. -/
theorem ListStyle.Draws.format {plain : α → α} {Quiet : α → Prop} {A : Option Bool → α → α → Prop}
    {R : Option Bool → α → Ink → Prop} (hStyle : style.Draws ink)
    (hShown : PiecesShown ink f piece plain Quiet A R entries) {last : Ink} (hFirst : Spells first style.opening)
    (hLast : Spells last style.closing) (hEntries : entries ≠ []) :
    Shown ⟨List.map (mapEntry plain), EntriesQuiet Quiet, EntriesAlike ink.keepsBlank A true⟩
      (fun entries => style.format (entries.map (entryPiece piece)) f)
      (fun entries own => ∃ inner, EntriesInked ink R true entries inner ∧ own = first ++ inner ++ last)
      entries := by
  have hDepth : ∀ (i : Nat) (p q : Piece), p.outline = q.outline → style.depth (entries.map (entryPiece piece)) i p =
        style.depth (entries.map (entryPiece piece)) i q :=
    fun i p q => hStyle.level _ _ i p q rfl
  obtain ⟨others, runs, inner, hOthers, hRuns, hOtherRuns, hInner, hBody, hSpells, hFirm⟩ :=
    hStyle.runs hDepth hShown hEntries 0
  have hOutlines : (others.map (entryPiece piece)).map Piece.outline =
      (entries.map (entryPiece piece)).map Piece.outline := by
    rw [List.map_map, List.map_map]
    exact map_eq_of_map_eq (fun a b => hShown.outline_entry) hOthers
  simp only [Nat.zero_add] at hRuns hOtherRuns hFirm
  have hFormat (more : List (Entry α)) (hOutlines : (more.map (entryPiece piece)).map Piece.outline =
        (entries.map (entryPiece piece)).map Piece.outline)
      (hRuns : (more.map (entryPiece piece)).zipIdx.mapM (style.entryLines
        (style.depth (entries.map (entryPiece piece))) (entries.length - 1) f) = .ok runs) :
      style.format (more.map (entryPiece piece)) f = .ok (joinLines
        [style.opening, joinLines (runs.intersperse style.between), style.closing]) := by
    have hLength : more.length = entries.length := by simpa using congrArg List.length hOutlines
    have hNonempty : more ≠ [] := by
      rintro rfl
      exact hEntries (List.length_eq_zero_iff.1 hLength.symm)
    have hDepth : style.depth (more.map (entryPiece piece)) = style.depth (entries.map (entryPiece piece)) := by
      funext i p
      exact hStyle.level _ _ i p p hOutlines rfl
    rw [style.format_eq (by simpa using hNonempty), List.length_map, hLength, hDepth, hRuns]
    rfl
  have hLay := hFormat entries rfl hRuns
  refine ⟨others, hOthers, (hFormat others hOutlines hOtherRuns).trans hLay.symm, fun hQuiet => ?_, _, hLay,
    ?_, _, ⟨inner, hInner, rfl⟩, ?_⟩
  · obtain ⟨hAlike, hSame⟩ := hFirm hQuiet
    refine ⟨hAlike, fun more hMore hMoreAlike => ?_⟩
    obtain ⟨hMoreOutlines, hMoreRuns⟩ := hSame more hMore hMoreAlike
    exact (hFormat more hMoreOutlines hMoreRuns).trans hLay.symm
  · exact joinLines_ne_nil ⟨_, List.mem_cons_of_mem _ List.mem_cons_self, hBody⟩
  · simpa using Spells.joinLines (.cons hFirst (.cons hSpells (.cons hLast .nil)))

theorem mapEntry_id (entry : Entry α) : mapEntry id entry = entry := by
  cases entry <;> rfl

/-- A list whose elements are laid out in their inks is laid out in one of the inks of its style. -/
theorem ListStyle.Draws.format_inked {R : Option Bool → α → Ink → Prop} (hStyle : style.Draws ink)
    (hRole : ∀ x, (piece x).role ≠ .comment) {last : Ink} (hFirst : Spells first style.opening)
    (hLast : Spells last style.closing) (hEntries : entries ≠ [])
    (hItems : ∀ x, .item x ∈ entries → ∀ depth isFirst,
      Inked ((piece x).lines (f.child depth (ink.keepsBlank isFirst))) (R (ink.keepsBlank isFirst) x))
    (hComments : ∀ c, .comment c ∈ entries → c.Legible) :
    Inked (style.format (entries.map (entryPiece piece)) f)
      (fun own => ∃ inner, EntriesInked ink R true entries inner ∧ own = first ++ inner ++ last) := by
  -- Nothing is quiet here, so nothing has to be compared.
  have hShown : PiecesShown ink f piece id (fun _ => False) (fun _ _ _ => False) R entries :=
    ⟨hRole, fun _ => rfl, fun _ => False.elim, fun _ _ _ => False.elim,
      fun x hx depth isFirst => ⟨x, rfl, rfl, False.elim, hItems x hx depth isFirst⟩, hComments⟩
  obtain ⟨others, hOthers, -, -, hInked⟩ := hStyle.format hShown hFirst hLast hEntries
  simp only [funext mapEntry_id, List.map_id'] at hOthers
  exact hOthers ▸ hInked

/-- Pieces that look alike to the layout of a list with the given style. -/
def ListStyle.Alike (style : ListStyle) (f : Frame) (p q : Piece) : Prop :=
  p.outline = q.outline ∧ ∀ depth isFirst, p.lines (f.child depth (style.keepsBlank isFirst)) =
    q.lines (f.child depth (style.keepsBlank isFirst))

theorem outline_of_forall₂ {S : Piece → Piece → Prop}
    (h : List.Forall₂ (fun p q => p.outline = q.outline ∧ S p q) pieces others) :
    pieces.map Piece.outline = others.map Piece.outline := by
  induction h with
  | nil => rfl
  | cons hHead _ ih => rw [List.map_cons, List.map_cons, hHead.1, ih]

/-- Lists whose entries look alike have the same layout. -/
theorem ListStyle.Draws.format_congr (hStyle : style.Draws ink) (h : List.Forall₂ (style.Alike f) pieces others) :
    style.format pieces f = style.format others f := by
  by_cases hNil : pieces = []
  · subst hNil
    cases h
    rfl
  have hOthers : others ≠ [] := by
    rintro rfl
    cases h
    exact hNil rfl
  have hOutlines := outline_of_forall₂ h
  have hRuns : ∀ (last i : Nat) {ps qs : List Piece}, List.Forall₂ (style.Alike f) ps qs →
      (ps.zipIdx i).mapM (style.entryLines (style.depth pieces) last f) =
        (qs.zipIdx i).mapM (style.entryLines (style.depth others) last f) := by
    intro last i ps qs hAlike
    induction hAlike generalizing i with
    | nil => rfl
    | @cons p q ps qs hHead _ ih =>
      have hDepth := hStyle.level pieces others i p q hOutlines hHead.1
      have hRole : p.role = q.role := congrArg Prod.fst hHead.1
      have hEntry : style.entryLines (style.depth pieces) last f (p, i) =
          style.entryLines (style.depth others) last f (q, i) := by
        simp only [ListStyle.entryLines, hDepth, hRole, hHead.2]
      rw [List.zipIdx_cons, List.zipIdx_cons, List.mapM_cons, List.mapM_cons, hEntry, ih]
  rw [style.format_eq hNil, style.format_eq hOthers, h.length_eq, hRuns _ _ h]

/-! ### Choosing between layouts -/

variable {candidate second : Frame → Lines} {S : Ink → Prop} {l : Leaf}

/-- The lines fit into the width that is left. -/
def fits (f : Frame) (lines : List Line) : Bool :=
  (widest? lines).any (· ≤ f.availableWidth)

theorem widest?_isSome (h : lines ≠ []) : ∃ width, widest? lines = some width := by
  cases lines with
  | nil => exact absurd rfl h
  | cons l rest => exact ⟨_, rfl⟩

theorem firstThatFits_last (h : candidate f = .ok lines) (hLines : lines ≠ []) :
    firstThatFits f [candidate] = .ok lines := by
  obtain ⟨width, hWidth⟩ := widest?_isSome hLines
  simp [firstThatFits, choose, h, hWidth, bind, Except.bind, pure, Except.pure]

theorem firstThatFits_first {rest : List (Frame → Lines)} (h : candidate f = .ok lines)
    (hFits : fits f lines = true) : firstThatFits f (candidate :: rest) = .ok lines := by
  cases hWidth : widest? lines with
  | none => simp [fits, hWidth] at hFits
  | some width =>
    have hLe : width ≤ f.availableWidth := by simpa [fits, hWidth] using hFits
    simp [firstThatFits, choose, h, hWidth, hLe, bind, Except.bind, pure, Except.pure]

theorem firstThatFits_second {first : Frame → Lines} {more : List Line} (hFirst : first f = .ok lines)
    (hLines : lines ≠ []) (hFits : fits f lines = false) (hSecond : second f = .ok more) (hMore : more ≠ []) :
    firstThatFits f [first, second] = .ok more := by
  obtain ⟨width, hWidth⟩ := widest?_isSome hLines
  obtain ⟨width', hWidth'⟩ := widest?_isSome hMore
  have hWide : ¬ width ≤ f.availableWidth := by simpa [fits, hWidth] using hFits
  simp [firstThatFits, choose, hFirst, hWidth, hWide, hSecond, hWidth', bind, Except.bind, pure, Except.pure]

/-- Only the lines of the candidates in the given frame matter. -/
theorem firstThatFits_congr {cs ds : List (Frame → Lines)} (h : List.Forall₂ (fun c d => c f = d f) cs ds) :
    firstThatFits f cs = firstThatFits f ds := by
  have hChoose : choose f cs = choose f ds := by
    induction h with
    | nil => rfl
    | @cons c d cs ds hHead hTail ih =>
      have hEmpty : cs.isEmpty = ds.isEmpty := by cases hTail <;> rfl
      simp only [choose, hHead, ih, hEmpty]
  rw [firstThatFits, firstThatFits, hChoose]

theorem groupLines_eq (kind : ListKind) (piece : α → Piece) (g : ItemList α) (f : Frame) : groupLines kind piece g f =
      listLines kind g.traits g.opening g.closing (g.entries.map (entryPiece piece)) f := by
  have hPieces : (fun | .item value => piece value | .comment c => Piece.ofComment c) = entryPiece piece := by
    funext entry
    cases entry <;> rfl
  rw [← hPieces]
  rfl

theorem firstThatFits_one_inked (h : Inked (candidate f) R) : Inked (firstThatFits f [candidate]) R := by
  obtain ⟨lines, hLines, hNonempty, hInk⟩ := h
  exact ⟨lines, firstThatFits_last hLines hNonempty, hNonempty, hInk⟩

theorem firstThatFits_two_inked {first : Frame → Lines} (hFirst : Inked (first f) R)
    (hSecond : Inked (second f) S) : Inked (firstThatFits f [first, second]) (fun ink => R ink ∨ S ink) := by
  obtain ⟨lines, hLines, hNonempty, ink, hInk, hSpells⟩ := hFirst
  obtain ⟨more, hMore, hMoreNonempty, moreInk, hMoreInk, hMoreSpells⟩ := hSecond
  cases hFits : fits f lines with
  | true => exact ⟨lines, firstThatFits_first hLines hFits, hNonempty, ink, .inl hInk, hSpells⟩
  | false =>
    exact ⟨more, firstThatFits_second hLines hNonempty hFits hMore hMoreNonempty, hMoreNonempty,
      moreInk, .inr hMoreInk, hMoreSpells⟩

/-- The lines of a node that hands its comments on are its own. -/
theorem withComments_silent (h : t.Silent) (hf : f.keepsBlank = none) (own : Frame → Lines) :
    withComments t own f = f.indentRest <$> own f := by
  simp [withComments, h.1, h.2, hf, blankBefore, Functor.map, Except.map, bind, Except.bind, pure, Except.pure]

/-- A node that hands its comments on is laid out in its own inks. -/
theorem withComments_silent_inked (h : t.Silent) (hf : f.keepsBlank = none) (hOwn : Inked (own f) R) :
    Inked (withComments t own f) R := by
  have hHolds : t.Holds Comment.Legible := by simp [Traits.Holds, h.1]
  apply withComments_inked hHolds
  simpa only [hf, noted_of_silent h] using hOwn

/-- Nodes without comments have the same lines if their own lines and the blank lines before them are
the same. -/
theorem withComments_alike {u : Traits} (ht : t.comments = []) (hu : u.comments = [])
    (hKept : t.kept f.keepsBlank = u.kept f.keepsBlank) {other : Frame → Lines} (h : own f = other f) :
    withComments t own f = withComments u other f := by
  have hBlank : blankBefore f t.afterBlank t.keepsBlank = blankBefore f u.afterBlank u.keepsBlank := by
    unfold Traits.kept at hKept
    simp only [blankBefore, hKept]
  rw [withComments_eq, withComments_eq, framed, framed, if_pos ht, if_pos hu, hBlank, h]

theorem leafLines_silent (h : l.traits.Silent) (hf : f.keepsBlank = none) :
    leafLines l f = .ok [⟨l.text, some 0, []⟩] := by
  rw [leafLines, withComments_silent h hf]
  rfl

theorem Inked.bind {lines : Lines} {g : List Line → Lines} (h : Inked lines R)
    (hNext : ∀ result, result ≠ [] → ∀ ink, R ink → Spells ink result → Inked (g result) S) :
    Inked (lines >>= g) S := by
  obtain ⟨result, rfl, hNonempty, ink, hInk, hSpells⟩ := h
  exact hNext result hNonempty ink hInk hSpells

theorem inked_ok {ink : Ink} (hLines : lines ≠ []) (hInk : R ink) (hSpells : Spells ink lines) :
    Inked (pure lines) R :=
  ⟨lines, rfl, hLines, ink, hInk, hSpells⟩

theorem leafLines_inked (h : l.traits.Holds Comment.Legible) (f : Frame) :
    Inked (leafLines l f) (· = l.ink f.keepsBlank) := by
  apply withComments_inked h
  exact ⟨_, rfl, by simp, [.word l.text], rfl, Spells.word l.text (some 0)⟩

end PolicyFormat.Layout
