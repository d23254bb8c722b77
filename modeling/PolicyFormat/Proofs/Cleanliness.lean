import PolicyFormat.Proofs.Shading
import PolicyFormat.Proofs.Rereading

/-! Beautified texts are clean: outside of strings, no line ends in a space, no two blank lines follow each other,
and every line ends in the line ending that was chosen. -/
namespace PolicyFormat

open Policy Layout Lexeme

variable {text : String} {ink : Ink}

namespace Layout

/-! ### Lines -/

/-- The text is a line with something on it that does not end in white space. -/
def IsRow (text : List Char) : Prop :=
  '\n' ∉ text ∧ ∃ z, text.getLast? = some z ∧ IsSolid z

namespace IsRow

variable {text : List Char}

theorem ne_nil (h : IsRow text) : text ≠ [] := by
  rintro rfl
  obtain ⟨-, z, hLast, -⟩ := h
  cases hLast

theorem after (h : IsRow text) {front : List Char} (hFront : '\n' ∉ front) : IsRow (front ++ text) := by
  obtain ⟨hText, z, hLast, hSolid⟩ := h
  exact ⟨by simp [hFront, hText], z, by simp [hLast], hSolid⟩

theorem append {more : List Char} (h : IsRow text) (hMore : IsRow more) : IsRow (text ++ more) :=
  hMore.after h.1

/-- Comments at the end of a line leave no white space behind them. -/
theorem tailChars {pending : List String} (hNonempty : pending ≠ []) (h : ∀ t ∈ pending, IsRow t.toList) :
    IsRow (Layout.tailChars pending) := by
  induction pending with
  | nil => exact absurd rfl hNonempty
  | cons t pending ih =>
    have hFirst := h t List.mem_cons_self
    cases pending with
    | nil => simpa [Layout.tailChars] using hFirst
    | cons next pending => exact hFirst.append (ih (by simp) fun t ht => h t (List.mem_cons_of_mem _ ht))

end IsRow

/-- The text may follow on a sheet in the given state, and leaves it at the start of a line. -/
inductive Neat (ending : List Char) : Sheet → List Char → Prop where
  | unused : Neat ending .top []
  | done : Neat ending (.fresh false) []
  | blank {cs : List Char} (h : Neat ending (.fresh true) cs) : Neat ending (.fresh false) (ending ++ cs)
  | line {sheet : Sheet} {text cs : List Char} (hText : IsRow text) (h : Neat ending (.fresh false) cs) :
      Neat ending sheet (text ++ (ending ++ cs))
  | lineEnd {cs : List Char} (h : Neat ending (.fresh false) cs) : Neat ending .inked (ending ++ cs)

namespace Neat

variable {ending cs : List Char}

theorem after_text {text : List Char} (hText : IsRow text) (h : Neat ending .inked cs) (sheet : Sheet) :
    Neat ending sheet (text ++ cs) := by
  cases h with
  | line hMore h =>
    rw [← List.append_assoc]
    exact .line (hText.append hMore) h
  | lineEnd h => exact .line hText h

/-- White space has to be followed by text. -/
theorem after_blanks {front : List Char} (hFront : '\n' ∉ front) (h : Neat ending .spaced cs) (sheet : Sheet) :
    Neat ending sheet (front ++ cs) := by
  cases h with
  | line hText h =>
    rw [← List.append_assoc]
    exact .line (hText.after hFront) h

/-- A line break puts the comments down that were kept for the end of the line. -/
theorem after_newline {sheet next : Sheet} {pending : List String} (hStep : sheet.step .newline = some next)
    (hPending : ∀ t ∈ pending, IsRow t.toList) (hOpen : pending ≠ [] → sheet = .inked ∨ sheet = .spaced)
    (h : Neat ending next cs) : Neat ending sheet (tailChars pending ++ (ending ++ cs)) := by
  obtain ⟨rfl, rfl⟩ | ⟨rfl, rfl⟩ := Sheet.eq_of_step_newline hStep
  · by_cases hNone : pending = []
    · simpa [hNone] using lineEnd h
    · exact .line (.tailChars hNone hPending) h
  · have hNone : pending = [] := by
      by_contra hSome
      simpa using hOpen hSome
    simpa [hNone] using blank h

end Neat

theorem isRow_tails {spaced : Bool} (h : IsRow text.toList) :
    ∀ t ∈ Mark.tails (.tail spaced text), IsRow t.toList := by
  have hSpaced : IsRow ([' '] ++ text.toList) := h.after (by simp)
  intro t ht
  simp only [Mark.tails, List.mem_singleton] at ht
  subst ht
  cases spaced
  · exact h
  · simpa using hSpaced

/-- The text of an ink that was put down without refusal is neat. At the start of a line it may be indented, unless
it leaves the line blank. -/
theorem Written.neat {ending : List Char} {pending : List String} {cs : List Char} {sheet : Sheet}
    (h : Written ending pending ink cs) (hInk : ink.Made (fun text => IsRow text.toList))
    (hPending : ∀ t ∈ pending, IsRow t.toList) (hOpen : pending ≠ [] → sheet = .inked ∨ sheet = .spaced)
    (hCovers : Covers sheet ink (.fresh false)) (indent : Nat)
    (hIndent : indent = 0 ∨ sheet ≠ .inked ∧ ink.head?.getD .newline ≠ .newline) :
    Neat ending sheet (List.replicate indent ' ' ++ cs) := by
  induction h generalizing sheet indent with
  | nil pending =>
    obtain rfl : sheet = .fresh false := Option.some.inj hCovers
    have hNone : pending = [] := by
      by_contra hSome
      simpa using hOpen hSome
    have hZero : indent = 0 := by simpa using hIndent
    simpa [hNone, hZero] using Neat.done
  | @newline pending ink cs width hEmpty hRest ih =>
    obtain ⟨next, hStep, hCovers⟩ := hCovers.uncons
    have hZero : indent = 0 := by simpa using hIndent
    have hNext : Neat ending next (List.replicate width ' ' ++ cs) := by
      refine ih (Ink.made_cons.1 hInk).2 (by simp) (by simp) hCovers width ?_
      by_cases hBlank : ink.head?.getD .newline = .newline
      · exact .inl (hEmpty hBlank)
      · obtain ⟨-, rfl⟩ | ⟨-, rfl⟩ := Sheet.eq_of_step_newline hStep
        · exact .inr ⟨by simp, hBlank⟩
        · exact .inr ⟨by simp, hBlank⟩
    simpa [hZero] using hNext.after_newline hStep hPending hOpen
  | @tail pending spaced text ink cs hRest ih =>
    obtain ⟨next, hStep, hCovers⟩ := hCovers.uncons
    obtain ⟨rfl, rfl⟩ := Sheet.eq_of_step_tail hStep
    obtain ⟨hTail, hInk⟩ := Ink.made_cons.1 hInk
    have hZero : indent = 0 := by simpa using hIndent
    refine ih hInk ?_ (fun _ => .inl rfl) hCovers indent (.inl hZero)
    intro t ht
    rcases List.mem_append.1 ht with ht | ht
    · exact hPending t ht
    · exact isRow_tails hTail t ht
  | @mark pending mark ink cs hNewline hTail hRest ih =>
    obtain ⟨next, hStep, hCovers⟩ := hCovers.uncons
    obtain ⟨hMark, hInk⟩ := Ink.made_cons.1 hInk
    have hNext : (next = .inked ∨ next = .spaced) → Neat ending next cs := fun hOpen => by
      simpa using ih hInk hPending (fun _ => hOpen) hCovers 0 (.inl rfl)
    -- Text takes the indentation into its line.
    have hText : ∀ text, IsRow text → next = .inked →
        Neat ending sheet (List.replicate indent ' ' ++ (text ++ cs)) := by
      rintro text hRow rfl
      rw [← List.append_assoc]
      exact (hNext (.inl rfl)).after_text (hRow.after (by simp)) sheet
    cases mark with
    | newline => exact absurd rfl hNewline
    | tail spaced text => simp [Mark.tails] at hTail
    | word text => exact hText _ hMark (Option.some.inj (hStep.symm.trans Sheet.step_word))
    | note text => exact hText _ hMark (Option.some.inj (hStep.symm.trans Sheet.step_note))
    | space =>
      obtain ⟨rfl, rfl⟩ := Sheet.eq_of_step_space hStep
      have hZero : indent = 0 := by simpa using hIndent
      have hBlank : Neat ending .inked ([' '] ++ cs) := (hNext (.inr rfl)).after_blanks (by simp) _
      simpa [hZero, Mark.text] using hBlank

/-! ### Clean texts -/

variable {row : List Char}

/-- The lines do not end in white space. The first and the last are not blank, and neither are two in a row. -/
structure Clean (rows : List (List Char)) : Prop where
  lines : ∀ row ∈ rows, '\n' ∉ row
  ends : ∀ row ∈ rows, ∀ z ∈ row.getLast?, IsSolid z
  first : rows.head? ≠ some []
  last : rows.getLast? ≠ some []
  apart : rows.IsChain (fun a b => a ≠ [] ∨ b ≠ [])

/-- The text consists of clean lines, each with the line ending after it. -/
def IsClean (ending text : List Char) : Prop :=
  ∃ rows, Clean rows ∧ text = rows.flatMap (· ++ ending)

theorem clean_nil : Clean [] := by
  constructor <;> simp

theorem IsRow.solid_last (h : IsRow row) : ∀ z ∈ row.getLast?, IsSolid z := by
  obtain ⟨-, z, hLast, hSolid⟩ := h
  intro y hy
  obtain rfl : z = y := Option.some.inj (hLast.symm.trans hy)
  exact hSolid

theorem IsRow.clean_cons {rows : List (List Char)} (hRow : IsRow row) (h : Clean rows) : Clean (row :: rows) where
  lines := List.forall_mem_cons.2 ⟨hRow.1, h.lines⟩
  ends := List.forall_mem_cons.2 ⟨hRow.solid_last, h.ends⟩
  first := by simpa using hRow.ne_nil
  last := by
    cases rows with
    | nil => simpa using hRow.ne_nil
    | cons next rows => exact h.last
  apart := List.isChain_cons.2 ⟨fun _ _ => .inl hRow.ne_nil, h.apart⟩

/-- A blank line may stand between two others. -/
theorem IsRow.clean_cons_blank {rows : List (List Char)} (hRow : IsRow row) (h : Clean rows) (hRows : rows ≠ []) :
    Clean (row :: [] :: rows) where
  lines := List.forall_mem_cons.2 ⟨hRow.1, List.forall_mem_cons.2 ⟨by simp, h.lines⟩⟩
  ends := List.forall_mem_cons.2 ⟨hRow.solid_last, List.forall_mem_cons.2 ⟨by simp, h.ends⟩⟩
  first := by simpa using hRow.ne_nil
  last := by
    obtain ⟨next, rows, rfl⟩ := List.exists_cons_of_ne_nil hRows
    exact h.last
  apart := by
    refine List.isChain_cons.2 ⟨fun _ _ => .inl hRow.ne_nil, List.isChain_cons.2 ⟨?_, h.apart⟩⟩
    rintro next hNext
    refine .inr ?_
    rintro rfl
    exact h.first hNext

/-- The lines may follow on a sheet in the given state. -/
def Sheet.Admits : Sheet → List (List Char) → Prop
  | .top, rows => Clean rows
  | .fresh false, rows => ∀ row, IsRow row → Clean (row :: rows)
  | .fresh true, rows => rows ≠ [] ∧ Clean rows
  | _, _ => True

theorem Neat.rows {ending cs : List Char} {sheet : Sheet} (h : Neat ending sheet cs) :
    ∃ rows, sheet.Admits rows ∧ cs = rows.flatMap (· ++ ending) := by
  induction h with
  | unused => exact ⟨[], clean_nil, rfl⟩
  | done => exact ⟨[], fun row hRow => hRow.clean_cons clean_nil, rfl⟩
  | blank h ih =>
    obtain ⟨rows, ⟨hRows, hClean⟩, rfl⟩ := ih
    exact ⟨[] :: rows, fun row hRow => hRow.clean_cons_blank hClean hRows, by simp⟩
  | @line sheet text cs hText h ih =>
    obtain ⟨rows, hRows, rfl⟩ := ih
    have hClean := hRows text hText
    refine ⟨text :: rows, ?_, by simp⟩
    cases sheet with
    | top => exact hClean
    | fresh afterBlank =>
      cases afterBlank with
      | false => exact fun row hRow => hRow.clean_cons hClean
      | true => exact ⟨by simp, hClean⟩
    | inked | spaced => trivial
  | lineEnd h ih =>
    obtain ⟨rows, -, rfl⟩ := ih
    exact ⟨[] :: rows, trivial, by simp⟩

end Layout

namespace Policy

/-! ### Comment lines -/

variable {tidying : Tidying} {s : Specification}

theorem isSolid_of_not_isBlank {c : Char} (h : Text.isBlank c = false) : IsSolid c := by
  refine ⟨?_, ?_, ?_, ?_⟩ <;> rintro rfl <;> exact absurd h (by decide)

/-- The text of a comment does not end in white space. -/
theorem Scanned.isRow {line offset : Int} {cs : List Char} {scan : Scan} (h : Scanned line offset cs scan) :
    ∀ c ∈ scan.comments, IsRow c.text.toList := by
  intro c hc
  obtain ⟨before, more, after, -, hMore, hNote, -⟩ := h.comment_located c hc
  obtain ⟨rest, hText, hNewline⟩ := isNote_trimRight hMore
  rw [String.toList_ofList] at hText
  have hNonempty : Text.trimRight ('#' :: more) ≠ [] := by simp [hText]
  have hLast := List.rdropWhile_last_not Text.isBlank ('#' :: more) hNonempty
  rw [hNote, String.toList_ofList]
  exact ⟨by simp [hText, hNewline], _, List.getLast?_eq_some_getLast hNonempty,
    isSolid_of_not_isBlank (Bool.eq_false_iff.2 hLast)⟩

theorem isRow_normalNote {line : String} (h : IsRow line.toList) : IsRow (normalNote line).toList := by
  obtain ⟨hNewline, z, hLast, hSolid⟩ := h
  have hSign : '\n' ∉ ['#', ' '] := by decide
  unfold normalNote
  split
  · rename_i c rest hLine
    rw [hLine] at hNewline hLast
    have hRest : IsRow (c :: rest) := ⟨fun h => hNewline (List.mem_cons_of_mem _ h), z, hLast, hSolid⟩
    split_ifs with hPlain hBlank
    · exact ⟨by rwa [hLine], z, by rwa [hLine], hSolid⟩
    · -- The blank after the sign is not the end of the line.
      have hMore : rest ≠ [] := by
        rintro rfl
        obtain rfl : c = z := Option.some.inj hLast
        rcases hBlank with rfl | rfl
        · exact hSolid.1 rfl
        · exact hSolid.2.1 rfl
      obtain ⟨next, more, rfl⟩ := List.exists_cons_of_ne_nil hMore
      have hRow : IsRow (next :: more) := ⟨fun h => hRest.1 (List.mem_cons_of_mem _ h), z, hLast, hSolid⟩
      simpa using hRow.after hSign
    · simpa using hRest.after hSign
  · exact ⟨by decide, '#', by decide, by decide⟩

theorem IsNote.not_isToken (h : IsNote text) : ¬ IsToken text := by
  obtain ⟨rest, hText, -⟩ := h
  intro hToken
  have hFront := Spelling.front?_append hToken (ends_nil _)
  rw [hText, List.cons_append, front?_comment] at hFront
  cases hFront

/-- The ink of a tree that was read from a text has no comment line that ends in white space. -/
theorem Specification.Inked.isRow_of_isNote {y : Specification}
    (hTree : Specification.ofText tidying text = .ok s) (hPlain : Specification.plain y = Specification.plain s)
    (hFormed : Specification.Formed (Comment.Quoted text) y) (hInked : Specification.Inked y ink) :
    ink.Made (fun text => IsNote text → IsRow text.toList) := by
  have hFixed : Fixed (fun word => IsNote word → IsRow word.toList) := by
    constructor <;> (rintro ⟨rest, hText, -⟩; exact absurd (congrArg List.head? hText) (by simp))
  refine hInked.made hTree hPlain hFormed hFixed (fun t ht hNote => ?_) fun t ht _ => ?_
  · exact absurd (Spelling.isToken (scanned_ofText.spelling t ht)) (IsNote.not_isToken hNote)
  · exact isRow_normalNote (scanned_ofText.isRow t ht)

/-! ### Comments that keep no blank lines -/

variable {α : Type} {f : α → α} {g : ItemList α}

theorem ItemList.dense_mapItems : (g.mapItems f).Dense ↔ g.Dense :=
  forall_congr' fun _ => imp_congr_left ItemList.comment_mem_mapItems

theorem ItemList.forall_item_mapItems {F : α → Prop} :
    (∀ x, .item x ∈ (g.mapItems f).entries → F x) ↔ ∀ x, .item x ∈ g.entries → F (f x) := by
  simp only [ItemList.item_mem_mapItems]
  exact ⟨fun h x hx => h _ ⟨x, hx, rfl⟩, fun h y ⟨x, hx, hy⟩ => hy ▸ h x hx⟩

theorem Clause.dense_plain {c : Clause} : c.plain.Dense ↔ c.Dense := by
  cases c with
  | guard g => exact .rfl
  | promise p => exact ItemList.dense_mapItems

theorem Contents.dense_plain {c : Contents} : c.plain.Dense ↔ c.Dense := by
  cases c with
  | body selections => exact .rfl
  | bundle statements =>
    refine and_congr ItemList.dense_mapItems (ItemList.forall_item_mapItems.trans ?_)
    refine forall_congr' fun p => imp_congr_right fun _ => ?_
    simp only [PromiseType.plain, ItemList.forall_item_mapItems, Clause.dense_plain]

theorem Specification.dense_plain : s.plain.Dense ↔ s.Dense := by
  refine and_congr ItemList.dense_mapItems (ItemList.forall_item_mapItems.trans ?_)
  simp only [Block.plain, Contents.dense_plain]

section

variable {P : Comment → Prop} (hP : ∀ c, P c → c.keepsBlank = false)
include hP

theorem Contents.dense_tidy {c : Contents} (t : Tidying) (h : c.Formed P) : (c.tidy t).Dense := by
  cases c with
  | body selections => trivial
  | bundle statements =>
    have hClause : ∀ c : Clause, c.Dense → (c.withTraits (fun t => { t with keepsBlank := false })).Dense := by
      rintro (g | p) h
      · trivial
      · exact h
    refine ⟨fun c hc => hP c ?_, fun p hp => ?_⟩
    · exact h.comments c (ItemList.comment_mem_mapItems.1 (Tidying.mem_apply hc))
    · obtain ⟨q, hq, rfl⟩ := ItemList.item_mem_mapItems.1 (Tidying.mem_apply hp)
      have hDense : ∀ c, .item c ∈ q.clauses.entries → c.Dense := by
        rintro (g | p) hc
        · trivial
        · exact fun d hd => hP d (((h.items q hq).clauses.items _ hc).constraints.comments d hd)
      exact (Entry.Settled.formed (P := fun _ => True)
        (settled_settleAfterGuards Clause.isGuard Clause.withTraits false q.clauses.entries)
        (fun _ _ _ => trivial) hClause hDense (fun _ _ => trivial)).1

/-- Only the comments under promise types and in bodies come to keep blank lines. -/
theorem Specification.dense_tidy {s : Specification} (t : Tidying) (h : Specification.Formed P s) :
    (s.tidy t).Dense := by
  refine ⟨ItemList.dense_mapItems.2 fun c hc => hP c (h.comments c hc), ItemList.forall_item_mapItems.2 ?_⟩
  exact fun b hb => Contents.dense_tidy hP t (h.items b hb).contents

end

theorem Specification.dense_ofText (h : Specification.ofText tidying text = .ok s) : s.Dense := by
  have hSteady : Steady (fun c => c.Found text ∧ c.keepsBlank = false) := by
    rintro c d hSame ⟨hFound, hKeeps⟩
    have hEq : c.unplaced.keepsBlank = d.unplaced.keepsBlank := congrArg Comment.keepsBlank hSame
    exact ⟨Comment.steady_found text c d hSame hFound, hEq.symm.trans hKeeps⟩
  obtain ⟨parsed, hParsed, rfl⟩ := Specification.exists_of_ofText h
  have hReceived := Specification.formed_received text hSteady (fun _ h => h.1)
    (fun c hc => found_of_mem_commentsOf text hc) hParsed
  exact Specification.dense_tidy (fun _ h => h.2) tidying ((Specification.formed_markBlankLines _ _).2 hReceived)

end Policy

namespace Layout

/-! ### Inks with their strings blotted out -/

theorem isRow_shadedWord (h : IsToken text) : IsRow (shadedWord text).toList := by
  obtain ⟨body, z, hText, hz⟩ := Spelling.last_solid h
  unfold shadedWord
  split
  · rw [String.toList_ofList, hText, List.length_append, List.length_singleton, List.replicate_succ']
    exact ⟨by simp, '"', by simp, by decide⟩
  · rename_i hKind
    have hSolid := Spelling.solid h hKind
    exact ⟨fun hNewline => (hSolid _ hNewline).2.2.1 rfl, z, by simp [hText], hz⟩

theorem Ink.made_shaded (hValid : ∀ m ∈ ink, m.Valid)
    (hNotes : ink.Made (fun text => IsNote text → IsRow text.toList)) :
    Ink.Made (fun text => IsRow text.toList) (ink.map Mark.shaded) := by
  intro mark hMark
  obtain ⟨m, hm, rfl⟩ := List.mem_map.1 hMark
  have hText := hValid m hm
  have hNote := hNotes m hm
  cases m with
  | word text => exact isRow_shadedWord hText
  | note text => exact hNote hText
  | tail spaced text => exact hNote hText
  | space => trivial
  | newline => trivial

/-- What a word is makes no difference to where it may be put down. -/
theorem Covers.shaded {before after : Sheet} (h : Covers before ink after) :
    Covers before (ink.map Mark.shaded) after := by
  induction ink generalizing before with
  | nil => exact h
  | cons mark ink ih =>
    obtain ⟨next, hStep, hRest⟩ := h.uncons
    refine .cons ?_ (ih hRest)
    cases mark with
    | word text => exact Sheet.step_word.trans (Sheet.step_word.symm.trans hStep)
    | space | note | tail | newline => exact hStep

/-- The text of lines that a legal ink spells is clean outside of its strings, if the ink was put down without
refusal and its comment lines do not end in white space. -/
theorem Spells.isClean {lines : List Line} {ending : String} {last : Pen} (hSpells : Spells ink lines)
    (hLines : lines ≠ []) (hEnding : IsLineEnding ending.toList) (hValid : ∀ m ∈ ink, m.Valid)
    (hRun : Ink.run .free ink = some last) (hNotes : ink.Made (fun text => IsNote text → IsRow text.toList))
    (hCovers : ink = [] ∨ Covers .top ink (.fresh false)) :
    IsClean ending.toList (shaded (renderLines ending lines)) := by
  obtain ⟨indent, cs, hText, hEmpty, hWritten⟩ := hSpells.written hLines ending
  obtain ⟨dark, hDark, hDrawn⟩ := (hWritten.legible hEnding (by simp) hValid hRun
    (Pen.leads_nil (by simp))).1.shaded hEnding 1 (0 + (List.replicate indent ' ').length)
  have hShaded : shaded (renderLines ending lines) = List.replicate indent ' ' ++ dark := by
    have hSkip := @shadeFrom_skip 1 1 0 (List.replicate indent ' ') cs
      (congrArg Scan.tokens (by simpa using scanFrom_spaces 1 0 indent cs))
    rw [List.nil_append, List.nil_append] at hDark
    rwa [hDark, ← hText] at hSkip
  rw [hShaded]
  rcases hCovers with rfl | hCovers
  · cases hDrawn
    exact ⟨[], clean_nil, by simp [hEmpty rfl]⟩
  · have hNeat : Neat ending.toList .top (List.replicate indent ' ' ++ dark) := by
      refine hDrawn.neat (Ink.made_shaded hValid hNotes) (by simp) (by simp) hCovers.shaded indent ?_
      by_cases hBlank : (ink.map Mark.shaded).head?.getD .newline = .newline
      · exact .inl (hEmpty (Ink.blank_of_shaded hBlank))
      · exact .inr ⟨by simp, hBlank⟩
    exact hNeat.rows

end Layout

/-! ### Beautified texts -/

/-- If no list in round brackets ends in a comment, the beautified text is clean outside of its strings. -/
theorem beautify_is_clean {options : Options} {text output : String} {s : Specification}
    (hEnding : ∀ ending ∈ options.lineEnding, ending = "" ∨ ending = "\n" ∨ ending = "\r\n")
    (hTree : Specification.ofText options.tidying text = .ok s) (hClosed : s.tally openTally = 0)
    (h : beautify options text = .ok output) :
    IsClean (lineEndingFor text options.lineEnding).toList (shaded output) := by
  obtain ⟨lines, y, ink, -, rfl, hNonempty, hPlain, hInked, hSpells⟩ := lines_of_beautify hTree h
  have hLegible : ∀ c : Comment, c.Quoted text → c.Legible := fun c hc => hc.1.legible
  have hFormed := Specification.formed_of_plain hPlain (Specification.quoted_ofText hTree)
  have hDense : y.Dense := by
    rw [← Specification.dense_plain, hPlain]
    exact Specification.dense_plain.2 (Specification.dense_ofText hTree)
  have hTally := (Specification.tally_of_plain openTally hPlain).trans hClosed
  obtain ⟨stop, code, hLegal, -⟩ := Specification.legal hLegible shows_blind hFormed hTally hInked
  exact hSpells.isClean hNonempty (isLineEnding_lineEndingFor text hEnding) hLegal.valid hLegal.run
    (hInked.isRow_of_isNote hTree hPlain hFormed) (hInked.covers hLegible hFormed hDense)

/-- A bundle with blank lines, white space at the ends of comments, and a string that has both in it. -/
def blankPolicy : String :=
  "# a \t\n\n\nbundle agent b \x7b vars: \n\n\n# c\n\n \"d \n\n\n e\" string => \"f\"; # g \n\n\n\x7d\n\n"

theorem blankPolicy_becomes_clean :
    ∃ s output, Specification.ofText {} blankPolicy = .ok s ∧ s.tally openTally = 0 ∧
      beautify {} blankPolicy = .ok output ∧ IsClean ['\n'] (shaded output) := by
  have hTally : (Specification.ofText {} blankPolicy).toOption.map (·.tally openTally) = some 0 := by
    decide +kernel
  have hFeed : (lineEndingFor blankPolicy ({} : Options).lineEnding).toList = ['\n'] := by decide +kernel
  obtain ⟨s, hTree, hClosed⟩ := exists_of_toOption hTally
  have hTidied : Specification.ofText ({} : Options).tidying blankPolicy = .ok s := hTree
  obtain ⟨output, hOutput⟩ := beautify_eq_ok_of_ofText hTidied
  exact ⟨s, output, hTree, hClosed, hOutput, hFeed ▸ beautify_is_clean (by simp) hTidied hClosed hOutput⟩

/-- The lines of a text are what stands between its line feeds. -/
theorem splitOn_flatMap_rows {rows : List (List Char)} (h : ∀ row ∈ rows, '\n' ∉ row) :
    (rows.flatMap (· ++ ['\n'])).splitOn '\n' = rows ++ [[]] := by
  induction rows with
  | nil => rfl
  | cons row rows ih =>
    have hRow : row.splitOn '\n' = [row] :=
      List.splitOnP_eq_singleton fun c hc => by
        simpa using fun hEq : c = '\n' => h row List.mem_cons_self (hEq ▸ hc)
    have hSplit : (row ++ '\n' :: rows.flatMap (· ++ ['\n'])).splitOn '\n' =
        row.splitOn '\n' ++ (rows.flatMap (· ++ ['\n'])).splitOn '\n' :=
      List.splitOnP_append_cons _ _ (by simp)
    rw [hRow, ih fun row hRow => h row (List.mem_cons_of_mem _ hRow)] at hSplit
    simpa using hSplit

/-- A list with a comment before the bracket of a call in it, and a string that has a string in it if it is read
from its second line on. -/
def swallowedString : String :=
  "body a b\x7bc=>\x7bf(\"d\"\n\n#e\n\n),\"g\n\n\n`h`)\x7d;#\"\x7d;\x7d"

/-- The start of the string becomes part of the comment, so that its blank lines are no longer in a string. -/
theorem swallowedString_leaves_blank_lines :
    ∃ output, beautify {} swallowedString = .ok output ∧ (Scan.ofText output).parse.isOk = true ∧
      ¬ IsClean ['\n'] (shaded output) := by
  have hLines : beautifiedLines {} swallowedString = .ok
      [⟨"body a b \x7b", some 0, []⟩, ⟨"c => \x7b f(\"d\",", some 4, []⟩,
        ⟨"# e, \"g\n\n\n`h`)\x7d;#\" \x7d;", some 11, []⟩, ⟨"\x7d", some 0, []⟩, ⟨"", some 0, []⟩] := by
    decide +kernel
  have hEnding : lineEndingFor swallowedString ({} : Options).lineEnding = "\n" := by decide +kernel
  refine ⟨"body a b \x7b\n    c => \x7b f(\"d\",\n           # e, \"g\n\n\n`h`)\x7d;#\" \x7d;\n\x7d\n", ?_,
    by decide +kernel, ?_⟩
  · refine beautify_eq_ok_iff.2 ⟨_, hLines, ?_⟩
    rw [hEnding]
    simp [renderLines, Line.render, List.replicate, String.intercalate_cons_cons]
  · rintro ⟨rows, hClean, hText⟩
    have hRows := congrArg List.dropLast (splitOn_flatMap_rows hClean.lines)
    rw [← hText, List.dropLast_concat] at hRows
    have hApart := hClean.apart
    rw [← hRows] at hApart
    exact absurd hApart (by decide +kernel)

end PolicyFormat
