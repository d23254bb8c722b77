import PolicyFormat.Proofs.Marking
import PolicyFormat.Proofs.TokenLines

/-! Marking blank lines takes two walks through a tree. The first notes the lines on which the nodes start,
and the second gives each node its mark. Where the lines come in order, a node is marked if it is the first
to start on its line and the line before is blank. What both walks do is said of each part of a tree, and
carried from the parts to the whole. -/
namespace PolicyFormat.Policy

variable {isEmpty : Int → Bool}

/-! ### Marks in order -/

/-- Of lines that come in order, marks each that follows a blank line and is not the line before it. -/
def marksInOrder (isEmpty : Int → Bool) : Int → List Int → List Bool
  | _, [] => []
  | previous, line :: rest => (isEmpty (line - 1) && line != previous) :: marksInOrder isEmpty line rest

theorem markAfterBlank_go {previous : Int} {starts : List Int} (h : (previous :: starts).Pairwise (· ≤ ·)) :
    (markAfterBlank.go isEmpty previous starts).1 = marksInOrder isEmpty previous starts ∧
      ∀ line ∈ (markAfterBlank.go isEmpty previous starts).2, previous < line := by
  induction starts generalizing previous with
  | nil => exact ⟨rfl, by simp [markAfterBlank.go]⟩
  | cons line rest ih =>
    obtain ⟨hFirst, hRest⟩ := List.pairwise_cons.1 h
    obtain ⟨hMarks, hLater⟩ := ih hRest
    have hLine : previous ≤ line := hFirst line (by simp)
    have hFresh : (markAfterBlank.go isEmpty line rest).2.contains line = false := by
      rw [Bool.eq_false_iff, Ne, List.contains_iff_mem]
      exact fun hMem => absurd (hLater line hMem) (Int.lt_irrefl line)
    rw [markAfterBlank.go]
    by_cases hSame : line = previous
    · subst hSame
      simpa [marksInOrder, hMarks] using hLater
    · have hLess : previous < line := by omega
      refine ⟨?_, by simpa [hSame] using And.intro hLess fun l hl => hLess.trans (hLater l hl)⟩
      simp only [hMarks, hFresh, marksInOrder]
      simp [hSame]

/-! ### Two walks -/

/-- Both walks go through a part of a tree that stands between two lines. The first notes lines in order and
changes nothing. The second uses up the marks of these lines, whatever lines come later, and makes of the part
what is asked for. -/
def Walks {α : Type} (isEmpty : Int → Bool) (first last : Int) (x : α) (note : StateM (List Int) α)
    (mark : StateM (List Bool) α) (Q : α → Prop) : Prop :=
  first ≤ last ∧ ∃ starts : List Int, starts.Pairwise (· ≤ ·) ∧ (∀ line ∈ starts, first ≤ line ∧ line ≤ last) ∧
    (∀ notes, note.run notes = (x, starts.reverse ++ notes)) ∧
    ∀ previous, previous ≤ first → ∀ later, ∃ marked, mark.run (marksInOrder isEmpty previous (starts ++ later)) =
        (marked, marksInOrder isEmpty (starts.foldl (fun _ line => line) previous) later) ∧ Q marked

namespace Walks

variable {α β : Type} {first middle last : Int} {x : α} {note : StateM (List Int) α}
  {mark : StateM (List Bool) α} {P Q : α → Prop}

theorem pure {marked : α} (hLines : first ≤ last) (h : Q marked) :
    Walks isEmpty first last x (Pure.pure x) (Pure.pure marked) Q :=
  ⟨hLines, [], .nil, by simp, fun _ => rfl, fun _ _ _ => ⟨marked, rfl, h⟩⟩

theorem done {marked : α} (h : Q marked) : Walks isEmpty last last x (Pure.pure x) (Pure.pure marked) Q :=
  .pure (Int.le_refl last) h

theorem mono (h : Walks isEmpty first last x note mark P) {before after : Int} (hBefore : before ≤ first)
    (hAfter : last ≤ after) (hPost : ∀ marked, P marked → Q marked) :
    Walks isEmpty before after x note mark Q := by
  obtain ⟨hLines, starts, hOrder, hWithin, hNotes, hMarks⟩ := h
  refine ⟨by omega, starts, hOrder, fun line hLine => ?_, hNotes, fun previous hPrevious later => ?_⟩
  · have := hWithin line hLine
    omega
  · obtain ⟨marked, hRun, hMarked⟩ := hMarks previous (by omega) later
    exact ⟨marked, hRun, hPost marked hMarked⟩

theorem imp (h : Walks isEmpty first last x note mark P) (hPost : ∀ marked, P marked → Q marked) :
    Walks isEmpty first last x note mark Q :=
  h.mono (Int.le_refl first) (Int.le_refl last) hPost

theorem last_le {starts : List Int} (hWithin : ∀ line ∈ starts, line ≤ last) {previous : Int}
    (hPrevious : previous ≤ last) : starts.foldl (fun _ line => line) previous ≤ last := by
  induction starts generalizing previous with
  | nil => exact hPrevious
  | cons line starts ih => exact ih (fun l hl => hWithin l (by simp [hl])) (hWithin line (by simp))

/-- One part after the other. -/
theorem bind {y : β} {R : β → Prop} {next : α → StateM (List Int) β} {proceed : α → StateM (List Bool) β}
    (h : Walks isEmpty first middle x note mark P)
    (hNext : ∀ marked, P marked → Walks isEmpty middle last y (next x) (proceed marked) R) :
    Walks isEmpty first last y (note >>= next) (mark >>= proceed) R := by
  obtain ⟨hLines, starts, hOrder, hWithin, hNotes, hMarks⟩ := h
  obtain ⟨sample, -, hSample⟩ := hMarks first (Int.le_refl first) []
  obtain ⟨hLater, more, hMoreOrder, hMoreWithin, hMoreNotes, -⟩ := hNext sample hSample
  refine ⟨by omega, starts ++ more, ?_, fun line hLine => ?_, fun notes => ?_, fun previous hPrevious later => ?_⟩
  · refine List.pairwise_append.2 ⟨hOrder, hMoreOrder, fun a ha b hb => ?_⟩
    have := hWithin a ha
    have := hMoreWithin b hb
    omega
  · rcases List.mem_append.1 hLine with hLine | hLine
    · have := hWithin line hLine
      omega
    · have := hMoreWithin line hLine
      omega
  · rw [run_bind, hNotes]
    simp [hMoreNotes]
  · obtain ⟨marked, hRun, hMarked⟩ := hMarks previous hPrevious (more ++ later)
    obtain ⟨-, other, -, -, hOtherNotes, hOtherMarks⟩ := hNext marked hMarked
    -- The lines that are noted do not depend on the marks given before.
    obtain rfl : other = more := by
      simpa using congrArg Prod.snd ((hOtherNotes []).symm.trans (hMoreNotes []))
    have hMiddle := last_le (fun line hLine => (hWithin line hLine).2) (hPrevious.trans hLines)
    obtain ⟨result, hRest, hResult⟩ := hOtherMarks _ hMiddle later
    refine ⟨result, ?_, hResult⟩
    rw [run_bind, List.append_assoc, hRun, List.foldl_append]
    exact hRest

end Walks

/-! ### Nodes -/

/-- The node is as before except for its mark. It is marked only if the line before it is blank, and always then
unless it starts on the given line. -/
structure Traits.Marked (isEmpty : Int → Bool) (line : Int) (t marked : Traits) : Prop where
  same : marked = { t with afterBlank := marked.afterBlank }
  sound : marked.afterBlank = true → isEmpty (t.span.startLine - 1) = true
  blank : line < t.span.startLine → marked.afterBlank = isEmpty (t.span.startLine - 1)

theorem Traits.Marked.span {line : Int} {t marked : Traits} (h : t.Marked isEmpty line marked) :
    marked.span = t.span := by
  rw [h.same]

/-- The node as it is read, before it gets comments and marks. -/
structure Traits.Fresh (t : Traits) : Prop where
  comments : t.comments = []
  blank : t.afterBlank = false

theorem run_takeMark {t : Traits} (h : t.afterBlank = false) (mark : Bool) (marks : List Bool) :
    (takeMark true t).run (mark :: marks) = ({ t with afterBlank := mark }, marks) := by
  cases mark with
  | true => rfl
  | false =>
    obtain ⟨span, yields, afterBlank, keepsBlank, comments⟩ := t
    subst h
    rfl

theorem walks_node {first last : Int} {t : Traits} (hFresh : t.Fresh) (hFirst : first ≤ t.span.startLine)
    (hLast : t.span.startLine ≤ last) :
    Walks isEmpty first last t (noteLine true t) (takeMark true t) (t.Marked isEmpty first) := by
  have hStart : t.startLineWithComment = t.span.startLine := by
    rw [Traits.startLineWithComment, hFresh.comments]
  refine ⟨by omega, [t.span.startLine], by simp, by simp; omega, fun notes => ?_, fun previous hPrevious later => ?_⟩
  · rw [← hStart]
    rfl
  · refine ⟨_, run_takeMark hFresh.blank _ _, rfl, fun hMark => (Bool.and_eq_true_iff.1 hMark).1, fun hLine => ?_⟩
    have hOther : t.span.startLine ≠ previous := by omega
    simp [hOther]

/-- A word as it is read. -/
theorem walks_leaf {first last : Int} {l : Leaf} (hFresh : l.traits.Fresh)
    (hFirst : first ≤ l.traits.span.startLine) (hLast : l.traits.span.startLine ≤ last) :
    Walks isEmpty first last l (l.visit noteLine) (l.visit takeMark)
      (fun marked => marked.text = l.text ∧ l.traits.Marked isEmpty first marked.traits) :=
  (walks_node hFresh hFirst (Int.le_refl _)).bind fun _ h => .pure hLast ⟨rfl, h⟩

end PolicyFormat.Policy
