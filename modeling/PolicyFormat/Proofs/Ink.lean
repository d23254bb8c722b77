import Mathlib.Data.List.Forall2
import PolicyFormat.Proofs.Joining

/-! What laid out lines are made of. An ink is a sequence of words, spaces, comment lines, comments
for the end of the current line and line breaks. Lines joined end to end are spelled by inks put
one after the other, whatever their indentation. -/
namespace PolicyFormat.Layout

/-- The smallest parts of laid out lines. `note` is a line of a comment in its place, and `tail`
one that is kept for the end of its line, with or without a space before it. -/
inductive Mark where
  | word (text : String)
  | space
  | note (text : String)
  | tail (spaced : Bool) (text : String)
  | newline
deriving Repr, DecidableEq

/-- Marks in the order in which they are put down. -/
abbrev Ink := List Mark

namespace Mark

/-- What the mark adds to the text of its line. -/
def text : Mark → String
  | word text => text
  | space => " "
  | note text => text
  | tail _ _ => ""
  | newline => ""

/-- What the mark adds to the comments at the end of its line. -/
def tails : Mark → List String
  | tail spaced text => [if spaced then " " ++ text else text]
  | _ => []

/-- The text of the word, if the mark is one. -/
def word? : Mark → Option String
  | word text => some text
  | _ => none

/-- The text of the comment, if the mark is one. -/
def note? : Mark → Option String
  | note text => some text
  | tail _ text => some text
  | _ => none

end Mark

namespace Ink

/-- The words of an ink. -/
def words (ink : Ink) : List String :=
  ink.filterMap Mark.word?

/-- The comment pieces of an ink: comment lines, and comments at the end of lines. -/
def notes (ink : Ink) : List String :=
  ink.filterMap Mark.note?

@[simp] theorem words_nil : words [] = [] := rfl

@[simp] theorem words_cons (mark : Mark) (ink : Ink) : words (mark :: ink) = mark.word?.toList ++ words ink := by
  cases mark <;> rfl

@[simp] theorem words_append (a b : Ink) : words (a ++ b) = words a ++ words b :=
  List.filterMap_append

@[simp] theorem notes_nil : notes [] = [] := rfl

@[simp] theorem notes_cons (mark : Mark) (ink : Ink) : notes (mark :: ink) = mark.note?.toList ++ notes ink := by
  cases mark <;> rfl

end Ink

/-! ### Rows -/

variable {lines : List Line}

/-- A line without its indentation: its text and the comments at its end. -/
abbrev Row := String × List String

/-- The row of a line. -/
def Line.row (l : Line) : Row :=
  (l.text, l.tail)

/-- Joins rows end to end. -/
def joinRows : List Row → List Row → List Row
  | [], second => second
  | [a], [] => [a]
  | [a], b :: rest => (a.1 ++ b.1, a.2 ++ b.2) :: rest
  | a :: more, second => a :: joinRows more second

/-- The rows of a run of lines. No lines at all are as good as an empty one. -/
def rowsOf : List Line → List Row
  | [] => [("", [])]
  | l :: rest => l.row :: rest.map Line.row

/-- The rows that an ink fills. -/
def Ink.rows : Ink → List Row
  | [] => [("", [])]
  | .newline :: rest => ("", []) :: rows rest
  | mark :: rest => joinRows [(mark.text, mark.tails)] (rows rest)

theorem joinRows_cons {more : List Row} (hMore : more ≠ []) (row : Row) (second : List Row) :
    joinRows (row :: more) second = row :: joinRows more second := by
  cases more with
  | nil => exact absurd rfl hMore
  | cons next more => cases second <;> rfl

theorem joinRows_ne_nil {first : List Row} (hFirst : first ≠ []) (second : List Row) :
    joinRows first second ≠ [] := by
  fun_cases joinRows first second <;> simp at hFirst ⊢

theorem joinRows_blank_left {rows : List Row} (h : rows ≠ []) : joinRows [("", [])] rows = rows := by
  cases rows with
  | nil => exact absurd rfl h
  | cons row more => simp [joinRows]

theorem joinRows_blank_cons {rows : List Row} (h : rows ≠ []) (more : List Row) :
    joinRows rows (("", []) :: more) = rows ++ more := by
  induction rows with
  | nil => exact absurd rfl h
  | cons row rest ih =>
    cases rest with
    | nil => simp [joinRows]
    | cons next rest =>
      rw [joinRows_cons (by simp), ih (by simp)]
      rfl

theorem joinRows_blank_right {rows : List Row} (h : rows ≠ []) : joinRows rows [("", [])] = rows := by
  rw [joinRows_blank_cons h, List.append_nil]

theorem joinRows_assoc (a b c : List Row) : joinRows (joinRows a b) c = joinRows a (joinRows b c) := by
  induction a with
  | nil => rfl
  | cons row more ih =>
    cases more with
    | nil =>
      match b, c with
      | [], c => rfl
      | [next], [] => rfl
      | [next], last :: rest => simp [joinRows, String.append_assoc]
      | next :: second :: rest, c => simp [joinRows]
    | cons next more =>
      have hMore : joinRows (next :: more) b ≠ [] := joinRows_ne_nil (by simp) b
      rw [joinRows_cons (by simp) row b, joinRows_cons hMore, ih, joinRows_cons (by simp) row (joinRows b c)]

theorem Ink.rows_ne_nil (ink : Ink) : ink.rows ≠ [] := by
  fun_cases Ink.rows ink with
  | case1 => simp
  | case2 => simp
  | case3 mark rest => exact joinRows_ne_nil (by simp) _

theorem Ink.rows_cons_of_ne {mark : Mark} (hMark : mark ≠ .newline) (rest : Ink) :
    rows (mark :: rest) = joinRows [(mark.text, mark.tails)] (rows rest) := by
  cases mark <;> first | rfl | exact absurd rfl hMark

theorem Ink.rows_append (a b : Ink) : rows (a ++ b) = joinRows (rows a) (rows b) := by
  induction a with
  | nil => exact (joinRows_blank_left (rows_ne_nil b)).symm
  | cons mark rest ih =>
    by_cases hMark : mark = .newline
    · subst hMark
      simp only [List.cons_append, rows, ih]
      rw [joinRows_cons (rows_ne_nil rest)]
    · rw [List.cons_append, rows_cons_of_ne hMark, rows_cons_of_ne hMark, ih, joinRows_assoc]

theorem rowsOf_ne_nil (lines : List Line) : rowsOf lines ≠ [] := by
  cases lines <;> simp [rowsOf]

theorem rowsOf_eq_map (h : lines ≠ []) : rowsOf lines = lines.map Line.row := by
  cases lines with
  | nil => exact absurd rfl h
  | cons l rest => rfl

theorem rowsOf_cons {rest : List Line} (h : rest ≠ []) (l : Line) : rowsOf (l :: rest) = l.row :: rowsOf rest := by
  rw [rowsOf_eq_map h]
  rfl

theorem rowsOf_joinTwo (first second : List Line) :
    rowsOf (joinTwo first second) = joinRows (rowsOf first) (rowsOf second) := by
  fun_induction joinTwo first second with
  | case1 second => exact (joinRows_blank_left (rowsOf_ne_nil second)).symm
  | case2 first hFirst => exact (joinRows_blank_right (rowsOf_ne_nil first)).symm
  | case3 a b rest => rfl
  | case4 a more second hSecond hMore ih =>
    have hNonempty : more ≠ [] := by
      obtain ⟨b, rest, rfl⟩ := List.exists_cons_of_ne_nil hSecond
      exact hMore b rest rfl
    rw [rowsOf_cons (joinTwo_ne_nil hNonempty second), rowsOf_cons hNonempty, ih, joinRows_cons (rowsOf_ne_nil more)]

/-! ### Spelling -/

variable {runs : List (List Line)}

/-- The ink spells the lines: it has their texts and the comments at their ends. Indentation does
not count. -/
def Spells (ink : Ink) (lines : List Line) : Prop :=
  rowsOf lines = ink.rows

namespace Spells

variable {a b : Ink} {first second : List Line}

theorem nil : Spells [] [] := rfl

theorem joinTwo (ha : Spells a first) (hb : Spells b second) : Spells (a ++ b) (joinTwo first second) := by
  unfold Spells at *
  rw [rowsOf_joinTwo, ha, hb, Ink.rows_append]

theorem append (ha : Spells a first) (hb : Spells b second) (hFirst : first ≠ [])
    (hSecond : second ≠ []) : Spells (a ++ .newline :: b) (first ++ second) := by
  unfold Spells at *
  rw [Ink.rows_append, Ink.rows, joinRows_blank_cons (Ink.rows_ne_nil a), ← ha, ← hb,
    rowsOf_eq_map hFirst, rowsOf_eq_map hSecond, rowsOf_eq_map (by simp [hFirst]), List.map_append]

theorem joinLines {inks : List Ink} {runs : List (List Line)}
    (h : List.Forall₂ Spells inks runs) : Spells inks.flatten (joinLines runs) := by
  induction h with
  | nil => exact nil
  | cons hRun _ ih =>
    rw [joinLines_cons]
    exact hRun.joinTwo ih

theorem indentRest (f : Frame) (ha : Spells a first) : Spells a (f.indentRest first) := by
  unfold Spells at *
  rw [← ha]
  cases first with
  | nil => rfl
  | cons l rest => simp [Frame.indentRest, rowsOf, Line.row, Function.comp_def]

end Spells

theorem indentRest_ne_nil (f : Frame) (h : lines ≠ []) : f.indentRest lines ≠ [] := by
  cases lines with
  | nil => exact absurd rfl h
  | cons l rest => simp [Frame.indentRest]

/-! ### Layouts by inks -/

/-- The layout succeeds, has lines, and an ink of the given sort spells them. -/
def Inked (lines : Lines) (R : Ink → Prop) : Prop :=
  ∃ result, lines = .ok result ∧ result ≠ [] ∧ ∃ ink, R ink ∧ Spells ink result

theorem Inked.mono {lines : Lines} {R S : Ink → Prop} (h : Inked lines R)
    (hMore : ∀ ink, R ink → S ink) : Inked lines S := by
  obtain ⟨result, hResult, hNonempty, ink, hInk, hSpells⟩ := h
  exact ⟨result, hResult, hNonempty, ink, hMore ink hInk, hSpells⟩

end PolicyFormat.Layout
