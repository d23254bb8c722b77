import Mathlib.Data.List.Forall2
import PolicyFormat.Proofs.Joining

/-! Lines with fewer blank rows between them. A blank row has the indentation of the row after it,
so that no run of lines becomes wider or narrower when such rows are left out. -/
namespace PolicyFormat.Layout

variable {a b : List Line}

/-- The second run has the rows of the first, and blank rows before some of them that are indented
like these. -/
inductive Padded : List Line → List Line → Prop where
  | nil : Padded [] []
  | same (l : Line) {a b : List Line} (h : Padded a b) : Padded (l :: a) (l :: b)
  | blank {l : Line} {indent : Int} {a b : List Line} (hIndent : l.indent = some indent)
      (h : Padded a b) : Padded (l :: a) ({ text := "", indent := some indent } :: l :: b)

/-- The first run lacks some of the blank rows of the second. Both start with the same row. -/
inductive Thinner : List Line → List Line → Prop where
  | nil : Thinner [] []
  | cons (l : Line) {a b : List Line} (h : Padded a b) : Thinner (l :: a) (l :: b)

namespace Padded

theorem refl : ∀ lines : List Line, Padded lines lines
  | [] => .nil
  | l :: rest => .same l (refl rest)

theorem append {a b c d : List Line} (h : Padded a b) (hMore : Padded c d) : Padded (a ++ c) (b ++ d) := by
  induction h with
  | nil => exact hMore
  | same l _ ih => exact .same l ih
  | blank hIndent _ ih => exact .blank hIndent ih

theorem eq_nil_iff (h : Padded a b) : a = [] ↔ b = [] := by
  cases h <;> simp

theorem joinTwo {a b c d : List Line} (h : Padded a b) (ha : a ≠ []) (hMore : Thinner c d) :
    Padded (joinTwo a c) (joinTwo b d) := by
  induction h with
  | nil => exact absurd rfl ha
  | @same l a b h ih =>
    by_cases hNil : a = []
    · obtain rfl := hNil
      obtain rfl := h.eq_nil_iff.1 rfl
      cases hMore with
      | nil => exact refl [l]
      | cons m hMore => exact .same (l.join m) hMore
    · rw [joinTwo_cons hNil, joinTwo_cons (fun hb => hNil (h.eq_nil_iff.2 hb))]
      exact .same l (ih hNil)
  | @blank l indent a b hIndent h ih =>
    rw [joinTwo_cons (List.cons_ne_nil l b)]
    by_cases hNil : a = []
    · obtain rfl := hNil
      obtain rfl := h.eq_nil_iff.1 rfl
      cases hMore with
      | nil => exact .blank hIndent .nil
      | cons m hMore =>
        have hJoin : (l.join m).indent = some indent := by
          rw [Line.join, hIndent]
          rfl
        exact .blank hJoin hMore
    · rw [joinTwo_cons hNil, joinTwo_cons (fun hb => hNil (h.eq_nil_iff.2 hb))]
      exact .blank hIndent (ih hNil)

theorem indent {a b : List Line} (h : Padded a b) (amount : Int) :
    Padded (a.map (fun l => { l with indent := some (l.indent.getD 0 + amount) }))
      (b.map (fun l => { l with indent := some (l.indent.getD 0 + amount) })) := by
  induction h with
  | nil => exact .nil
  | same l _ ih => exact .same _ ih
  | @blank l indent a b hIndent _ ih =>
    exact .blank (l := { l with indent := some (l.indent.getD 0 + amount) }) (by simp [hIndent]) ih

/-- A blank row is not wider than the row after it. -/
theorem foldl_width (h : Padded a b) (width : Int) :
    a.foldl (fun w l => max w l.width) width = b.foldl (fun w l => max w l.width) width := by
  induction h generalizing width with
  | nil => rfl
  | same l _ ih => exact ih _
  | @blank l indent a b hIndent _ ih =>
    have hWidth : max (max width (Line.width { text := "", indent := some indent })) l.width = max width l.width := by
      have hLe : Line.width { text := "", indent := some indent } ≤ l.width := by
        simp only [Line.width, hIndent, Option.getD_some, String.length_empty]
        omega
      omega
    simp only [List.foldl_cons, hWidth]
    exact ih _

end Padded

namespace Thinner

theorem refl (lines : List Line) : Thinner lines lines := by
  cases lines with
  | nil => exact .nil
  | cons l rest => exact .cons l (.refl rest)

theorem padded (h : Thinner a b) : Padded a b := by
  cases h with
  | nil => exact .nil
  | cons l h => exact .same l h

theorem eq_nil_iff (h : Thinner a b) : a = [] ↔ b = [] :=
  h.padded.eq_nil_iff

theorem append_left (h : Thinner a b) (first : List Line) : Thinner (first ++ a) (first ++ b) := by
  cases first with
  | nil => exact h
  | cons l first => exact .cons l ((Padded.refl first).append h.padded)

theorem joinTwo {a b c d : List Line} (h : Thinner a b) (hMore : Thinner c d) :
    Thinner (joinTwo a c) (joinTwo b d) := by
  cases h with
  | nil => exact hMore
  | @cons l a b h =>
    by_cases hNil : a = []
    · obtain rfl := hNil
      obtain rfl := h.eq_nil_iff.1 rfl
      cases hMore with
      | nil => exact refl [l]
      | cons m hMore => exact .cons (l.join m) hMore
    · rw [joinTwo_cons hNil, joinTwo_cons (fun hb => hNil (h.eq_nil_iff.2 hb))]
      exact .cons l (h.joinTwo hNil hMore)

theorem joinLines {as bs : List (List Line)} (h : List.Forall₂ Thinner as bs) :
    Thinner (joinLines as) (joinLines bs) := by
  induction h with
  | nil => exact .nil
  | cons hRun _ ih =>
    rw [joinLines_cons, joinLines_cons]
    exact hRun.joinTwo ih

theorem indentRest (h : Thinner a b) (f : Frame) : Thinner (f.indentRest a) (f.indentRest b) := by
  cases h with
  | nil => exact .nil
  | cons l h => exact .cons l (h.indent f.indent)

/-- Runs of lines are as wide with the blank rows as without. -/
theorem widest?_eq (h : Thinner a b) : widest? a = widest? b := by
  cases h with
  | nil => rfl
  | cons l h => simp [widest?, h.foldl_width]

end Thinner

theorem Padded.flatten {as bs : List (List Line)} (h : List.Forall₂ Padded as bs) : Padded as.flatten bs.flatten := by
  induction h with
  | nil => exact .nil
  | cons hHead _ ih => exact hHead.append ih

end PolicyFormat.Layout
