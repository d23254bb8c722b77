import PolicyFormat.Proofs.Accounted
import PolicyFormat.Proofs.Beautified
import PolicyFormat.Proofs.TallyInk

/-! Comments are neither lost nor repeated when a text is laid out, except for those that the closing
brace of a list holds. -/
namespace PolicyFormat

open Policy Layout

namespace Policy

/-! ### Counting comment lines -/

/-- Comment lines as they are laid out, wherever they are in the tree. -/
def allNotes : Tally (Multiset String) where
  note line := {normalNote line}
  hidden line := {normalNote line}
  unclosed := 0

/-- The comment lines that are laid out. -/
def shownNotes : Tally (Multiset String) where
  note line := {normalNote line}
  hidden _ := 0
  unclosed := 0

/-- The comment lines that are not laid out: those of the closing braces of lists. -/
def hiddenNotes : Tally (Multiset String) where
  note _ := 0
  hidden line := {normalNote line}
  unclosed := 0

theorem allNotes_eq : allNotes = shownNotes + hiddenNotes := by
  change allNotes = ⟨_, _, _⟩
  simp [allNotes, shownNotes, hiddenNotes]

theorem shownNotes_weighs : shownNotes.Weighs (fun m => (m.note?.toList : Multiset String)) (fun _ => 0) where
  space := rfl
  newline := rfl
  word _ _ _ := rfl
  pair := rfl
  opening := rfl
  note _ := rfl
  tail _ _ := rfl
  hidden _ := rfl

theorem inkTally_notes (ink : Ink) : inkTally (fun m => (m.note?.toList : Multiset String)) ink = ink.notes := by
  induction ink with
  | nil => rfl
  | cons mark ink ih => simp [ih]

/-- Comments that differ in their places only count alike. -/
theorem commentTally_of_census {M : Type} [AddCommMonoid M] (t : Tally M) {cs ds : List Comment}
    (h : census cs = census ds) : commentTally t cs = commentTally t ds := by
  have hEach : ∀ cs, commentTally t cs = ((cs.map Comment.unplaced).map (Comment.tally t)).sum := by
    intro cs
    rw [List.map_map]
    rfl
  rw [hEach, hEach]
  exact ((Multiset.coe_eq_coe.1 h).map _).sum_eq

theorem sum_notes (lines : List String) : (lines.map allNotes.note).sum = (lines.map normalNote : List String) := by
  induction lines with
  | nil => rfl
  | cons line lines ih =>
    rw [List.map_cons, List.sum_cons, ih, List.map_cons, ← Multiset.cons_coe, ← Multiset.singleton_add]
    rfl

theorem commentTally_allNotes (cs : List Comment) :
    commentTally allNotes cs = ((cs.flatMap (·.lines)).map normalNote : List String) := by
  induction cs with
  | nil => rfl
  | cons c cs ih =>
    rw [List.flatMap_cons, List.map_append, ← Multiset.coe_add, ← ih, ← sum_notes]
    rfl

/-- The comments of a text have the lines of its comment tokens. -/
theorem commentTally_commentsOf (text : String) : commentTally allNotes (commentsOf text) =
      ((Scan.ofText text).comments.map (fun t => normalNote t.text) : List String) := by
  have hLines : (commentsOf text).map (·.lines) = (groupsOf text).map (·.lines) :=
    Comment.map_markAll _ (fun _ _ => rfl) _ _
  rw [commentTally_allNotes, List.flatMap_def, hLines, ← List.flatMap_def,
    (grouped_groupsOf text).lines_eq, List.map_map]
  rfl

/-- A tree that is read from a text holds the comment lines of the text. -/
theorem Specification.tally_ofText {tidying : Tidying} {text : String} {s : Specification}
    (h : Specification.ofText tidying text = .ok s) :
    s.tally allNotes = ((Scan.ofText text).comments.map (fun t => normalNote t.text) : List String) := by
  obtain ⟨parsed, hParsed, rfl⟩ := Specification.exists_of_ofText h
  obtain ⟨hPlaced, hNone⟩ := Specification.placed_commentsOf text hParsed
  have hPassed := hPlaced.passed
  rw [hNone, Passed, census_nil, add_zero] at hPassed
  rw [Specification.tally_tidy, Specification.tally_markBlankLines,
    hPlaced.formed.tally_eq rfl (fun _ => rfl), commentTally_of_census allNotes hPassed,
    commentTally_commentsOf]

end Policy

/-- The lines of a text are made of an ink in which each comment line of the text occurs as often as it
occurs in the text, except for the comment lines that are held by the closing braces of lists. -/
theorem beautifiedLines_conserve_comments {options : Options} {text : String} {lines : List Line}
    (h : beautifiedLines options text = .ok lines) :
    ∃ s y ink, Specification.ofText options.tidying text = .ok s ∧
      Specification.plain y = Specification.plain s ∧ Specification.Inked y ink ∧ Spells ink lines ∧
      (ink.notes : Multiset String) + s.tally hiddenNotes =
        ((Scan.ofText text).comments.map (fun t => normalNote t.text) : List String) := by
  cases hTree : Specification.ofText options.tidying text with
  | error e => simp [beautifiedLines, hTree] at h
  | ok s =>
    obtain ⟨lines', hLines, -, y, ink, hPlain, -, hInked, hSpells⟩ := beautifiedLines_of_ofText hTree
    obtain rfl : lines = lines' := Except.ok.inj (h.symm.trans hLines)
    refine ⟨s, y, ink, rfl, hPlain, hInked, hSpells, ?_⟩
    have hFormed := Specification.formed_of_plain hPlain (Specification.formed_ofText hTree)
    have hShown : (ink.notes : Multiset String) = s.tally shownNotes := by
      have hDiffers := Specification.differs shownNotes_weighs hFormed hInked
      rw [Differs, inkTally_notes] at hDiffers
      rw [hDiffers, Specification.tally_of_plain shownNotes hPlain]
      simp [inkTally]
    rw [hShown, ← Specification.tally_add, ← allNotes_eq, Specification.tally_ofText hTree]

/-- A list whose closing brace has a comment after it, with the semicolon on the next line. -/
def commentAfterBrace : String :=
  "body a b\x7bc=>\x7b\"d\"\x7d#e\n;\x7d"

/-- The lines of the list without its comment. -/
def commentAfterBraceLines : List Line :=
  [⟨"body a b \x7b", some 0, []⟩, ⟨"c => \x7b \"d\" \x7d;", some 4, []⟩, ⟨"\x7d", some 0, []⟩, ⟨"", some 0, []⟩]

theorem commentAfterBrace_is_conserved :
    ∃ s y ink, Specification.ofText {} commentAfterBrace = .ok s ∧
      Specification.plain y = Specification.plain s ∧ Specification.Inked y ink ∧
      Spells ink commentAfterBraceLines ∧
      (ink.notes : Multiset String) + s.tally hiddenNotes =
        ((Scan.ofText commentAfterBrace).comments.map (fun t => normalNote t.text) : List String) := by
  have hLines : beautifiedLines {} commentAfterBrace = .ok commentAfterBraceLines := by decide +kernel
  have hConserved := beautifiedLines_conserve_comments hLines
  exact hConserved

/-- The comment after the closing brace of a list is lost. -/
theorem commentAfterBrace_is_lost :
    (Scan.ofText commentAfterBrace).comments.map (·.text) = ["#e"] ∧
      beautifiedLines {} commentAfterBrace = .ok commentAfterBraceLines ∧
      ∀ l ∈ commentAfterBraceLines, '#' ∉ l.text.toList ∧ l.tail = [] := by
  refine ⟨by decide +kernel, by decide +kernel, by decide +kernel⟩

end PolicyFormat
