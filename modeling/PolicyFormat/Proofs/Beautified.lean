import PolicyFormat.Beautify
import PolicyFormat.Proofs.Homes
import PolicyFormat.Proofs.Tidied
import PolicyFormat.Proofs.TreeLayout

/-! Every tree that is read from a text can be laid out, and its lines are made of one of its inks. -/
namespace PolicyFormat

open Policy Layout

variable {text : String} {s : Specification}

/-- A tree that is read from a text is as it should be to be laid out. -/
theorem Policy.Specification.formed_ofText {tidying : Tidying} (h : Specification.ofText tidying text = .ok s) :
    Specification.Formed (Comment.Found text) s := by
  obtain ⟨parsed, hParsed, rfl⟩ := Specification.exists_of_ofText h
  have hPlaced := (Specification.placed_commentsOf text hParsed).1.formed
  exact Specification.formed_tidy (fun c _ hc => ⟨hc.legible, hc.apart.ordered, hc.apart.apart⟩) tidying
    ((Specification.formed_markBlankLines _ _).2 hPlaced)

variable {options : Options}

/-- A tree that is read from a text has lines, which are made of one of the inks of a tree that differs
from it only in the blank lines of lists. -/
theorem beautifiedLines_of_ofText (h : Specification.ofText options.tidying text = .ok s) :
    ∃ lines, beautifiedLines options text = .ok lines ∧ lines ≠ [] ∧
      ∃ y ink, Specification.plain y = Specification.plain s ∧
        specificationLines y { pageWidth := options.pageWidth } = .ok lines ∧
        Specification.Inked y ink ∧ Spells ink lines := by
  obtain ⟨y, hPlain, hLines, -, result, hResult, hNonempty, ink, hInked, hSpells⟩ :=
    specificationLines_shown (fun _ h => h.legible) (Specification.formed_ofText h)
      (show ({ pageWidth := options.pageWidth } : Frame).keepsBlank = none from rfl) rfl
  refine ⟨result, ?_, hNonempty, y, ink, hPlain, hLines.trans hResult, hInked, hSpells⟩
  simp only [beautifiedLines, h, hResult]

variable {output : String}

theorem beautify_eq_ok_iff : beautify options text = .ok output ↔ ∃ lines, beautifiedLines options text = .ok lines ∧
        renderLines (lineEndingFor text options.lineEnding) lines = output := by
  unfold beautify
  cases beautifiedLines options text with
  | error e => simp [bind, Except.bind]
  | ok lines => simp [bind, Except.bind, pure, Except.pure]

theorem beautify_eq_ok_of_ofText (h : Specification.ofText options.tidying text = .ok s) :
    ∃ output, beautify options text = .ok output := by
  obtain ⟨lines, hLines, -⟩ := beautifiedLines_of_ofText h
  exact ⟨_, beautify_eq_ok_iff.2 ⟨lines, hLines, rfl⟩⟩

/-- A text that can be read is beautified. -/
theorem beautify_eq_ok_of_parse {parsed : Specification} (h : (Scan.ofText text).parse = .ok parsed)
    (options : Options) : ∃ output, beautify options text = .ok output := by
  have hTree := Specification.ofText_eq options.tidying text
  rw [h] at hTree
  exact beautify_eq_ok_of_ofText hTree

/-- A beautified text is laid out from the tree of the text that it was made from. -/
theorem lines_of_beautify (hTree : Specification.ofText options.tidying text = .ok s)
    (h : beautify options text = .ok output) :
    ∃ lines y ink, beautifiedLines options text = .ok lines ∧
      renderLines (lineEndingFor text options.lineEnding) lines = output ∧ lines ≠ [] ∧
      Specification.plain y = Specification.plain s ∧ Specification.Inked y ink ∧ Spells ink lines := by
  obtain ⟨lines, hLines, hNonempty, y, ink, hPlain, -, hInked, hSpells⟩ := beautifiedLines_of_ofText hTree
  obtain ⟨lines', hLines', hOutput⟩ := beautify_eq_ok_iff.1 h
  obtain rfl : lines = lines' := Except.ok.inj (hLines.symm.trans hLines')
  exact ⟨lines, y, ink, hLines, hOutput, hNonempty, hPlain, hInked, hSpells⟩

/-- A text that cannot be read is refused with a report on what was refused. -/
theorem beautify_eq_error_of_parse {refusal : Refusal} (h : (Scan.ofText text).parse = .error refusal)
    (options : Options) : beautify options text = .error (.syntaxError (refusal.report text)) := by
  have hTree : Specification.ofText options.tidying text = .error (refusal.report text) := by
    rw [Specification.ofText_eq, h]
  simp [beautify, beautifiedLines, hTree, bind, Except.bind]

/-- Only a text that can be read is beautified. -/
theorem beautify_eq_ok (h : beautify options text = .ok output) :
    ∃ parsed s lines, (Scan.ofText text).parse = .ok parsed ∧
      Specification.ofText options.tidying text = .ok s ∧ beautifiedLines options text = .ok lines ∧
      renderLines (lineEndingFor text options.lineEnding) lines = output := by
  obtain ⟨lines, hLines, hOutput⟩ := beautify_eq_ok_iff.1 h
  have hTree := Specification.ofText_eq options.tidying text
  cases hParsed : (Scan.ofText text).parse with
  | error refusal =>
    rw [hParsed] at hTree
    simp [beautifiedLines, hTree] at hLines
  | ok parsed =>
    rw [hParsed] at hTree
    exact ⟨parsed, _, lines, rfl, hTree, hLines, hOutput⟩

/-! ### The line ending of a text -/

theorem hasCarriageReturn_iff (cs : List Char) :
    lineEndingFor.hasCarriageReturn cs = true ↔ ['\r', '\n'] <:+: cs := by
  fun_induction lineEndingFor.hasCarriageReturn cs with
  | case1 rest => simpa using ⟨[], rest, rfl⟩
  | case2 c rest hOther ih =>
    rw [ih, List.infix_cons_iff, or_iff_right]
    rintro ⟨more, hMore⟩
    obtain ⟨rfl, rfl⟩ := List.cons.inj hMore
    exact hOther more rfl rfl
  | case3 => simp

theorem lineEndingFor_congr {a b : String} (h : ['\r', '\n'] <:+: a.toList ↔ ['\r', '\n'] <:+: b.toList)
    (asked : Option String) : lineEndingFor a asked = lineEndingFor b asked := by
  have hSame : lineEndingFor.hasCarriageReturn a.toList = lineEndingFor.hasCarriageReturn b.toList := by
    rw [Bool.eq_iff_iff, hasCarriageReturn_iff, hasCarriageReturn_iff, h]
  simp only [lineEndingFor, hSame]

end PolicyFormat
