import PolicyFormat.Proofs.Beautified
import PolicyFormat.Proofs.Located
import PolicyFormat.Proofs.Refusals

/-! Reports on texts that are refused point to what was refused, unless the text ended too early. -/
namespace PolicyFormat

open Policy

namespace Policy

/-- The report on a text that ended too early. It has no place in the text. -/
def SyntaxError.endOfFile : SyntaxError :=
  { fragment := "End of file", line := 0, column := 1, offset := 0 }

/-- The report shows a part of the text that is not empty, with the line and the offset where it starts. The
column counts from the last line feed before it, or from before the text if there is none. -/
structure SyntaxError.PointsInto (text : List Char) (e : SyntaxError) : Prop where
  nonempty : e.fragment ≠ ""
  located : ∃ rest, At text e.offset e.line (e.fragment.toList ++ rest)
  column : ∃ above start, text.take e.offset.toNat = above ++ start ∧ (∀ z ∈ above.getLast?, z = '\n') ∧
    '\n' ∉ start ∧ e.column = e.offset - ((above.length : Int) - 1)

/-- What a report points to lies within the text. -/
theorem SyntaxError.PointsInto.within {text : List Char} {e : SyntaxError} (h : e.PointsInto text) :
    0 ≤ e.offset ∧ e.offset < text.length ∧ e.offset + e.fragment.length ≤ text.length := by
  obtain ⟨rest, hAt⟩ := h.located
  have hLength := hAt.length
  have hNonempty : 0 < e.fragment.length := by
    rw [← String.length_toList]
    exact List.length_pos_iff.2 (by simpa using h.nonempty)
  simp only [List.length_append, String.length_toList] at hLength
  exact ⟨hAt.offset_nonneg, by omega, by omega⟩

/-- The report on a fragment points to it. -/
theorem SyntaxError.pointsInto_ofFragment {text : String} {fragment : String} {offset line : Int} {rest : List Char}
    (h : At text.toList offset line (fragment.toList ++ rest)) (hNonempty : fragment ≠ "") :
    (SyntaxError.ofFragment fragment line text offset).PointsInto text.toList := by
  refine ⟨hNonempty, ⟨rest, h⟩, ?_⟩
  obtain ⟨before, hText, rfl, -⟩ := h
  obtain ⟨above, start, rfl, hAbove, hStart⟩ := exists_lines before
  refine ⟨above, start, ?_, hAbove, hStart, ?_⟩
  · rw [hText, ofFragment, Int.toNat_natCast, List.take_left]
  · simp only [ofFragment, hText]
    rw [Text.previousLineFeed_append hAbove hStart]

/-- What is refused is found in the text, or is its end. -/
theorem Refusal.report_points (text : String) {refusal : Refusal} (h : FirstFault (Scan.ofText text) refusal) :
    refusal.report text = SyntaxError.endOfFile ∨ (refusal.report text).PointsInto text.toList := by
  obtain ⟨finds, hFinds⟩ := scanned_ofText.accounts (at_start text.toList)
  cases refusal with
  | endOfFile => exact .inl rfl
  | unexpected t =>
    obtain ⟨before, after, hTokens, -⟩ := h
    have hMem : t ∈ (Scan.ofText text).tokens := by simp [hTokens]
    obtain ⟨rest, hAt⟩ := hFinds.located _ (hFinds.token_mem hMem)
    refine .inr (SyntaxError.pointsInto_ofFragment hAt fun hEmpty => ?_)
    exact (scanned_ofText.spelling t hMem).ne_nil (by simp [hEmpty])
  | unreadable rest line offset =>
    have hEnding := hFinds.ending
    change Ending.Located text.toList (Scan.ofText text).ending at hEnding
    rw [h.1] at hEnding
    have hAt : At text.toList offset line (rest.toList ++ []) := by simpa using hEnding.2
    exact .inr (SyntaxError.pointsInto_ofFragment hAt hEnding.1)

end Policy

/-- A text that is not beautified is refused with a report. Either it ended too early, or the report shows what
the text has at the offset that is given, on the line and in the column of that offset, so that the fragment lies
within the text. -/
theorem beautify_errors_point_into_text {options : Options} {text : String} {failure : Failure}
    (h : beautify options text = .error failure) :
    ∃ e, failure = .syntaxError e ∧ (e = SyntaxError.endOfFile ∨
      e.PointsInto text.toList ∧ 0 ≤ e.offset ∧ e.offset < text.length ∧
        e.offset + e.fragment.length ≤ text.length) := by
  cases hParsed : (Scan.ofText text).parse with
  | ok parsed =>
    obtain ⟨output, hOutput⟩ := beautify_eq_ok_of_parse hParsed options
    cases h.symm.trans hOutput
  | error refusal =>
    have hReport := beautify_eq_error_of_parse hParsed options
    obtain rfl : failure = .syntaxError (refusal.report text) := Except.error.inj (h.symm.trans hReport)
    refine ⟨_, rfl, ?_⟩
    have hFault := Scan.firstFault_of_parse scanned_ofText.tokens_nodup hParsed
    refine (Refusal.report_points text hFault).imp_right fun hPoints => ⟨hPoints, ?_⟩
    simpa [String.length_toList] using hPoints.within

/-- A string over two lines, a comment, and a word that has no place after them. -/
def misplacedWord : String :=
  "body a b\x7bc=>\"d\ne\"#f\n g\x7d"

theorem misplacedWord_is_reported :
    beautify {} misplacedWord = .error (.syntaxError ⟨"g", 3, 2, 21⟩) ∧
      ∃ e, Failure.syntaxError ⟨"g", 3, 2, 21⟩ = .syntaxError e ∧ (e = SyntaxError.endOfFile ∨
        e.PointsInto misplacedWord.toList ∧ 0 ≤ e.offset ∧ e.offset < misplacedWord.length ∧
          e.offset + e.fragment.length ≤ misplacedWord.length) := by
  have hError : beautify {} misplacedWord = .error (.syntaxError ⟨"g", 3, 2, 21⟩) := by decide +kernel
  exact ⟨hError, beautify_errors_point_into_text hError⟩

end PolicyFormat
