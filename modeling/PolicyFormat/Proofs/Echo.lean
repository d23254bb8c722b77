import PolicyFormat.Proofs.Cleanliness
import PolicyFormat.Proofs.Preservation
import PolicyFormat.Proofs.Punctuated
import PolicyFormat.Proofs.SameLayout
import PolicyFormat.Proofs.TreeMarks

/-! A text without comments that is laid out and read again. Its blank lines are those that were laid out, and
the tree that is read is marked with just these. -/
namespace PolicyFormat

open Policy Policy.Lexeme Layout Abstract

/-! ### Line breaks tell blank lines -/

/-- The line breaks before an entry: none within a line, one to start a line, and one more for a blank line. -/
def blankGap : Option Bool → Nat → Prop
  | none, count => count = 0
  | some blank, count => count = 1 + blank.toNat

theorem shows_byLayout : Shows Comment.Never byLayout blankGap := by
  intro previous t count h
  rcases h fun _ hc => hc with ⟨hCount, -, hRank⟩ | ⟨hCount, hRank⟩
  · simpa [byLayout, hRank, blankGap] using hCount
  · simpa [byLayout, hRank, blankGap] using hCount

theorem byLines_reads : byLines.Reads blankGap := by
  intro mark count previous t hGap hLine
  cases mark with
  | none =>
    obtain rfl : count = 0 := hGap
    simp [byLines, hLine]
  | some blank =>
    obtain rfl : count = 1 + blank.toNat := hGap
    cases blank <;> simp [byLines, hLine]

/-! ### Reading a layout again -/

/-- The tokens of a text stand as tokens do where commas and semicolons trail. -/
theorem Policy.Scan.stands {text : String} (hNone : (Scan.ofText text).comments = [])
    (hTrails : Tracked (fun line t => Abstract.Trails t.text → t.line = line) 0 (Scan.ofText text).tokens) :
    Tracked (Token.Stands (emptyLines text).contains) 0 (Scan.ofText text).tokens := by
  refine ((scanned_ofText.follows hNone (blankSince_ofText text)).and hTrails).imp fun t ht line h => ?_
  have hSpelling := scanned_ofText.spelling t ht
  refine ⟨h.1, hSpelling.endLine_eq, fun hKind => h.2 ?_⟩
  rcases hKind with hKind | hKind
  · exact .inl (hSpelling.eq_of_fixedText (by rw [hKind]; rfl))
  · exact .inr (hSpelling.eq_of_fixedText (by rw [hKind]; rfl))

/-- A tree, as it is laid out on lines, and the tree that is read from these lines. -/
structure Echo (s : Specification) (f : Frame) (ending : String) (lines : List Line) (y again : Specification) :
    Prop where
  /-- Only blank lines of lists may be lost. -/
  plain : Specification.plain y = Specification.plain s
  formed : Specification.Formed Comment.Never y
  alike : Specification.Alike y s
  firm : ∀ z, Specification.Formed Comment.Never z → Specification.Alike y z → specificationLines z f = .ok lines
  parsed : (Scan.ofText (renderLines ending lines)).parse = .ok again
  uncommented : (Scan.ofText (renderLines ending lines)).comments = []
  /-- The lines tell the blank lines that were laid out. -/
  told : again.meaning byLines = (y.meaning byLayout).bare
  stands : Tracked (Token.Stands (emptyLines (renderLines ending lines)).contains) 0
    (Scan.ofText (renderLines ending lines)).tokens

/-- The tree that is read is marked with the blank lines that were laid out. -/
theorem Echo.marked {s : Specification} {f : Frame} {ending : String} {lines : List Line} {y again : Specification}
    (h : Echo s f ending lines y again) :
    (again.markBlankLines (emptyLines (renderLines ending lines)).contains).meaning byMarks =
      (y.meaning byLayout).bare := by
  obtain ⟨line, offset, -, hDerived⟩ := Scan.parse_eq_ok.1 h.parsed
  rw [hDerived.meaning_markBlankLines (not_mem_emptyLines_zero _) h.stands, h.told]

/-- A text without comments is laid out on lines that can be read again. -/
theorem beautify_echo {options : Options} {text output : String} (hNone : (Scan.ofText text).comments = [])
    (hEnding : ∀ ending ∈ options.lineEnding, ending = "" ∨ ending = "\n" ∨ ending = "\r\n")
    (h : beautify options text = .ok output) :
    ∃ parsed lines y ink again, (Scan.ofText text).parse = .ok parsed ∧
      renderLines (lineEndingFor text options.lineEnding) lines = output ∧ lines ≠ [] ∧
      Specification.Inked y ink ∧ Spells ink lines ∧ ink.notes = [] ∧ (∀ mark ∈ ink, mark.Valid) ∧
      Echo ((parsed.markBlankLines (emptyLines text).contains).tidy options.tidying)
        { pageWidth := options.pageWidth } (lineEndingFor text options.lineEnding) lines y again := by
  obtain ⟨parsed, s, lines, hParsed, hTree, hLines, rfl⟩ := beautify_eq_ok h
  obtain rfl : (parsed.markBlankLines (emptyLines text).contains).tidy options.tidying = s :=
    Except.ok.inj ((Specification.ofText_of_comments_nil hNone hParsed _).symm.trans hTree)
  have hFormed := Specification.formed_tidied hParsed (emptyLines text).contains options.tidying
  obtain ⟨y, hPlain, -, hFirm, lines', hLaid, hNonempty, ink, hInked, hSpells⟩ :=
    specificationLines_shown (fun _ h => h.elim) hFormed
      (show ({ pageWidth := options.pageWidth } : Frame).keepsBlank = none from rfl) rfl
  obtain rfl : lines = lines' := by simpa [beautifiedLines, hTree, hLaid] using hLines.symm
  obtain ⟨hAlike, hAll⟩ := hFirm hFormed
  replace hPlain : Specification.plain y = Specification.plain _ := hPlain
  have hy := Specification.formed_of_plain hPlain hFormed
  have hLineEnding := isLineEnding_lineEndingFor text hEnding
  obtain ⟨code, hCoded, hValid, hTells, hRescanned⟩ :=
    Specification.retold (fun _ h => h.elim) shows_byLayout hy hy.closed hInked hSpells hNonempty hLineEnding
  have hNotes : ink.notes = [] := by
    refine List.eq_nil_iff_forall_not_mem.2 fun note hNote => ?_
    obtain ⟨t, ht, -⟩ := Specification.exists_comment hTree hPlain hy hInked hNote
    simp [hNone] at ht
  have hUncommented := hRescanned.comments id hNotes
  obtain ⟨again, hParsedAgain, hTold⟩ := Specification.rereads (fun _ h => h.elim) shows_byLayout byLines_reads rfl
    hy hy.closed hInked hSpells hNonempty hLineEnding
  exact ⟨parsed, lines, y, ink, again, hParsed, rfl, hNonempty, hInked, hSpells, hNotes, hValid,
    hPlain, hy, hAlike, fun z hz hyz => (hAll z hz hyz).trans hLaid, hParsedAgain, hUncommented, hTold,
    Scan.stands hUncommented ((hCoded.snug true).tracked (by simp) hTells)⟩

end PolicyFormat
