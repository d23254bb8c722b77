import PolicyFormat.Proofs.Echo
import PolicyFormat.Proofs.Located

/-! Beautifying a beautified text without comments changes nothing. -/
namespace PolicyFormat

open Policy Policy.Lexeme Layout Abstract

/-! ### The line endings of a layout -/

theorem not_infix_append {a b : List Char} (ha : ¬ ['\r', '\n'] <:+: a) (hb : ¬ ['\r', '\n'] <:+: b)
    (hLast : a.getLast? ≠ some '\r') : ¬ ['\r', '\n'] <:+: a ++ b := by
  rw [List.infix_append_iff]
  rintro (h | h | ⟨front, back, hPair, hFront, hBack⟩)
  · exact ha h
  · exact hb h
  · rcases front with _ | ⟨c, _ | ⟨d, front⟩⟩
    · exact hb (hPair ▸ hBack.isInfix)
    · obtain ⟨init, rfl⟩ := hFront
      obtain ⟨rfl, -⟩ : '\r' = c ∧ _ := List.cons.inj hPair
      exact hLast (by simp)
    · obtain ⟨rfl, hRest⟩ := List.cons.inj hPair
      obtain ⟨rfl, hNil⟩ := List.cons.inj hRest
      obtain rfl : front = [] := (List.append_eq_nil_iff.1 hNil.symm).1
      exact ha hFront.isInfix

theorem not_infix_spaces {cs : List Char} (indent : Nat) (h : ¬ ['\r', '\n'] <:+: cs) :
    ¬ ['\r', '\n'] <:+: List.replicate indent ' ' ++ cs := by
  have hMember : '\r' ∉ List.replicate indent ' ' := fun hMem => absurd (List.eq_of_mem_replicate hMem) (by decide)
  exact not_infix_append (fun hPair => hMember (hPair.subset (by simp))) h fun hLast =>
    hMember (List.mem_of_getLast? hLast)

/-- A carriage return that is followed by a line feed comes from a line ending or stands within a word. -/
theorem Layout.Written.unpaired {pending : List String} {ink : Ink} {cs : List Char}
    (h : Written ['\n'] pending ink cs) (hPending : pending = []) (hNotes : ink.notes = [])
    (hValid : ∀ mark ∈ ink, mark.Valid) (hPairs : ink.Made fun word => ¬ ['\r', '\n'] <:+: word.toList) :
    ¬ ['\r', '\n'] <:+: cs := by
  induction h with
  | nil =>
    subst hPending
    simp
  | newline indent hEmpty hRest ih =>
    subst hPending
    have hMore := ih rfl hNotes (List.forall_mem_cons.1 hValid).2 (Ink.made_cons.1 hPairs).2
    exact not_infix_append (by simp) (not_infix_append (by decide) (not_infix_spaces indent hMore) (by decide))
      (by simp)
  | tail hRest ih => cases hNotes
  | @mark _ mark _ _ hNewline hTail hRest ih =>
    obtain ⟨hText, hRestValid⟩ := List.forall_mem_cons.1 hValid
    obtain ⟨hPair, hRestPairs⟩ := Ink.made_cons.1 hPairs
    cases mark with
    | word text =>
      obtain ⟨body, z, hLast, hz⟩ := Spelling.last_solid hText
      refine not_infix_append hPair (ih hPending hNotes hRestValid hRestPairs) ?_
      simpa [Mark.text, hLast] using hz.2.2.2
    | space => exact not_infix_append (by decide) (ih hPending hNotes hRestValid hRestPairs) (by decide)
    | note text => cases hNotes
    | tail spaced text => cases hNotes
    | newline => exact absurd rfl hNewline

theorem Policy.Scan.token_within_text {text : String} :
    ∀ t ∈ (Scan.ofText text).tokens, t.text.toList <:+: text.toList := by
  intro t ht
  obtain ⟨finds, hFinds⟩ := scanned_ofText.accounts (at_start text.toList)
  obtain ⟨rest, before, hText, -⟩ := hFinds.located _ (hFinds.token_mem ht)
  exact ⟨before, rest, by simp [hText]⟩

/-- The line ending that a layout is given is the one that is found in it. -/
theorem renderLines_again {text : String} {ink : Ink} {lines : List Line} (hSpells : Spells ink lines)
    (hLines : lines ≠ []) (hNotes : ink.notes = []) (hValid : ∀ mark ∈ ink, mark.Valid)
    (hPairs : ¬ ['\r', '\n'] <:+: text.toList → ink.Made fun word => ¬ ['\r', '\n'] <:+: word.toList)
    (asked : Option String) :
    renderLines (lineEndingFor (renderLines (lineEndingFor text asked) lines) asked) lines =
      renderLines (lineEndingFor text asked) lines := by
  obtain ⟨l, rest, rfl⟩ := List.exists_cons_of_ne_nil hLines
  cases rest with
  | nil => rw [renderLines, renderLines]; rfl
  | cons next rest =>
    cases hAsked : asked.filter (fun e => !e.isEmpty) with
    | some ending => simp [lineEndingFor, hAsked]
    | none =>
      rw [lineEndingFor_congr (a := renderLines _ _) (b := text)]
      by_cases hText : ['\r', '\n'] <:+: text.toList
      · have hEnding : lineEndingFor text asked = "\r\n" := by
          simp [lineEndingFor, hAsked, hasCarriageReturn_iff, hText]
        rw [hEnding]
        refine iff_of_true ?_ hText
        rw [toList_renderLines]
        exact ⟨l.render.toList, next.render.toList ++ restChars "\r\n" rest, by simp [restChars]⟩
      · have hEnding : lineEndingFor text asked = "\n" := by
          simp [lineEndingFor, hAsked, hasCarriageReturn_iff, hText]
        rw [hEnding]
        refine iff_of_false ?_ hText
        obtain ⟨indent, cs, hOutput, -, hWritten⟩ := hSpells.written hLines "\n"
        rw [hOutput]
        exact not_infix_spaces indent (hWritten.unpaired rfl hNotes hValid (hPairs hText))

/-- A beautified text without comments is beautiful: beautifying it again gives the same text. -/
theorem beautify_converges {options : Options} {text output : String} (hNone : (Scan.ofText text).comments = [])
    (hEnding : ∀ ending ∈ options.lineEnding, ending = "" ∨ ending = "\n" ∨ ending = "\r\n")
    (h : beautify options text = .ok output) : beautify options output = .ok output := by
  obtain ⟨parsed, lines, y, ink, again, hParsed, rfl, hNonempty, hInked, hSpells, hNotes, hValid, hEcho⟩ :=
    beautify_echo hNone hEnding h
  refine beautify_eq_ok_iff.2 ⟨lines, ?_, renderLines_again hSpells hNonempty hNotes hValid (fun hText => ?_) _⟩
  · have hTidy : Specification.IsTidy options.tidying y := by
      rw [← Specification.isTidy_plain, hEcho.plain, Specification.isTidy_plain]
      exact Specification.isTidy_tidy (fun _ => id) _
        ((Specification.formed_markBlankLines _ _).2 (Specification.formed_of_parse hParsed))
    have hAlike := Specification.alike_of_meaning hEcho.formed
      ((Specification.formed_markBlankLines _ _).2 (Specification.formed_of_parse hEcho.parsed)) hTidy
      hEcho.marked.symm
    have hAgain := hEcho.firm _ (Specification.formed_tidied hEcho.parsed _ options.tidying) hAlike
    simp only [beautifiedLines, Specification.ofText_of_comments_nil hEcho.uncommented hEcho.parsed, hAgain]
  · refine hInked.made (Specification.ofText_of_comments_nil hNone hParsed options.tidying) hEcho.plain hEcho.formed
      (by constructor <;> decide) (fun t ht hPair => hText (hPair.trans (Scan.token_within_text t ht))) ?_
    simp [hNone]

/-- A body and a bundle with blank lines between statements and elements, a blank line in a string, an empty
promise type, promise types out of order, and calls without arguments. Not all lines end alike. -/
def crowdedPolicy : String :=
  "body a b\r\n\x7b\r\n\r\nc => \x7b \"d\n\n\", f(), g,\n\nh \x7d;\r\n\r\n\r\ne => \"g\";\x7d\n\n" ++
    "bundle agent h\x7breports: \"i\" j => k(), l => m;\n\n \"n\"; files: vars: x::\n\n\"y\";\x7d"

theorem crowdedPolicy_converges :
    (Scan.ofText crowdedPolicy).comments = [] ∧
      ∃ output, beautify { pageWidth := 20, tidying := ⟨true, true⟩ } crowdedPolicy = .ok output ∧
        beautify { pageWidth := 20, tidying := ⟨true, true⟩ } output = .ok output := by
  have hNone : (Scan.ofText crowdedPolicy).comments = [] := by decide +kernel
  have hOk : (Scan.ofText crowdedPolicy).parse.isOk = true := by decide +kernel
  obtain ⟨parsed, h⟩ := exists_of_isOk hOk
  obtain ⟨output, hOutput⟩ := beautify_eq_ok_of_parse h { pageWidth := 20, tidying := ⟨true, true⟩ }
  exact ⟨hNone, output, hOutput, beautify_converges hNone (by simp) hOutput⟩

end PolicyFormat
