import PolicyFormat.Proofs.Rereading

/-! A beautified text is accepted again, unless a comment took the place of a closing bracket. -/
namespace PolicyFormat

open Policy Layout Abstract

/-- If no list in round brackets ends in a comment, a beautified text can be read again, and is read as
the policy that was laid out. -/
theorem beautify_accepts_beautified {options : Options} {text output : String} {s : Specification}
    (hEnding : ∀ ending ∈ options.lineEnding, ending = "" ∨ ending = "\n" ∨ ending = "\r\n")
    (hTree : Specification.ofText options.tidying text = .ok s) (hClosed : s.tally openTally = 0)
    (h : beautify options text = .ok output) :
    (∃ again, beautify options output = .ok again) ∧
      ∃ reparsed, (Scan.ofText output).parse = .ok reparsed ∧
        reparsed.meaning blind = (s.meaning blind).bare := by
  obtain ⟨lines, y, ink, -, rfl, hNonempty, hPlain, hInked, hSpells⟩ := lines_of_beautify hTree h
  have hFormed := Specification.formed_of_plain hPlain (Specification.formed_ofText hTree)
  have hTally := (Specification.tally_of_plain openTally hPlain).trans hClosed
  obtain ⟨reparsed, hReparsed, hMeaning⟩ := Specification.rereads (fun _ h => h.legible) shows_blind
    blind_reads rfl hFormed hTally hInked hSpells hNonempty (isLineEnding_lineEndingFor text hEnding)
  refine ⟨beautify_eq_ok_of_parse hReparsed options, reparsed, hReparsed, ?_⟩
  rw [hMeaning, Specification.meaning_of_plain hPlain]

/-- A call with comments between and after its arguments. -/
def commentedCall : String :=
  "body a b\x7bc=>f(#e\n\"d\",\n\n#e\n\n\"g\"#e\n);\x7d"

theorem commentedCall_is_accepted_again :
    ∃ s output, Specification.ofText {} commentedCall = .ok s ∧ s.tally openTally = 0 ∧
      beautify {} commentedCall = .ok output ∧ ∃ again, beautify {} output = .ok again := by
  have hTally : (Specification.ofText {} commentedCall).toOption.map (·.tally openTally) = some 0 := by
    decide +kernel
  obtain ⟨s, hTree, hClosed⟩ := exists_of_toOption hTally
  have hTidied : Specification.ofText ({} : Options).tidying commentedCall = .ok s := hTree
  obtain ⟨output, hOutput⟩ := beautify_eq_ok_of_ofText hTidied
  exact ⟨s, output, hTree, hClosed, hOutput, (beautify_accepts_beautified (by simp) hTidied hClosed hOutput).1⟩

/-- A call whose last argument is followed by a comment of its own. -/
def commentBeforeBracket : String :=
  "body a b\x7bc=>f(\"d\"\n\n#e\n\n);\x7d"

/-- The call, as it is laid out, has no closing bracket. -/
theorem commentBeforeBracket_is_not_accepted_again :
    ∃ output, beautify {} commentBeforeBracket = .ok output ∧ ∀ again, beautify {} output ≠ .ok again := by
  have hLines : beautifiedLines {} commentBeforeBracket = .ok
      [⟨"body a b \x7b", some 0, []⟩, ⟨"c => f(\"d\",", some 4, []⟩, ⟨"# e;", some 11, []⟩,
        ⟨"\x7d", some 0, []⟩, ⟨"", some 0, []⟩] := by
    decide +kernel
  have hEnding : lineEndingFor commentBeforeBracket ({} : Options).lineEnding = "\n" := by decide +kernel
  refine ⟨"body a b \x7b\n    c => f(\"d\",\n           # e;\n\x7d\n", ?_, ?_⟩
  · refine beautify_eq_ok_iff.2 ⟨_, hLines, ?_⟩
    rw [hEnding]
    simp [renderLines, Line.render, List.replicate, String.intercalate_cons_cons]
  · intro again h
    obtain ⟨parsed, -, -, hParsed, -⟩ := beautify_eq_ok h
    have hRefused : (Scan.ofText "body a b \x7b\n    c => f(\"d\",\n           # e;\n\x7d\n").parse.isOk = false := by
      decide +kernel
    rw [hParsed] at hRefused
    cases hRefused

end PolicyFormat
