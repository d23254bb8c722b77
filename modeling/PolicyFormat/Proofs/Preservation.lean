import PolicyFormat.Proofs.Accounted
import PolicyFormat.Proofs.Rereading
import PolicyFormat.Proofs.Uncommented

/-! Beautifying a text without comments does not change what it says. -/
namespace PolicyFormat

open Policy Layout Abstract

/-! ### Texts without comments -/

namespace Policy

variable {text : String} {parsed : Specification}

/-- A tree as it is read holds no comments. -/
theorem Specification.formed_of_parse (h : (Scan.ofText text).parse = .ok parsed) :
    Specification.Formed (fun _ => False) parsed := by
  obtain ⟨line, offset, -, hDerived⟩ := Scan.parse_eq_ok.1 h
  have hSetting : Setting (fun _ => False) (Scan.ofText text).tokens :=
    ⟨scanned_ofText.spelling, scanned_ofText.tokens_ordered.imp And.left, fun _ h => h.elim, fun _ _ _ h => h⟩
  have hPlaced := Specification.placed hSetting hDerived ⟨by simp, .nil⟩
  rw [hDerived.receive_nil] at hPlaced
  exact hPlaced.formed

theorem commentsOf_of_comments_nil (h : (Scan.ofText text).comments = []) : commentsOf text = [] := by
  rw [commentsOf, groupsOf, h]
  rfl

/-- The tree of a text without comments is the one that is read, with its blank lines marked and its
promise types in order. -/
theorem Specification.ofText_of_comments_nil (hNone : (Scan.ofText text).comments = [])
    (h : (Scan.ofText text).parse = .ok parsed) (tidying : Tidying) :
    Specification.ofText tidying text = .ok ((parsed.markBlankLines (emptyLines text).contains).tidy tidying) := by
  obtain ⟨line, offset, -, hDerived⟩ := Scan.parse_eq_ok.1 h
  rw [Specification.ofText_eq, h, commentsOf_of_comments_nil hNone]
  simp only [hDerived.receive_nil]

theorem Specification.formed_tidied (h : (Scan.ofText text).parse = .ok parsed) (isEmpty : Int → Bool)
    (tidying : Tidying) :
    Specification.Formed (fun _ => False) ((parsed.markBlankLines isEmpty).tidy tidying) :=
  Specification.formed_tidy (fun _ _ h => h) tidying
    ((Specification.formed_markBlankLines _ _).2 (Specification.formed_of_parse h))

/-- Without comments, all lists are closed. -/
theorem Specification.Formed.closed {s : Specification} (h : Specification.Formed (fun _ => False) s) :
    s.tally openTally = 0 := by
  rw [h.tally_eq rfl (fun ⟨_, hc⟩ => hc.elim), commentTally]
  exact List.sum_eq_zero (by simp [Comment.tally, openTally])

end Policy

/-- Beautifying a text without comments gives a text that is accepted again, and that says the same
apart from empty and unsorted promise types and from calls without arguments. -/
theorem beautify_preserves_meaning {options : Options} {text output : String}
    (hNone : (Scan.ofText text).comments = [])
    (hEnding : ∀ ending ∈ options.lineEnding, ending = "" ∨ ending = "\n" ∨ ending = "\r\n")
    (h : beautify options text = .ok output) :
    (∃ again, beautify options output = .ok again) ∧
      ∃ parsed reparsed, (Scan.ofText text).parse = .ok parsed ∧
        (Scan.ofText output).parse = .ok reparsed ∧
        reparsed.meaning blind = (parsed.meaning blind).normal options.tidying := by
  obtain ⟨parsed, s, -, hParsed, hTree, -, -⟩ := beautify_eq_ok h
  obtain rfl : (parsed.markBlankLines (emptyLines text).contains).tidy options.tidying = s :=
    Except.ok.inj ((Specification.ofText_of_comments_nil hNone hParsed _).symm.trans hTree)
  obtain ⟨lines, y, ink, -, rfl, hNonempty, hPlain, hInked, hSpells⟩ := lines_of_beautify hTree h
  have hFormed := Specification.formed_of_plain hPlain
    (Specification.formed_tidied hParsed (emptyLines text).contains options.tidying)
  obtain ⟨reparsed, hReparsed, hMeaning⟩ := Specification.rereads (fun _ h => h.elim) shows_blind blind_reads
    rfl hFormed hFormed.closed hInked hSpells hNonempty (isLineEnding_lineEndingFor text hEnding)
  refine ⟨beautify_eq_ok_of_parse hReparsed options, parsed, reparsed, hParsed, hReparsed, ?_⟩
  calc reparsed.meaning blind
    _ = (y.meaning blind).bare := hMeaning
    _ = (Specification.meaning blind
          ((parsed.markBlankLines (emptyLines text).contains).tidy options.tidying)).bare := by
        rw [Specification.meaning_of_plain hPlain]
    _ = (((parsed.markBlankLines (emptyLines text).contains).meaning blind).tidy options.tidying).bare := by
        rw [Specification.meaning_tidy (fun _ h => h) options.tidying
          ((Specification.formed_markBlankLines _ _).2 (Specification.formed_of_parse hParsed))]
    _ = (parsed.meaning blind).normal options.tidying := by
        rw [Specification.meaning_markBlankLines _ _ fun _ _ => rfl]
        rfl

/-- A bundle with an empty promise type, promise types out of order, and calls without arguments, and a
body. -/
def untidyPolicy : String :=
  "bundle a b()\x7breports: \"c\" usebundle => f(), d => g(); files: vars: x:: \"y\";\x7d body b c \x7bd => e();\x7d"

theorem untidyPolicy_keeps_its_meaning :
    (Scan.ofText untidyPolicy).comments = [] ∧
      ∃ output parsed reparsed, beautify { tidying := ⟨true, true⟩ } untidyPolicy = .ok output ∧
        (Scan.ofText untidyPolicy).parse = .ok parsed ∧ (Scan.ofText output).parse = .ok reparsed ∧
        reparsed.meaning blind = (parsed.meaning blind).normal ⟨true, true⟩ := by
  have hNone : (Scan.ofText untidyPolicy).comments = [] := by decide +kernel
  have hOk : (Scan.ofText untidyPolicy).parse.isOk = true := by decide +kernel
  obtain ⟨parsed, h⟩ := exists_of_isOk hOk
  obtain ⟨output, hOutput⟩ := beautify_eq_ok_of_parse h { tidying := ⟨true, true⟩ }
  obtain ⟨-, hSame⟩ := beautify_preserves_meaning hNone (by simp) hOutput
  obtain ⟨parsed', reparsed, hParsed, hReparsed, hMeaning⟩ := hSame
  exact ⟨hNone, output, parsed', reparsed, hOutput, hParsed, hReparsed, hMeaning⟩

end PolicyFormat
