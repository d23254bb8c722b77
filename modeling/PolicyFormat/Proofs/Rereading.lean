import PolicyFormat.Proofs.Beautified
import PolicyFormat.Proofs.TreeCode

/-! What is laid out can be read again, and says what was laid out. -/
namespace PolicyFormat

open Policy Layout Abstract

/-! ### Reading lines again -/

variable {μ : Type} {P : Comment → Prop} {v : View μ} {gap : μ → Nat → Prop} {s : Specification} {ink : Ink}
  {lines : List Line} {ending : String}

/-- Lines of a tree whose lists are all closed fall into the words of a code of what was laid out. -/
theorem Policy.Specification.retold (hP : ∀ c, P c → c.Legible) (hShows : Shows P v gap)
    (hFormed : Specification.Formed P s) (hClosed : s.tally openTally = 0) (hInked : Specification.Inked s ink)
    (hSpells : Spells ink lines) (hLines : lines ≠ []) (hEnding : IsLineEnding ending.toList) :
    ∃ code, (s.meaning v).bare.Coded v.first gap code ∧ (∀ mark ∈ ink, mark.Valid) ∧
      Tells 1 code (Scan.ofText (renderLines ending lines)).tokens ∧
      Rescanned (Scan.ofText (renderLines ending lines)) 1 ink False := by
  obtain ⟨stop, code, hLegal, hCoded⟩ := Specification.legal hP hShows hFormed hClosed hInked
  have hRescanned := hSpells.rescanned hLines hEnding hLegal.valid hLegal.run
  refine ⟨code, hCoded, hLegal.valid, ?_, hRescanned⟩
  rw [Tells, ← hLegal.code_eq, ← Ink.tokens_eq_code]
  exact hRescanned.tokens

/-- Lines of a tree whose lists are all closed can be read again. The tree that is read has the marks of
the one that was laid out, as far as a view can tell them by the lines. -/
theorem Policy.Specification.rereads (hP : ∀ c, P c → c.Legible) {w : View μ} (hShows : Shows P v gap)
    (hReads : w.Reads gap) (hFirst : w.first = v.first) (hFormed : Specification.Formed P s)
    (hClosed : s.tally openTally = 0) (hInked : Specification.Inked s ink) (hSpells : Spells ink lines)
    (hLines : lines ≠ []) (hEnding : IsLineEnding ending.toList) :
    ∃ again, (Scan.ofText (renderLines ending lines)).parse = .ok again ∧ again.meaning w = (s.meaning v).bare := by
  obtain ⟨code, hCoded, -, hTells, hRescanned⟩ :=
    Specification.retold hP hShows hFormed hClosed hInked hSpells hLines hEnding
  obtain ⟨offset, hComplete⟩ := hRescanned.ending
  rw [← hFirst] at hCoded
  obtain ⟨again, hDerived, hMeaning⟩ := Document.reads hReads hCoded hTells (ink.lineAfter 1) offset
  exact ⟨again, Scan.parse_eq_ok.2 ⟨_, _, hComplete, hDerived⟩, hMeaning⟩

/-- Lines end in line feeds, which may have carriage returns before them, unless something else is asked
for. -/
theorem isLineEnding_lineEndingFor {asked : Option String} (text : String)
    (hAsked : ∀ ending ∈ asked, ending = "" ∨ ending = "\n" ∨ ending = "\r\n") :
    IsLineEnding (lineEndingFor text asked).toList := by
  have hDetected : IsLineEnding
      (if lineEndingFor.hasCarriageReturn text.toList then "\r\n" else "\n" : String).toList := by
    split
    · exact .inr rfl
    · exact .inl rfl
  cases asked with
  | none => exact hDetected
  | some ending =>
    rcases hAsked ending rfl with rfl | rfl | rfl
    · exact hDetected
    · exact .inl (by simp [lineEndingFor, Option.filter])
    · exact .inr (by simp [lineEndingFor, Option.filter])

end PolicyFormat
