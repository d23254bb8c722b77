import PolicyFormat.Proofs.Grouping
import PolicyFormat.Proofs.Viability

/-! Which policy texts are accepted, and what is blamed in the others: the first token after which no
sentence of the grammar could follow. -/
namespace PolicyFormat.Policy

open Grammar (Yields mem_language exists_derived)
open Lexeme (Spelling)

/-- The kinds of tokens start a sentence of the grammar. -/
def Viable (kinds : List TokenKind) : Prop :=
  ∃ more, kinds ++ more ∈ grammar.language

theorem Viable.of_append {a b : List TokenKind} (h : Viable (a ++ b)) : Viable a := by
  obtain ⟨more, hMore⟩ := h
  exact ⟨b ++ more, by rwa [← List.append_assoc]⟩

theorem viable_of_mem {kinds : List TokenKind} (h : kinds ∈ grammar.language) : Viable kinds :=
  ⟨[], by rwa [List.append_nil]⟩

/-- What a scan can be blamed for first: a token that no sentence has after the tokens before it, or the
end of tokens that start a sentence, be it that the text ends or that it cannot be read on. -/
def FirstFault (scan : Scan) : Refusal → Prop
  | .unexpected t => ∃ before after, scan.tokens = before ++ t :: after ∧ Viable (kindsOf before) ∧
      ¬ Viable (kindsOf before ++ [t.kind])
  | .unreadable rest line offset => scan.ending = .unreadable rest line offset ∧ Viable (kindsOf scan.tokens)
  | .endOfFile => (∃ line offset, scan.ending = .complete line offset) ∧ Viable (kindsOf scan.tokens) ∧
      kindsOf scan.tokens ∉ grammar.language

/-! ### One fault comes first -/

variable {before after : List Token} {t : Token} {scan : Scan} {r : Refusal} {line offset : Int}

/-- Tokens up to a fault cannot go on in a sentence. -/
theorem not_viable_of_fault {tokens : List Token} (hTokens : tokens = before ++ t :: after)
    (hFault : ¬ Viable (kindsOf before ++ [t.kind])) : ¬ Viable (kindsOf tokens) := by
  intro hViable
  rw [hTokens, kindsOf_append, kindsOf_cons, List.append_cons] at hViable
  exact hFault hViable.of_append

/-- Of two tokens in a text, the later comes after all that is read up to the earlier. -/
theorem fault_unique {before' after' : List Token} {t' : Token}
    (hTokens : before ++ t :: after = before' ++ t' :: after') (hViable : Viable (kindsOf before))
    (hFault : ¬ Viable (kindsOf before ++ [t.kind])) (hViable' : Viable (kindsOf before'))
    (hFault' : ¬ Viable (kindsOf before' ++ [t'.kind])) : t = t' := by
  obtain ⟨own, hBefore, hRest⟩ | ⟨own, hBefore, hRest⟩ := List.append_eq_append_iff.1 hTokens
  · cases own with
    | nil => exact (List.cons.inj hRest).1
    | cons u own =>
      obtain ⟨rfl, -⟩ := List.cons.inj hRest
      exact absurd hViable' (not_viable_of_fault hBefore hFault)
  · cases own with
    | nil => exact (List.cons.inj hRest).1.symm
    | cons u own =>
      obtain ⟨rfl, -⟩ := List.cons.inj hRest
      exact absurd hViable (not_viable_of_fault hBefore hFault')

theorem FirstFault.unique {r' : Refusal} (h : FirstFault scan r) (h' : FirstFault scan r') : r = r' := by
  match r, r', h, h' with
  | .unexpected t, .unexpected t', ⟨_, _, hTokens, hViable, hFault⟩, ⟨_, _, hTokens', hViable', hFault'⟩ =>
    rw [fault_unique (hTokens.symm.trans hTokens') hViable hFault hViable' hFault']
  | .unexpected _, .unreadable .., ⟨_, _, hTokens, _, hFault⟩, ⟨_, hViable⟩ =>
    exact absurd hViable (not_viable_of_fault hTokens hFault)
  | .unexpected _, .endOfFile, ⟨_, _, hTokens, _, hFault⟩, ⟨_, hViable, _⟩ =>
    exact absurd hViable (not_viable_of_fault hTokens hFault)
  | .unreadable .., .unexpected _, ⟨_, hViable⟩, ⟨_, _, hTokens, _, hFault⟩ =>
    exact absurd hViable (not_viable_of_fault hTokens hFault)
  | .endOfFile, .unexpected _, ⟨_, hViable, _⟩, ⟨_, _, hTokens, _, hFault⟩ =>
    exact absurd hViable (not_viable_of_fault hTokens hFault)
  | .unreadable .., .unreadable .., ⟨hEnding, _⟩, ⟨hEnding', _⟩ =>
    cases hEnding.symm.trans hEnding'
    rfl
  | .unreadable .., .endOfFile, ⟨hEnding, _⟩, ⟨⟨_, _, hEnding'⟩, _⟩ => cases hEnding.symm.trans hEnding'
  | .endOfFile, .unreadable .., ⟨⟨_, _, hEnding⟩, _⟩, ⟨hEnding', _⟩ => cases hEnding.symm.trans hEnding'
  | .endOfFile, .endOfFile, _, _ => rfl

/-- A sentence has no fault. -/
theorem FirstFault.not_mem (h : FirstFault scan r) (hEnding : scan.ending = .complete line offset) :
    kindsOf scan.tokens ∉ grammar.language := by
  intro hMem
  match r, h with
  | .unexpected _, ⟨_, _, hTokens, _, hFault⟩ => exact not_viable_of_fault hTokens hFault (viable_of_mem hMem)
  | .unreadable .., ⟨hEnding', _⟩ => cases hEnding.symm.trans hEnding'
  | .endOfFile, ⟨_, _, hNot⟩ => exact hNot hMem

/-! ### The parser -/

/-- The parser reads a scan to its end or not at all. -/
theorem Scan.parse_eq (scan : Scan) : scan.parse =
    (Parser.specification ⟨scan.tokens, scan.ending, 0, 0⟩).map Prod.fst := by
  change Except.bind (Parser.specification ⟨scan.tokens, scan.ending, 0, 0⟩) _ = _
  cases Parser.specification ⟨scan.tokens, scan.ending, 0, 0⟩ <;> rfl

theorem Parser.tokens_of_specification {input after : Input} {s : Specification}
    (h : specification input = .ok (s, after)) : after.tokens = [] := by
  obtain ⟨start, middle, -, h⟩ := bind_eq_ok.1 h
  obtain ⟨blocks, later, -, h⟩ := bind_eq_ok.1 h
  obtain ⟨_, last, hLast, h⟩ := bind_eq_ok.1 h
  obtain ⟨hDone, -, rfl⟩ := afterLast_eq_ok.1 hLast
  obtain ⟨own, hTokens, -, -⟩ := (group_reads start none blocks none).taken h
  rw [hDone] at hTokens
  exact (List.append_eq_nil_iff.1 hTokens.symm).2

/-- A scan is parsed exactly if it is complete and the grammar has its tokens. -/
theorem Scan.exists_parse_iff (scan : Scan) : (∃ s, scan.parse = .ok s) ↔
    (∃ line offset, scan.ending = .complete line offset) ∧ kindsOf scan.tokens ∈ grammar.language := by
  constructor
  · rintro ⟨s, h⟩
    obtain ⟨line, offset, hEnding, -⟩ := Scan.parse_eq_ok.1 h
    refine ⟨⟨line, offset, hEnding⟩, mem_language.2 ?_⟩
    rw [Scan.parse_eq] at h
    cases hRead : Parser.specification ⟨scan.tokens, scan.ending, 0, 0⟩ with
    | error r =>
      rw [hRead] at h
      cases h
    | ok result =>
      obtain ⟨own, hTokens, -, hOwn⟩ := Parser.specification_reads.taken hRead
      rw [Parser.tokens_of_specification hRead, List.append_nil] at hTokens
      replace hTokens : scan.tokens = own := hTokens
      rwa [hTokens]
  · rintro ⟨⟨line, offset, hEnding⟩, hMem⟩
    obtain ⟨s, hs⟩ := exists_derived hMem line offset
    exact ⟨s, Scan.parse_eq_ok.2 ⟨line, offset, hEnding, hs⟩⟩

/-- A refused token cannot follow the tokens before it in any sentence: the parser would refuse it there
as well, since it has not looked further. -/
theorem not_viable_of_unexpected {ending : Ending} (hAfter : t ∉ after)
    (h : Parser.specification ⟨(before ++ [t]) ++ after, ending, 0, 0⟩ = .error (.unexpected t)) :
    ¬ Viable (kindsOf before ++ [t.kind]) := by
  rintro ⟨more, hMore⟩
  have hKinds : kindsOf (more.map fun kind => (⟨kind, "", 0, 0⟩ : Token)) = more := by
    simp [kindsOf, Function.comp_def]
  have hRefused := Parser.specification_reads.refused hAfter h
    (more.map fun kind => (⟨kind, "", 0, 0⟩ : Token)) (.complete 0 0)
  obtain ⟨s, hs⟩ := (Scan.exists_parse_iff
    ⟨(before ++ [t]) ++ more.map fun kind => ⟨kind, "", 0, 0⟩, [], .complete 0 0⟩).2
      ⟨⟨0, 0, rfl⟩, by simpa [hKinds] using hMore⟩
  rw [Scan.parse_eq, hRefused] at hs
  cases hs

/-- What the parser refuses is the first fault. -/
theorem Scan.firstFault_of_parse (hNodup : scan.tokens.Nodup) (h : scan.parse = .error r) : FirstFault scan r := by
  have hRead : Parser.specification ⟨scan.tokens, scan.ending, 0, 0⟩ = .error r := by
    rw [Scan.parse_eq] at h
    cases hRead : Parser.specification ⟨scan.tokens, scan.ending, 0, 0⟩ with
    | error e =>
      rw [hRead] at h
      cases h
      rfl
    | ok result =>
      rw [hRead] at h
      cases h
  obtain ⟨before, rest, hTokens, rfl, hViable⟩ := Parser.specification_reads.stopped hRead
  replace hTokens : scan.tokens = before ++ rest := hTokens
  replace hViable : Viable (kindsOf before) := hViable.imp fun _ hMore => mem_language.2 hMore
  cases rest with
  | cons t after =>
    have hAfter : t ∉ after := by
      rw [hTokens] at hNodup
      exact (List.nodup_cons.1 (List.nodup_append.1 hNodup).2.1).1
    rw [hTokens, List.append_cons] at hRead
    exact ⟨before, after, hTokens, hViable, not_viable_of_unexpected hAfter hRead⟩
  | nil =>
    obtain rfl : scan.tokens = before := by simpa using hTokens
    cases hEnding : scan.ending with
    | unreadable text line offset => exact ⟨hEnding, hViable⟩
    | complete line offset =>
      refine ⟨⟨line, offset, hEnding⟩, hViable, fun hMem => ?_⟩
      obtain ⟨s, hs⟩ := scan.exists_parse_iff.2 ⟨⟨line, offset, hEnding⟩, hMem⟩
      cases h.symm.trans hs

theorem Scan.parse_eq_error_iff (hNodup : scan.tokens.Nodup) : scan.parse = .error r ↔ FirstFault scan r := by
  refine ⟨firstFault_of_parse hNodup, fun h => ?_⟩
  cases hParse : scan.parse with
  | error r' => rw [(firstFault_of_parse hNodup hParse).unique h]
  | ok s =>
    obtain ⟨⟨line, offset, hEnding⟩, hMem⟩ := scan.exists_parse_iff.1 ⟨s, hParse⟩
    exact absurd hMem (h.not_mem hEnding)

/-! ### Texts -/

variable {tidying : Tidying} {text : String}

theorem Scanned.tokens_nodup {cs : List Char} (h : Scanned line offset cs scan) : scan.tokens.Nodup :=
  h.tokens_ordered.imp fun h hEq => absurd (hEq ▸ h.2) (Int.lt_irrefl _)

theorem Specification.exists_ofText_iff :
    (∃ s, ofText tidying text = .ok s) ↔ ∃ s, (Scan.ofText text).parse = .ok s := by
  rw [ofText_eq]
  cases (Scan.ofText text).parse <;> simp

theorem Specification.ofText_eq_error_iff {e : SyntaxError} :
    ofText tidying text = .error e ↔ ∃ r, (Scan.ofText text).parse = .error r ∧ r.report text = e := by
  rw [ofText_eq]
  cases (Scan.ofText text).parse <;> simp

end PolicyFormat.Policy
