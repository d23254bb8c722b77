import PolicyFormat.Proofs.Trailing

/-! Where a scan finds its tokens and comments. All of the text that a scan has passed is made of what it has
found there and of white space, and every place that it gives is told by the characters before it. -/
namespace PolicyFormat.Policy

open Lexeme

/-! ### Places of a text -/

/-- The rest of the text begins at the offset and on the line, which are counted from the text's beginning. -/
def At (text : List Char) (offset line : Int) (rest : List Char) : Prop :=
  ∃ before, text = before ++ rest ∧ offset = before.length ∧ line = 1 + before.count '\n'

section

variable {text rest : List Char} {offset line : Int}

theorem at_start (text : List Char) : At text 0 1 text :=
  ⟨[], rfl, rfl, rfl⟩

theorem At.after {piece : List Char} (h : At text offset line (piece ++ rest)) :
    At text (offset + piece.length) (line + piece.count '\n') rest := by
  obtain ⟨before, rfl, rfl, rfl⟩ := h
  refine ⟨before ++ piece, by simp, by simp, ?_⟩
  rw [List.count_append]
  push_cast
  omega

/-- The characters of the rest are those of the text, further on. -/
theorem At.getElem? (h : At text offset line rest) (n : Nat) : text[(offset + n).toNat]? = rest[n]? := by
  obtain ⟨before, rfl, rfl, -⟩ := h
  have hPlace : ((before.length : Int) + n).toNat = before.length + n := by omega
  rw [hPlace, List.getElem?_append_right (Nat.le_add_right _ _), Nat.add_sub_cancel_left]

theorem At.length (h : At text offset line rest) : offset + rest.length = text.length := by
  obtain ⟨before, rfl, rfl, -⟩ := h
  simp

theorem At.offset_nonneg (h : At text offset line rest) : 0 ≤ offset := by
  obtain ⟨before, -, rfl, -⟩ := h
  exact Int.natCast_nonneg _

end

/-! ### What is found -/

/-- What a scan finds in a text. -/
inductive Find where
  | token (value : Token)
  | comment (value : CommentToken)

namespace Find

/-- The offset of the first character. -/
def offset : Find → Int
  | token t => t.offset
  | comment c => c.offset

/-- The offset just after the last character. -/
def stop : Find → Int
  | token t => t.stop
  | comment c => c.stop

/-- The token, if it is one. -/
def token? : Find → Option Token
  | token t => some t
  | comment _ => none

/-- The comment, if it is one. -/
def comment? : Find → Option CommentToken
  | token _ => none
  | comment c => some c

/-- The text has the find at its place. A comment goes from its number sign to the end of the line, but for
the white space there. -/
def Located (text : List Char) : Find → Prop
  | token t => ∃ rest, At text t.offset t.line (t.text.toList ++ rest)
  | comment c => ∃ more rest, At text c.offset c.line ('#' :: more ++ rest) ∧ '\n' ∉ more ∧
      (∀ z ∈ rest.head?, z = '\n') ∧ c.text.toList = Text.trimRight ('#' :: more)

end Find

/-- The offset that a scan which ends so has come to in the text. -/
def Ending.reach : Ending → Int
  | complete _ offset => offset - 1
  | unreadable _ _ offset => offset

/-- The scan ends with the text, or before a part of it that is not empty. The line is that of its end. -/
def Ending.Located (text : List Char) : Ending → Prop
  | complete line offset => At text (offset - 1) line []
  | unreadable rest line offset => rest ≠ "" ∧ At text offset line rest.toList

/-- From an offset on, the finds are the tokens and the comments of the scan, one after the other, and all
that the scan has passed besides is white space. -/
structure Scan.Accounts (text : List Char) (start : Int) (s : Scan) (finds : List Find) : Prop where
  tokens : finds.filterMap Find.token? = s.tokens
  comments : finds.filterMap Find.comment? = s.comments
  ordered : finds.Pairwise (fun a b => a.stop ≤ b.offset)
  nonempty : ∀ f ∈ finds, f.offset < f.stop
  within : ∀ f ∈ finds, start ≤ f.offset ∧ f.stop ≤ s.ending.reach
  located : ∀ f ∈ finds, f.Located text
  reached : start ≤ s.ending.reach
  ending : s.ending.Located text
  blank : ∀ place : Nat, start ≤ place → place < s.ending.reach →
    (∀ f ∈ finds, place < f.offset ∨ f.stop ≤ place) → ∀ c ∈ text[place]?, Text.isBlank c = true

/-! ### One piece after the other -/

theorem White.isBlank {cs : List Char} (h : White cs) : ∀ c ∈ cs, Text.isBlank c = true := by
  induction h with
  | nil => simp
  | blank hc _ ih =>
    rcases hc with rfl | rfl <;> simpa using ⟨by decide, ih⟩
  | lineFeed _ ih => simpa using ⟨by decide, ih⟩
  | carriageReturn _ ih => simpa using ⟨by decide, by decide, ih⟩

theorem trimRight_split (cs : List Char) :
    ∃ back, cs = Text.trimRight cs ++ back ∧ ∀ c ∈ back, Text.isBlank c = true :=
  ⟨cs.rtakeWhile Text.isBlank, (List.rdropWhile_append_rtakeWhile ..).symm, fun _ hc => List.mem_rtakeWhile_imp hc⟩

namespace Scan

/-- The scan with one more find before the others. -/
def prepend (s : Scan) : Find → Scan
  | .token t => { s with tokens := t :: s.tokens }
  | .comment c => { s with comments := c :: s.comments }

namespace Accounts

variable {text : List Char} {start next : Int} {s : Scan} {finds : List Find}

/-- Only white space stands before what is accounted for. -/
theorem afterBlank (h : s.Accounts text next finds) (hStart : start ≤ next)
    (hBlank : ∀ place : Nat, start ≤ place → place < next → ∀ c ∈ text[place]?, Text.isBlank c = true) :
    s.Accounts text start finds := by
  refine ⟨h.tokens, h.comments, h.ordered, h.nonempty, fun f hf => ?_, h.located, hStart.trans h.reached, h.ending,
    fun place hPlace hReach hFinds => ?_⟩
  · have := h.within f hf
    omega
  · by_cases hNext : place < next
    · exact hBlank place hPlace hNext
    · exact h.blank place (by omega) hReach hFinds

/-- A find stands right before what is accounted for. -/
theorem cons {f : Find} (h : s.Accounts text f.stop finds) (hNonempty : f.offset < f.stop)
    (hLocated : f.Located text) : (s.prepend f).Accounts text f.offset (f :: finds) := by
  have hEnding : (s.prepend f).ending = s.ending := by cases f <;> rfl
  refine ⟨?_, ?_, List.pairwise_cons.2 ⟨fun g hg => (h.within g hg).1, h.ordered⟩, ?_, ?_, ?_, ?_, ?_, ?_⟩
  · cases f <;> simp [Find.token?, prepend, List.filterMap_cons, h.tokens]
  · cases f <;> simp [Find.comment?, prepend, List.filterMap_cons, h.comments]
  · simpa using ⟨hNonempty, h.nonempty⟩
  · rw [hEnding]
    intro g hg
    rcases List.mem_cons.1 hg with rfl | hg
    · exact ⟨Int.le_refl _, h.reached⟩
    · have := h.within g hg
      omega
  · simpa using ⟨hLocated, h.located⟩
  · rw [hEnding]
    have := h.reached
    omega
  · rw [hEnding]
    exact h.ending
  · rw [hEnding]
    intro place hPlace hReach hFinds
    have hPassed : f.stop ≤ place := by
      rcases hFinds f (by simp) with hBefore | hAfter
      · omega
      · exact hAfter
    exact h.blank place hPassed hReach fun g hg => hFinds g (by simp [hg])

theorem token_mem (h : s.Accounts text start finds) {t : Token} (ht : t ∈ s.tokens) : .token t ∈ finds := by
  rw [← h.tokens, List.mem_filterMap] at ht
  obtain ⟨f, hf, hToken⟩ := ht
  cases f with
  | token u =>
    cases hToken
    exact hf
  | comment c => cases hToken

end Accounts

/-- White space at a place of the text. -/
theorem blank_of_at {text piece rest : List Char} {offset line : Int} (h : At text offset line (piece ++ rest))
    (hPiece : ∀ c ∈ piece, Text.isBlank c = true) :
    ∀ place : Nat, offset ≤ place → place < offset + piece.length → ∀ c ∈ text[place]?, Text.isBlank c = true := by
  intro place hStart hStop c hc
  obtain ⟨n, hn⟩ : ∃ n : Nat, (place : Int) = offset + n := ⟨(place - offset).toNat, by omega⟩
  have hPlace := h.getElem? n
  rw [← hn, Int.toNat_natCast, List.getElem?_append_left (by omega)] at hPlace
  rw [hPlace] at hc
  exact hPiece c (List.mem_of_getElem? hc)

end Scan

/-- A scan accounts for the text from its start on. -/
theorem Scanned.accounts {text cs : List Char} {line offset : Int} {scan : Scan}
    (hScan : Scanned line offset cs scan) (h : At text offset line cs) : ∃ finds, scan.Accounts text offset finds := by
  induction hScan with
  | done =>
    refine ⟨[], rfl, rfl, .nil, by simp, by simp, by simp, ?_, ?_, ?_⟩
    · simp [Ending.reach]
    · simpa [Ending.Located] using h
    · intro place hStart hReach
      simp only [Ending.reach] at hReach
      omega
  | stuck hNonempty =>
    refine ⟨[], rfl, rfl, .nil, by simp, by simp, by simp, Int.le_refl _, ?_, ?_⟩
    · exact ⟨by simpa [String.ext_iff] using hNonempty, by simpa using h⟩
    · intro place hStart hReach
      simp only [Ending.reach] at hReach
      omega
  | space hPiece _ ih =>
    obtain ⟨finds, hFinds⟩ := ih h.after
    exact ⟨finds, hFinds.afterBlank (by omega) (Scan.blank_of_at h hPiece.isBlank)⟩
  | @comment line offset more rest after hMore hEnd hAfter ih =>
    have hNext := h.after
    rw [List.count_eq_zero.2 (by simpa using hMore : '\n' ∉ '#' :: more)] at hNext
    obtain ⟨finds, hFinds⟩ := ih (by simpa using hNext)
    -- The white space at the end of the line is no part of the comment.
    obtain ⟨back, hSplit, hBack⟩ := trimRight_split ('#' :: more)
    have hLength : (Text.trimRight ('#' :: more)).length + back.length = ('#' :: more).length := by
      rw [← List.length_append, ← hSplit]
    have hTrimmed := h
    rw [hSplit, List.append_assoc] at hTrimmed
    have hStop : CommentToken.stop ⟨String.ofList (Text.trimRight ('#' :: more)), line, offset⟩ =
        offset + (Text.trimRight ('#' :: more)).length := by
      simp [CommentToken.stop]
    have hNonempty : Text.trimRight ('#' :: more) ≠ [] := by
      obtain ⟨own, hOwn, -⟩ := isNote_trimRight hMore
      rw [String.toList_ofList] at hOwn
      simp [hOwn]
    refine ⟨_, Scan.Accounts.cons (f := .comment ⟨String.ofList (Text.trimRight ('#' :: more)), line, offset⟩)
      (hFinds.afterBlank ?_ ?_) ?_ ?_⟩
    · simp only [Find.stop, hStop]
      omega
    · have hBlank := Scan.blank_of_at hTrimmed.after hBack
      simp only [Find.stop, hStop]
      intro place hPlace hNext
      exact hBlank place hPlace (by omega)
    · have := List.length_pos_iff.2 hNonempty
      simp only [Find.offset, Find.stop, hStop]
      omega
    · exact ⟨more, rest, h, hMore, hEnd, by simp⟩
  | @token line offset kind piece rest after hFront hAfter ih =>
    obtain ⟨finds, hFinds⟩ := ih h.after
    have hStop : Token.stop ⟨kind, String.ofList piece, line, offset⟩ = offset + piece.length := by
      simp [Token.stop]
    refine ⟨_, Scan.Accounts.cons (f := .token ⟨kind, String.ofList piece, line, offset⟩)
      (by simpa [Find.stop, hStop] using hFinds) ?_ ?_⟩
    · have := List.length_pos_iff.2 (spelling_of_front? hFront).1.ne_nil
      simp only [Find.offset, Find.stop, hStop]
      omega
    · exact ⟨rest, by simpa using h⟩

namespace Scan

/-- The line that a scan has come to is that of its end. -/
theorem lastLine_eq {text : List Char} {s : Scan} (h : s.ending.Located text) :
    s.lastLine = 1 + (text.take s.ending.reach.toNat).count '\n' := by
  have hLine : ∀ {offset line : Int} {rest : List Char}, At text offset line rest →
      line = 1 + (text.take offset.toNat).count '\n' := by
    rintro _ _ rest ⟨before, rfl, rfl, rfl⟩
    rw [Int.toNat_natCast, List.take_left]
  obtain ⟨tokens, comments, ending⟩ := s
  cases ending with
  | complete line offset => exact hLine h
  | unreadable rest line offset => exact hLine h.2

/-- The tokens and comments of a text stand one after the other at their places, on the lines that their
offsets tell, and all else that the scan has passed is white space. A complete scan has passed the whole text,
and every scan has counted the lines up to its end. -/
theorem ofText_accounts_for_text (text : String) :
    (∃ finds, (Scan.ofText text).Accounts text.toList 0 finds) ∧
      (Scan.ofText text).lastLine =
        1 + (text.toList.take (Scan.ofText text).ending.reach.toNat).count '\n' ∧
      ∀ line offset, (Scan.ofText text).ending = .complete line offset →
        (Scan.ofText text).ending.reach = text.length := by
  obtain ⟨finds, hFinds⟩ := scanned_ofText.accounts (at_start text.toList)
  change (Scan.ofText text).Accounts text.toList 0 finds at hFinds
  refine ⟨⟨finds, hFinds⟩, lastLine_eq hFinds.ending, fun line offset hEnding => ?_⟩
  have hLocated := hFinds.ending
  rw [hEnding] at hLocated ⊢
  simpa [Ending.reach, String.length_toList] using At.length hLocated

end Scan

end PolicyFormat.Policy
