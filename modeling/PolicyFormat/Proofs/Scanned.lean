import Mathlib.Data.List.DropRight
import Mathlib.Tactic.SplitIfs
import PolicyFormat.Proofs.Rescan

/-! Where the tokens and comments of a scanned text stand. A scan takes one piece after the other
from the front of the text, so tokens come in the order of their lines, a comment ends its line, and
a comment that has a token before it on its line follows code. -/
namespace PolicyFormat.Policy

open Lexeme Layout

variable {cs : List Char} {line offset : Int}

namespace Lexeme

/-! ### Pieces that are no tokens -/

variable {piece : List Char}

theorem space?_of_front? (h : front? cs = some (.space, piece)) : space? cs = some piece := by
  simp only [front?, Option.orElse_eq_orElse, Option.orElse_eq_or, Option.or_eq_some_iff,
    Option.map_eq_some_iff, Prod.mk.injEq, reduceCtorEq, false_and, and_false, exists_false,
    false_or, true_and, exists_eq_right, or_false] at h
  exact h.2.2.2.2.2

theorem comment?_of_front? (h : front? cs = some (.comment, piece)) : comment? cs = some piece := by
  simp only [front?, Option.orElse_eq_orElse, Option.orElse_eq_or, Option.or_eq_some_iff,
    Option.map_eq_some_iff, Prod.mk.injEq, reduceCtorEq, false_and, and_false, exists_false,
    false_or, true_and, exists_eq_right, or_false] at h
  exact h.2.2.2.2.2.2

theorem prefix_of_space? (h : space? cs = some piece) : piece <+: cs ∧ piece ≠ [] := by
  unfold space? at h
  split at h
  · cases h
    exact ⟨by simp [List.takeWhile_prefix], by simp⟩
  · cases h
    exact ⟨by simp [List.takeWhile_prefix], by simp⟩
  · simp only [List.isEmpty_iff, Option.ite_none_left_eq_some, Option.some.injEq] at h
    obtain ⟨hRun, rfl⟩ := h
    exact ⟨List.takeWhile_prefix _, hRun⟩

/-- A comment is a number sign and all that follows it on its line. -/
theorem comment?_eq_some (h : comment? cs = some piece) :
    ∃ more rest, piece = '#' :: more ∧ cs = piece ++ rest ∧ '\n' ∉ more ∧ ∀ c ∈ rest.head?, c = '\n' := by
  unfold comment? at h
  split at h
  · rename_i rest
    cases h
    refine ⟨rest.takeWhile (· != '\n'), rest.dropWhile (· != '\n'), rfl, by simp, ?_, ?_⟩
    · intro hMem
      simpa using List.mem_takeWhile_imp hMem
    · intro c hc
      have hStop := List.head?_dropWhile_not (· != '\n') rest
      rw [Option.mem_def.1 hc] at hStop
      simpa using hStop
  · cases h

/-! ### The characters of tokens -/

variable {c : Char} {text : List Char} {kind : TokenKind}

/-- The character is none of those that white space is made of. -/
def IsSolid (c : Char) : Prop :=
  c ≠ '\t' ∧ c ≠ ' ' ∧ c ≠ '\n' ∧ c ≠ '\r'

instance (c : Char) : Decidable (IsSolid c) :=
  inferInstanceAs (Decidable (_ ∧ _))

theorem isSolid_of_isGuardChar (h : isGuardChar c = true) : IsSolid c := by
  refine ⟨?_, ?_, ?_, ?_⟩ <;> rintro rfl <;> revert h <;> decide

theorem isSolid_of_isVariableChar (h : isVariableChar c = true) : IsSolid c := by
  refine ⟨?_, ?_, ?_, ?_⟩ <;> rintro rfl <;> revert h <;> decide

theorem nakedVar?_solid (h : nakedVar? cs = some text) : ∀ c ∈ text, IsSolid c := by
  unfold nakedVar? at h
  split at h
  · next sigil opening more =>
      dsimp only at h
      split at h
      · next hOpen =>
          split at h
          · next closing after _ =>
              simp only [Option.ite_none_right_eq_some, Option.some.injEq] at h
              obtain ⟨hClose, rfl⟩ := h
              simp only [Bool.and_eq_true, Bool.or_eq_true, beq_iff_eq] at hOpen hClose
              have hSigil : IsSolid sigil := by
                rcases hOpen.1 with rfl | rfl <;> decide
              have hOpening : IsSolid opening := by
                rcases hOpen.2 with rfl | rfl <;> decide
              have hClosing : IsSolid closing := by
                rw [hClose.1]
                split <;> decide
              have hName : ∀ c ∈ more.takeWhile isVariableChar, IsSolid c :=
                fun c hc => isSolid_of_isVariableChar (List.mem_takeWhile_imp hc)
              intro c hc
              simp only [List.mem_cons, List.mem_append, List.cons_append, List.not_mem_nil, or_false] at hc
              rcases hc with rfl | rfl | hc | rfl
              · exact hSigil
              · exact hOpening
              · exact hName c hc
              · exact hClosing
          · simp at h
      · simp at h
  · simp at h

/-- Only quoted tokens hold white space. -/
theorem Spelling.solid (h : Spelling kind text) (hKind : kind ≠ .quoted) : ∀ c ∈ text, IsSolid c := by
  cases h with
  | quoted hText => exact absurd rfl hKind
  | guard hChars hText => exact fun c hc => isSolid_of_isGuardChar (hChars c hc)
  | symbol hFirst hSecond hFirstChars hSecondChars =>
    intro c hc
    simp only [List.mem_append, List.mem_cons] at hc
    rcases hc with hc | rfl | hc
    · exact isSolid_of_isGuardChar (isGuardChar_of_isNameChar (hFirstChars c hc))
    · decide
    · exact isSolid_of_isGuardChar (isGuardChar_of_isNameChar (hSecondChars c hc))
  | promiseType hName hChars =>
    intro c hc
    simp only [List.mem_append, List.mem_singleton] at hc
    rcases hc with hc | rfl
    · exact isSolid_of_isGuardChar (isGuardChar_of_isNameChar (isNameChar_of_heading (hChars c hc)))
    · decide
  | name hName hChars =>
    exact fun c hc => isSolid_of_isGuardChar (isGuardChar_of_isNameChar (hChars c hc))
  | nakedVar hText => exact nakedVar?_solid hText
  | punctuation hText =>
    rcases punctuation?_cases hText with h | h | h | h | h | h | h | h <;>
      · obtain ⟨-, rfl⟩ := h
        simp [IsSolid]

theorem quotedTail_last {mark : Char} {escapes : Bool} {tail : List Char}
    (h : quotedTail mark escapes cs = some tail) : ∃ body, tail = body ++ [mark] := by
  fun_induction quotedTail mark escapes cs generalizing tail with
  | case1 => simp at h
  | case2 c hMark => exact ⟨[], by simp_all⟩
  | case3 => simp at h
  | case4 c d more hMark => exact ⟨[], by simp_all⟩
  | case5 c d more hMark hEscape ih =>
    obtain ⟨inner, hInner, rfl⟩ := Option.map_eq_some_iff.1 h
    obtain ⟨body, rfl⟩ := ih hInner
    exact ⟨c :: d :: body, rfl⟩
  | case6 c d more hMark hEscape ih =>
    obtain ⟨inner, hInner, rfl⟩ := Option.map_eq_some_iff.1 h
    obtain ⟨body, rfl⟩ := ih hInner
    exact ⟨c :: body, rfl⟩

theorem quoted?_last (h : quoted? cs = some text) : ∃ body z, text = body ++ [z] ∧ IsSolid z := by
  unfold quoted? at h
  split at h
  · obtain ⟨tail, hTail, rfl⟩ := Option.map_eq_some_iff.1 h
    obtain ⟨body, rfl⟩ := quotedTail_last hTail
    exact ⟨'"' :: body, '"', rfl, by decide⟩
  · obtain ⟨tail, hTail, rfl⟩ := Option.map_eq_some_iff.1 h
    obtain ⟨body, rfl⟩ := quotedTail_last hTail
    exact ⟨'\'' :: body, '\'', rfl, by decide⟩
  · obtain ⟨tail, hTail, rfl⟩ := Option.map_eq_some_iff.1 h
    obtain ⟨body, rfl⟩ := quotedTail_last hTail
    exact ⟨'\x60' :: body, '\x60', rfl, by decide⟩
  · cases h

theorem Spelling.quoted?_eq (h : Spelling .quoted text) : quoted? text = some text := by
  generalize hKind : TokenKind.quoted = kind at h
  cases h with
  | quoted hText => exact hText
  | punctuation hText => simpa [← hKind] using punctuation?_cases hText
  | name hName hChars =>
    unfold identKind at hKind
    split_ifs at hKind
  | _ => cases hKind

/-- A token does not end with white space. -/
theorem Spelling.last_solid (h : Spelling kind text) : ∃ body z, text = body ++ [z] ∧ IsSolid z := by
  by_cases hKind : kind = .quoted
  · subst hKind
    exact quoted?_last h.quoted?_eq
  · obtain ⟨body, z, rfl⟩ := List.eq_nil_or_concat text |>.resolve_left h.ne_nil
    exact ⟨body, z, by simp, h.solid hKind z (by simp)⟩

theorem Spelling.head_solid (h : Spelling kind text) : ∀ c ∈ text.head?, IsSolid c := by
  intro c hc
  by_cases hKind : kind = .quoted
  · subst hKind
    obtain ⟨d, hd, rest, rfl⟩ := quoted?_head h.quoted?_eq
    obtain rfl : d = c := by simpa using hc
    simp only [List.mem_cons, List.not_mem_nil, or_false] at hd
    rcases hd with rfl | rfl | rfl <;> decide
  · exact h.solid hKind c (List.mem_of_mem_head? hc)

end Lexeme

/-! ### White space -/

/-- Spaces and tabs. -/
def IsBlankRun (cs : List Char) : Prop :=
  ∀ c ∈ cs, c = ' ' ∨ c = '\t'

/-- Spaces, tabs and line breaks. A carriage return has a line feed after it. -/
inductive White : List Char → Prop where
  | nil : White []
  | blank {c : Char} {rest : List Char} (hc : c = ' ' ∨ c = '\t') (h : White rest) : White (c :: rest)
  | lineFeed {rest : List Char} (h : White rest) : White ('\n' :: rest)
  | carriageReturn {rest : List Char} (h : White rest) : White ('\r' :: '\n' :: rest)

namespace White

theorem of_isBlankRun (h : IsBlankRun cs) (hRest : White rest) : White (cs ++ rest) := by
  induction cs with
  | nil => exact hRest
  | cons c cs ih => exact .blank (h c (by simp)) (ih fun d hd => h d (by simp [hd]))

theorem lineFeeds (cs : List Char) : White (cs.takeWhile (· == '\n')) := by
  induction cs with
  | nil => exact .nil
  | cons c cs ih =>
    rw [List.takeWhile_cons]
    split
    · rename_i hc
      obtain rfl := beq_iff_eq.1 hc
      exact .lineFeed ih
    · exact .nil

end White

theorem Lexeme.white_of_space? (h : space? cs = some piece) : White piece := by
  unfold space? at h
  split at h
  · cases h
    exact .carriageReturn (.lineFeeds _)
  · cases h
    exact .lineFeed (.lineFeeds _)
  · simp only [Option.ite_none_left_eq_some, Option.some.injEq] at h
    obtain ⟨-, rfl⟩ := h
    rw [← List.append_nil (List.takeWhile _ _)]
    refine .of_isBlankRun (fun c hc => ?_) .nil
    simpa using List.mem_takeWhile_imp hc

/-! ### One piece after the other -/

open Scan

/-- A scan from a line and an offset on is done, stuck, or takes a piece from the front of the text and goes
on after it. -/
inductive Scanned : Int → Int → List Char → Scan → Prop where
  | done {line offset : Int} : Scanned line offset [] ⟨[], [], .complete line (offset + 1)⟩
  | stuck {line offset : Int} {cs : List Char} (hNonempty : cs ≠ []) (hFront : front? cs = none) :
      Scanned line offset cs ⟨[], [], .unreadable (String.ofList cs) line offset⟩
  | space {line offset : Int} {piece rest : List Char} {after : Scan} (hPiece : White piece)
      (hAfter : Scanned (line + piece.count '\n') (offset + piece.length) rest after) :
      Scanned line offset (piece ++ rest) after
  | comment {line offset : Int} {more rest : List Char} {after : Scan} (hMore : '\n' ∉ more)
      (hRest : ∀ c ∈ rest.head?, c = '\n')
      (hAfter : Scanned line (offset + ('#' :: more).length) rest after) :
      Scanned line offset ('#' :: more ++ rest) { after with
        comments := ⟨String.ofList (Text.trimRight ('#' :: more)), line, offset⟩ :: after.comments }
  | token {line offset : Int} {kind : TokenKind} {piece rest : List Char} {after : Scan}
      (hFront : front? (piece ++ rest) = some (.token kind, piece))
      (hAfter : Scanned (line + piece.count '\n') (offset + piece.length) rest after) :
      Scanned line offset (piece ++ rest) { after with
        tokens := ⟨kind, String.ofList piece, line, offset⟩ :: after.tokens }

theorem scanned_scanFrom (line offset : Int) (cs : List Char) :
    Scanned line offset cs (scanFrom line offset 0 cs) := by
  induction hLength : cs.length using Nat.strongRecOn generalizing line offset cs with
  | ind length ih =>
    subst hLength
    cases hFront : front? cs with
    | none =>
      cases cs with
      | nil => exact .done
      | cons c rest =>
        rw [scanFrom, hFront]
        exact .stuck (by simp) hFront
    | some found =>
      obtain ⟨lexeme, piece⟩ := found
      cases lexeme with
      | space =>
        have hSpace := space?_of_front? hFront
        obtain ⟨⟨rest, rfl⟩, hPiece⟩ := prefix_of_space? hSpace
        rw [scanFrom_space piece rest line offset hFront hPiece]
        exact .space (white_of_space? hSpace)
          (ih rest.length (by simpa using List.length_pos_iff.2 hPiece) _ _ rest rfl)
      | comment =>
        obtain ⟨more, rest, rfl, rfl, hMore, hRest⟩ := comment?_eq_some (comment?_of_front? hFront)
        rw [scanFrom_comment hMore hRest]
        exact .comment hMore hRest
          (ih rest.length (by simp only [List.length_append, List.length_cons]; omega) _ _ rest rfl)
      | token kind =>
        obtain ⟨hPiece, rest, rfl⟩ := spelling_of_front? hFront
        rw [scanFrom_token line offset hFront]
        exact .token hFront (ih rest.length (by simpa using List.length_pos_iff.2 hPiece.ne_nil) _ _ rest rfl)

theorem scanned_ofText {text : String} : Scanned 1 0 text.toList (Scan.ofText text) :=
  scanned_scanFrom 1 0 text.toList

namespace Scanned

variable {scan : Scan} (h : Scanned line offset cs scan)
include h

/-! ### Lines and offsets -/

/-- A token is a piece of the scanned text; its line and offset are told by what stands before it. -/
theorem token_located : ∀ t ∈ scan.tokens, Spelling t.kind t.text.toList ∧ ∃ before after,
      cs = before ++ t.text.toList ++ after ∧ t.line = line + before.count '\n' ∧
        t.offset = offset + before.length := by
  induction h with
  | done | stuck => simp
  | @space line offset piece rest scan hPiece hAfter ih =>
    intro t ht
    obtain ⟨hSpelling, before, after, rfl, hLine, hOffset⟩ := ih t ht
    exact ⟨hSpelling, piece ++ before, after, by simp, by simp; omega, by simp; omega⟩
  | @comment line offset more rest scan hMore hRest hAfter ih =>
    intro t ht
    obtain ⟨hSpelling, before, after, rfl, hLine, hOffset⟩ := ih t ht
    refine ⟨hSpelling, '#' :: more ++ before, after, by simp, ?_, by simp [hOffset]; omega⟩
    simp [hLine, List.count_eq_zero.2 hMore]
  | @token line offset kind piece rest scan hFront hAfter ih =>
    refine List.forall_mem_cons.2 ⟨?_, fun t ht => ?_⟩
    · exact ⟨by simpa using (spelling_of_front? hFront).1, [], rest, by simp, by simp, by simp⟩
    · obtain ⟨hSpelling, before, after, rfl, hLine, hOffset⟩ := ih t ht
      exact ⟨hSpelling, piece ++ before, after, by simp, by simp; omega, by simp; omega⟩

/-- A comment is the rest of a line of the scanned text, without white space at its end; its line and offset
are told by what stands before it. -/
theorem comment_located :
    ∀ c ∈ scan.comments, ∃ before more after, cs = before ++ '#' :: (more ++ after) ∧ '\n' ∉ more ∧
      c.text = String.ofList (Text.trimRight ('#' :: more)) ∧ c.line = line + before.count '\n' ∧
        c.offset = offset + before.length := by
  induction h with
  | done | stuck => simp
  | @space line offset piece rest scan hPiece hAfter ih =>
    intro c hc
    obtain ⟨before, more, after, rfl, hMore, hText, hLine, hOffset⟩ := ih c hc
    exact ⟨piece ++ before, more, after, by simp, hMore, hText, by simp; omega, by simp; omega⟩
  | @comment line offset own rest scan hOwn hRest hAfter ih =>
    refine List.forall_mem_cons.2 ⟨⟨[], own, rest, by simp, hOwn, rfl, by simp, by simp⟩, fun c hc => ?_⟩
    obtain ⟨before, more, after, rfl, hMore, hText, hLine, hOffset⟩ := ih c hc
    refine ⟨'#' :: own ++ before, more, after, by simp, hMore, hText, ?_, by simp [hOffset]; omega⟩
    simp [hLine, List.count_eq_zero.2 hOwn]
  | @token line offset kind piece rest scan hFront hAfter ih =>
    intro c hc
    obtain ⟨before, more, after, rfl, hMore, hText, hLine, hOffset⟩ := ih c hc
    exact ⟨piece ++ before, more, after, by simp, hMore, hText, by simp; omega, by simp; omega⟩

/-- Every token is spelled as its kind says. -/
theorem spelling : ∀ t ∈ scan.tokens, Spelling t.kind t.text.toList :=
  fun t ht => (h.token_located t ht).1

/-- No token stands before the place where the scan starts. -/
theorem start_le_token : ∀ t ∈ scan.tokens, line ≤ t.line ∧ offset ≤ t.offset := by
  intro t ht
  obtain ⟨-, before, after, -, hLine, hOffset⟩ := h.token_located t ht
  omega

theorem start_le_comment : ∀ c ∈ scan.comments, line ≤ c.line ∧ offset ≤ c.offset := by
  intro c hc
  obtain ⟨before, more, after, -, -, -, hLine, hOffset⟩ := h.comment_located c hc
  omega

/-- After a comment the scan goes on in the next line. -/
theorem lineEnd (hRest : ∀ c ∈ cs.head?, c = '\n') :
    (∀ t ∈ scan.tokens, line < t.line) ∧ ∀ c ∈ scan.comments, line < c.line := by
  have hBefore : ∀ before piece after : List Char, cs = before ++ piece ++ after →
      (∀ c ∈ piece.head?, c ≠ '\n') → piece ≠ [] → 0 < before.count '\n' := by
    rintro (_ | ⟨c, before⟩) (_ | ⟨d, piece⟩) after rfl hPiece hNonempty
    · exact absurd rfl hNonempty
    · exact absurd (hRest d rfl) (hPiece d rfl)
    · exact absurd rfl hNonempty
    · obtain rfl := hRest c rfl
      simp
  refine ⟨fun t ht => ?_, fun c hc => ?_⟩
  · obtain ⟨hSpelling, before, after, rfl, hLine, -⟩ := h.token_located t ht
    have := hBefore before _ after rfl (fun c hc => (hSpelling.head_solid c hc).2.2.1) hSpelling.ne_nil
    omega
  · obtain ⟨before, more, after, rfl, -, -, hLine, -⟩ := h.comment_located c hc
    have := hBefore before ('#' :: more) after (by simp) (by simp) (by simp)
    omega

/-- Tokens come in the order of their lines and offsets. -/
theorem tokens_ordered : scan.tokens.Pairwise (fun a b => a.endLine ≤ b.line ∧ a.offset < b.offset) := by
  induction h with
  | done | stuck => simp
  | space _ _ ih | comment _ _ _ ih => exact ih
  | token hFront hAfter ih =>
    refine List.pairwise_cons.2 ⟨fun t ht => ?_, ih⟩
    obtain ⟨hLine, hOffset⟩ := hAfter.start_le_token t ht
    have hLength := List.length_pos_iff.2 (spelling_of_front? hFront).1.ne_nil
    simp only [Token.endLine, lineFeeds, String.toList_ofList]
    omega

/-- Comments come one to a line. -/
theorem comments_ordered : scan.comments.Pairwise (fun a b => a.line < b.line ∧ a.offset < b.offset) := by
  induction h with
  | done | stuck => simp
  | space _ _ ih | token _ _ ih => exact ih
  | comment _ hRest hAfter ih =>
    refine List.pairwise_cons.2 ⟨fun c hc => ⟨(hAfter.lineEnd hRest).2 c hc, ?_⟩, ih⟩
    have := (hAfter.start_le_comment c hc).2
    simp only [List.length_cons] at this ⊢
    omega

/-- No token starts after a comment on its line. -/
theorem token_apart : ∀ t ∈ scan.tokens, ∀ c ∈ scan.comments, t.endLine ≤ c.line ∨ c.line < t.line := by
  induction h with
  | done | stuck => simp
  | space _ _ ih => exact ih
  | comment _ hRest hAfter ih =>
    exact fun t ht => List.forall_mem_cons.2 ⟨.inr ((hAfter.lineEnd hRest).1 t ht), ih t ht⟩
  | token _ hAfter ih =>
    refine List.forall_mem_cons.2 ⟨fun c hc => .inl ?_, ih⟩
    simpa [Token.endLine, lineFeeds] using (hAfter.start_le_comment c hc).1

end Scanned

/-! ### Comments -/

theorem isNote_trimRight {more : List Char} (hMore : '\n' ∉ more) :
    IsNote (String.ofList (Text.trimRight ('#' :: more))) := by
  have hPrefix : Text.trimRight ('#' :: more) <+: '#' :: more := List.rdropWhile_prefix _ _
  have hNonempty : Text.trimRight ('#' :: more) ≠ [] := by
    intro hNil
    exact absurd (List.rdropWhile_eq_nil_iff.1 hNil '#' (by simp)) (by decide)
  obtain ⟨c, rest, hTrimmed⟩ := List.exists_cons_of_ne_nil hNonempty
  rw [hTrimmed, List.cons_prefix_cons] at hPrefix
  refine ⟨rest, by rw [hTrimmed, hPrefix.1, String.toList_ofList], ?_⟩
  exact fun hMem => hMore (hPrefix.2.subset hMem)

/-- Every comment starts with a number sign, and has no line break. -/
theorem Scanned.isNote {scan : Scan} (h : Scanned line offset cs scan) : ∀ c ∈ scan.comments, IsNote c.text := by
  intro c hc
  obtain ⟨before, more, after, -, hMore, hText, -⟩ := h.comment_located c hc
  exact hText ▸ isNote_trimRight hMore

/-! ### Comments after code -/

end PolicyFormat.Policy

namespace PolicyFormat.Text

variable {front back : List Char}

theorem lastIndex_append {p : Char → Bool} (hFront : ∀ z ∈ front.getLast?, p z = true)
    (hBack : ∀ c ∈ back, p c = false) : lastIndex p (front ++ back) = (front.length : Int) - 1 := by
  have hNone : back.reverse.findIdx? p = none := by
    simpa [List.findIdx?_eq_none_iff] using hBack
  rcases List.eq_nil_or_concat front with rfl | ⟨more, z, rfl⟩
  · simp [lastIndex, hNone]
  · have hz : p z = true := hFront z (by simp)
    simp [lastIndex, List.findIdx?_append, hNone, List.findIdx?_cons, hz]
    omega

/-- The last line feed before a place ends the lines above. -/
theorem previousLineFeed_append {rest : List Char} (hFront : ∀ z ∈ front.getLast?, z = '\n') (hBack : '\n' ∉ back) :
    previousLineFeed (front ++ back ++ rest) (front ++ back).length = (front.length : Int) - 1 := by
  have hClip : clip (front ++ back ++ rest).length (front ++ back).length = (front ++ back).length := by
    simp only [clip, List.length_append]
    omega
  rw [previousLineFeed, takeTo, hClip, List.take_left]
  refine lastIndex_append (by simpa using hFront) fun d hd => ?_
  simpa using fun h : d = '\n' => hBack (h ▸ hd)

end PolicyFormat.Text

namespace PolicyFormat.Policy

open Lexeme Layout

/-- Characters are some lines and the beginning of a line. -/
theorem exists_lines (cs : List Char) :
    ∃ front back, cs = front ++ back ∧ (∀ z ∈ front.getLast?, z = '\n') ∧ '\n' ∉ back := by
  induction cs with
  | nil => exact ⟨[], [], rfl, by simp, by simp⟩
  | cons c cs ih =>
    obtain ⟨front, back, rfl, hFront, hBack⟩ := ih
    by_cases hc : front = [] ∧ c ≠ '\n'
    · obtain ⟨rfl, hc⟩ := hc
      exact ⟨[], c :: back, rfl, by simp, by simp [hBack, Ne.symm hc]⟩
    · refine ⟨c :: front, back, rfl, ?_, hBack⟩
      intro z hz
      cases front with
      | nil =>
        obtain rfl : c = z := by simpa using hz
        simpa using hc
      | cons d front => exact hFront z (by simpa using hz)

section

variable {front back rest : List Char} {c : CommentToken} (hFront : ∀ z ∈ front.getLast?, z = '\n')
  (hBack : '\n' ∉ back) (hOffset : c.offset = (front ++ back).length)
include hFront hBack hOffset

theorem CommentToken.previousLineFeed_eq :
    Text.previousLineFeed (front ++ back ++ rest) c.offset = (front.length : Int) - 1 := by
  rw [hOffset, Text.previousLineFeed_append hFront hBack]

theorem CommentToken.column_eq : c.column (front ++ back ++ rest) = back.length := by
  rw [column, previousLineFeed_eq hFront hBack hOffset, hOffset, List.length_append]
  omega

theorem CommentToken.followsCode_eq :
    c.followsCode (front ++ back ++ rest) = back.any (fun d => d != '\t' && d != ' ') := by
  have hAny : back.any (fun d => d != '\t' && d != ' ' && d != '\n') = back.any (fun d => d != '\t' && d != ' ') := by
    rw [Bool.eq_iff_iff, List.any_eq_true, List.any_eq_true]
    refine exists_congr fun d => and_congr_right fun hd => ?_
    have hLineFeed : d ≠ '\n' := fun h => hBack (h ▸ hd)
    simp [hLineFeed]
  simp only [followsCode, previousLineFeed_eq hFront hBack hOffset]
  rw [hOffset, Int.toNat_natCast, List.take_left]
  rcases List.eq_nil_or_concat front with rfl | ⟨more, z, rfl⟩
  · exact hAny
  · obtain rfl : z = '\n' := hFront z (by simp)
    have hStart : (max (((more ++ ['\n']).length : Int) - 1) 0).toNat = more.length := by
      simp only [List.length_append, List.length_singleton]
      omega
    rw [List.concat_eq_append, hStart, List.append_assoc, List.drop_left]
    exact hAny

end

/-- A comment follows code if something other than white space stands before it, and no line break
after that. -/
theorem CommentToken.followsCode_of_prefix {text : List Char} (front back : List Char) {z : Char} {c : CommentToken}
    (hPrefix : front ++ z :: back <+: text) (hOffset : c.offset = (front ++ z :: back).length)
    (hz : (z != '\t' && z != ' ' && z != '\n') = true) (hBack : '\n' ∉ back) :
    c.followsCode text = true := by
  obtain ⟨rest, rfl⟩ := hPrefix
  obtain ⟨above, start, rfl, hAbove, hStart⟩ := exists_lines front
  have hLine : '\n' ∉ start ++ z :: back := by
    have hFeed : z ≠ '\n' := by simp_all
    simp [hStart, hBack, Ne.symm hFeed]
  rw [List.append_assoc above] at hOffset ⊢
  rw [followsCode_eq hAbove hLine hOffset, List.any_append, List.any_cons]
  simp_all

/-- A comment that has a token before it on its line follows code. -/
theorem Scanned.followsCode {line offset : Int} {cs : List Char} {scan : Scan}
    (h : Scanned line offset cs scan) (before : List Char) (hBefore : offset = before.length) :
    ∀ t ∈ scan.tokens, ∀ c ∈ scan.comments, t.endLine = c.line → c.followsCode (before ++ cs) = true := by
  induction h generalizing before with
  | done | stuck => simp
  | @space line offset piece rest after hPiece hAfter ih =>
    simpa using ih (before ++ piece) (by simp [hBefore])
  | @comment line offset more rest after hMore hRest hAfter ih =>
    intro t ht
    refine List.forall_mem_cons.2 ⟨fun hLine => ?_, fun c hc hLine => ?_⟩
    · have hLater := (hAfter.lineEnd hRest).1 t ht
      simp only [Token.endLine] at hLine
      omega
    · simpa using ih (before ++ '#' :: more) (by simp [hBefore]) t ht c hc hLine
  | @token line offset kind piece rest after hFront hAfter ih =>
    refine List.forall_mem_cons.2 ⟨fun c hc hLine => ?_, fun t ht c hc hLine => ?_⟩
    · -- no line break stands between the token and the comment
      obtain ⟨between, more, tail, rfl, -, -, hCount, hOffset⟩ := hAfter.comment_located c hc
      have hBetween : '\n' ∉ between := by
        rw [← List.count_eq_zero]
        simp only [Token.endLine, lineFeeds, String.toList_ofList] at hLine
        omega
      obtain ⟨body, z, rfl, hz⟩ := (spelling_of_front? hFront).1.last_solid
      refine CommentToken.followsCode_of_prefix (before ++ body) between (z := z)
        ⟨'#' :: (more ++ tail), by simp⟩ ?_ ?_ hBetween
      · simp [hOffset, hBefore]
        omega
      · simp [hz.1, hz.2.1, hz.2.2.1]
    · simpa using ih (before ++ piece) (by simp [hBefore]) t ht c hc hLine

end PolicyFormat.Policy
