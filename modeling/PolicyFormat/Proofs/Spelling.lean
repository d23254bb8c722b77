import Mathlib.Data.List.Chain
import Mathlib.Data.List.TakeWhile
import PolicyFormat.Policy.Scan

/-! How the tokens of a policy text are spelled. A token is determined by its spelling, and it is
found again wherever the characters after it cannot be taken for a part of it. The one rule that
looks far ahead is that of class expressions, which may reach over names and round brackets up to
two colons. -/
namespace PolicyFormat.Policy

variable {rest cs text name : List Char} {c : Char} {kind : TokenKind}

namespace Lexeme

/-- The spellings of each kind of token, said without the reader of lexemes. -/
inductive Spelling : TokenKind → List Char → Prop where
  | quoted {text : List Char} (hText : quoted? text = some text) : Spelling .quoted text
  | guard {text : List Char} (hChars : ∀ c ∈ text, isGuardChar c = true)
      (hText : guard? text = some text) : Spelling .guard text
  | symbol {first second : List Char} (hFirst : first ≠ []) (hSecond : second ≠ [])
      (hFirstChars : ∀ c ∈ first, isNameChar c = true)
      (hSecondChars : ∀ c ∈ second, isNameChar c = true) :
      Spelling .symbol (first ++ ':' :: second)
  | promiseType {name : List Char} (hName : name ≠ [])
      (hChars : ∀ c ∈ name, (c.isAlpha || c == '_') = true) : Spelling .promiseType (name ++ [':'])
  | name {name : List Char} (hName : name ≠ []) (hChars : ∀ c ∈ name, isNameChar c = true) :
      Spelling (identKind name) name
  | nakedVar {text : List Char} (hText : nakedVar? text = some text) : Spelling .nakedVar text
  | punctuation {kind : TokenKind} {text : List Char}
      (hText : punctuation? text = some (kind, text)) : Spelling kind text

/-! ### Runs of class characters -/

variable {front found : List Char}

/-- The class characters at the front hold no two colons in a row, so that no class expression
starts there. -/
def Quiet (cs : List Char) : Prop :=
  (cs.takeWhile isGuardChar).IsChain (fun a b => a = ':' → b ≠ ':')

theorem quiet_nil : Quiet [] := by
  simp [Quiet]

theorem quiet_of_head (hHead : ∀ c ∈ cs.head?, isGuardChar c = false) : Quiet cs := by
  cases cs with
  | nil => exact quiet_nil
  | cons c rest =>
    have hc : isGuardChar c = false := hHead c rfl
    simp [Quiet, hc]

theorem Quiet.append {rest : List Char} (hChars : ∀ c ∈ front, isGuardChar c = true)
    (hFront : front.IsChain (fun a b => a = ':' → b ≠ ':'))
    (hLast : ∀ c ∈ front.getLast?, ∀ d ∈ rest.head?, c = ':' → d ≠ ':') (hRest : Quiet rest) :
    Quiet (front ++ rest) := by
  unfold Quiet at *
  rw [List.takeWhile_append_of_pos hChars, List.isChain_append]
  refine ⟨hFront, hRest, ?_⟩
  intro c hc d hd
  refine hLast c hc d ?_
  cases rest with
  | nil => simp at hd
  | cons e more =>
    by_cases he : isGuardChar e = true
    · simpa [List.takeWhile_cons, he] using hd
    · simp [he] at hd

theorem not_isChain_of_endingInColons (h : endingInColons cs = some found) :
    ¬ cs.IsChain (fun a b => a = ':' → b ≠ ':') := by
  fun_induction endingInColons cs with
  | case1 => simp at h
  | case2 c rest =>
    intro hChain
    simp [List.isChain_cons_cons] at hChain
  | case3 c rest hNot ih =>
    intro hChain
    exact ih h hChain.tail

theorem Quiet.guard? (h : Quiet cs) : guard? cs = none := by
  unfold Lexeme.guard?
  cases hFound : endingInColons (cs.takeWhile isGuardChar).reverse with
  | none => rfl
  | some found =>
    refine absurd ?_ (not_isChain_of_endingInColons hFound)
    rw [List.isChain_reverse]
    refine h.imp ?_
    intro a b hab hb ha
    exact hab ha hb

/-! ### Characters that start a lexeme -/

variable {p : Char → Bool}

theorem isGuardChar_of_isNameChar (h : isNameChar c = true) : isGuardChar c = true := by
  simp [isGuardChar, h]

theorem isNameChar_eq_false (h : isGuardChar c = false) : isNameChar c = false := by
  by_contra hName
  rw [Bool.not_eq_false] at hName
  rw [isGuardChar_of_isNameChar hName] at h
  cases h

theorem isNameChar_of_heading (h : (c.isAlpha || c == '_') = true) : isNameChar c = true := by
  simp only [Bool.or_eq_true] at h
  rcases h with h | h <;> simp [isNameChar, Char.isAlphanum, h]

theorem isNameChar_ne_colon (h : isNameChar c = true) : c ≠ ':' := by
  rintro rfl
  exact absurd h (by decide)

theorem takeWhile_stop (hFront : ∀ c ∈ front, p c = true) (hRest : ∀ c ∈ rest.head?, p c = false) :
    (front ++ rest).takeWhile p = front := by
  rw [List.takeWhile_append_of_pos hFront]
  cases rest with
  | nil => simp
  | cons c more => simp [hRest c rfl]

theorem dropWhile_stop (hFront : ∀ c ∈ front, p c = true) (hRest : ∀ c ∈ rest.head?, p c = false) :
    (front ++ rest).dropWhile p = rest := by
  rw [List.dropWhile_append_of_pos hFront]
  cases rest with
  | nil => simp
  | cons c more => simp [hRest c rfl]

theorem quoted?_of_isGuardChar {c : Char} {rest : List Char} (h : isGuardChar c = true) :
    quoted? (c :: rest) = none := by
  unfold quoted?
  split
  · next heq => cases heq; exact absurd h (by decide)
  · next heq => cases heq; exact absurd h (by decide)
  · next heq => cases heq; exact absurd h (by decide)
  · rfl

theorem symbol?_of_head (h : isNameChar c = false) : symbol? (c :: rest) = none := by
  unfold symbol?
  simp only [List.takeWhile_cons, h, List.dropWhile_cons, Bool.false_eq_true, ↓reduceIte]
  split <;> simp

theorem promiseType?_of_head (h : isNameChar c = false) : promiseType? (c :: rest) = none := by
  have hHeading : (c.isAlpha || c == '_') = false := by
    by_contra hc
    rw [Bool.not_eq_false] at hc
    rw [isNameChar_of_heading hc] at h
    cases h
  unfold promiseType?
  simp only [List.takeWhile_cons, hHeading, List.dropWhile_cons, Bool.false_eq_true, ↓reduceIte]
  split <;> simp

theorem ident?_of_head (h : isNameChar c = false) : ident? (c :: rest) = none := by
  simp [ident?, h]

/-! ### From lexemes to spellings -/

variable {mark : Char} {escapes : Bool}

theorem quotedTail_ne_nil : quotedTail mark escapes cs ≠ some [] := by
  fun_cases quotedTail mark escapes cs <;> simp

theorem quotedTail_append {tail : List Char} (h : quotedTail mark escapes cs = some tail) (rest : List Char) :
    quotedTail mark escapes (tail ++ rest) = some tail ∧ tail <+: cs := by
  fun_induction quotedTail mark escapes cs generalizing tail with
  | case1 => simp at h
  | case2 c hMark =>
    simp only [Option.some.injEq] at h
    subst h
    cases rest <;> simp [quotedTail, hMark]
  | case3 => simp at h
  | case4 c d more hMark =>
    simp only [Option.some.injEq] at h
    subst h
    cases rest <;> simp [quotedTail, hMark]
  | case5 c d more hMark hEscape ih =>
    obtain ⟨inner, hInner, rfl⟩ := Option.map_eq_some_iff.1 h
    obtain ⟨hAgain, hPrefix⟩ := ih hInner
    refine ⟨by simp [quotedTail, hMark, hEscape, hAgain], ?_⟩
    simpa [List.cons_prefix_cons] using hPrefix
  | case6 c d more hMark hEscape ih =>
    obtain ⟨inner, hInner, rfl⟩ := Option.map_eq_some_iff.1 h
    obtain ⟨hAgain, hPrefix⟩ := ih hInner
    refine ⟨?_, by simpa [List.cons_prefix_cons] using hPrefix⟩
    cases inner with
    | nil => exact absurd hInner quotedTail_ne_nil
    | cons e inner =>
      rw [List.cons_append] at hAgain
      simp [quotedTail, hMark, hEscape, hAgain]

theorem quoted?_append (h : quoted? cs = some text) (rest : List Char) :
    quoted? (text ++ rest) = some text ∧ text <+: cs := by
  unfold quoted? at h
  split at h
  all_goals first
    | obtain ⟨tail, hTail, rfl⟩ := Option.map_eq_some_iff.1 h
      obtain ⟨hAgain, hPrefix⟩ := quotedTail_append hTail rest
      exact ⟨by simp [quoted?, hAgain], by simpa [List.cons_prefix_cons] using hPrefix⟩
    | simp at h

theorem endingInColons_suffix (h : endingInColons cs = some found) :
    found <:+ cs ∧ endingInColons found = some found := by
  fun_induction endingInColons cs with
  | case1 => simp at h
  | case2 c rest =>
    simp only [Option.some.injEq] at h
    subst h
    exact ⟨List.suffix_refl _, by simp [endingInColons]⟩
  | case3 c rest hNot ih =>
    obtain ⟨hSuffix, hFound⟩ := ih h
    exact ⟨hSuffix.trans (List.suffix_cons c rest), hFound⟩

theorem spelling_of_guard? (h : guard? cs = some text) : Spelling .guard text ∧ text <+: cs := by
  unfold guard? at h
  obtain ⟨found, hFound, rfl⟩ := Option.map_eq_some_iff.1 h
  obtain ⟨hSuffix, hAgain⟩ := endingInColons_suffix hFound
  have hPrefix : found.reverse <+: cs.takeWhile isGuardChar := by
    simpa using List.reverse_prefix.2 hSuffix
  have hChars : ∀ c ∈ found.reverse, isGuardChar c = true :=
    fun c hc => List.mem_takeWhile_imp (hPrefix.subset hc)
  refine ⟨.guard hChars ?_, hPrefix.trans (List.takeWhile_prefix _)⟩
  unfold guard?
  rw [List.takeWhile_eq_self_iff.2 hChars, List.reverse_reverse, hAgain]
  rfl

theorem spelling_of_symbol? (h : symbol? cs = some text) : Spelling .symbol text ∧ text <+: cs := by
  unfold symbol? at h
  split at h
  · next rest hDrop =>
      simp only [Option.ite_none_left_eq_some, Bool.or_eq_true, List.isEmpty_iff, not_or, Option.some.injEq] at h
      obtain ⟨⟨hFirst, hSecond⟩, rfl⟩ := h
      refine ⟨.symbol hFirst hSecond (fun c hc => List.mem_takeWhile_imp hc)
        (fun c hc => List.mem_takeWhile_imp hc), ?_⟩
      conv_rhs => rw [← List.takeWhile_append_dropWhile (p := isNameChar) (l := cs), hDrop]
      rw [List.prefix_append_right_inj, List.cons_prefix_cons]
      exact ⟨rfl, List.takeWhile_prefix _⟩
  · simp at h

theorem spelling_of_promiseType? (h : promiseType? cs = some text) : Spelling .promiseType text ∧ text <+: cs := by
  simp only [promiseType?] at h
  split at h
  · next rest hDrop =>
      simp only [Option.ite_none_left_eq_some, List.isEmpty_iff, Option.some.injEq] at h
      obtain ⟨hName, rfl⟩ := h
      refine ⟨.promiseType hName (fun c hc =>
        List.mem_takeWhile_imp (p := fun c => c.isAlpha || c == '_') hc), ?_⟩
      conv_rhs =>
        rw [← List.takeWhile_append_dropWhile (p := fun c => c.isAlpha || c == '_') (l := cs), hDrop]
      rw [List.prefix_append_right_inj, List.cons_prefix_cons]
      exact ⟨rfl, List.nil_prefix⟩
  · simp at h

theorem spelling_of_ident? (h : ident? cs = some text) : Spelling (identKind text) text ∧ text <+: cs := by
  simp only [ident?, Option.ite_none_left_eq_some, List.isEmpty_iff, Option.some.injEq] at h
  obtain ⟨hName, rfl⟩ := h
  exact ⟨.name hName (fun c hc => List.mem_takeWhile_imp hc), List.takeWhile_prefix _⟩

theorem nakedVar?_append (h : nakedVar? cs = some text) (rest : List Char) :
    nakedVar? (text ++ rest) = some text ∧ text <+: cs := by
  unfold nakedVar? at h
  split at h
  · next sigil opening more =>
      dsimp only at h
      split at h
      · next hOpen =>
          split at h
          · next c after hDrop =>
              simp only [Option.ite_none_right_eq_some, Option.some.injEq] at h
              obtain ⟨hClose, rfl⟩ := h
              have hName : ∀ d ∈ more.takeWhile isVariableChar, isVariableChar d = true :=
                fun d hd => List.mem_takeWhile_imp hd
              have hStop : ∀ d ∈ (c :: rest).head?, isVariableChar d = false := by
                intro d hd
                cases hd
                have := List.head?_dropWhile_not isVariableChar more
                rw [hDrop] at this
                simpa using this
              refine ⟨?_, ?_⟩
              · simp only [List.cons_append, List.append_assoc, List.nil_append, nakedVar?, hOpen,
                  ↓reduceIte, takeWhile_stop hName hStop, dropWhile_stop hName hStop]
                rw [if_pos hClose]
              · conv_rhs => rw [← List.takeWhile_append_dropWhile (p := isVariableChar) (l := more), hDrop]
                simp [List.cons_prefix_cons]
          · simp at h
      · simp at h
  · simp at h

theorem punctuation?_append (h : punctuation? cs = some (kind, text)) (rest : List Char) :
    punctuation? (text ++ rest) = some (kind, text) ∧ text <+: cs := by
  unfold punctuation? at h
  split at h
  all_goals first
    | simp only [Option.some.injEq, Prod.mk.injEq] at h
      obtain ⟨rfl, rfl⟩ := h
      exact ⟨rfl, by simp [List.cons_prefix_cons]⟩
    | simp at h

/-- A token is a stretch of the text that is spelled as its kind demands. -/
theorem spelling_of_front? (h : front? cs = some (.token kind, text)) : Spelling kind text ∧ text <+: cs := by
  simp only [front?, Option.orElse_eq_orElse, Option.orElse_eq_or, Option.or_eq_some_iff,
    Option.map_eq_some_iff, Prod.mk.injEq, Lexeme.token.injEq, Prod.exists] at h
  rcases h with ⟨found, hFound, rfl, rfl⟩ | ⟨-, h⟩
  · obtain ⟨hAgain, hPrefix⟩ := quoted?_append hFound []
    exact ⟨.quoted (by simpa using hAgain), hPrefix⟩
  rcases h with ⟨found, hFound, rfl, rfl⟩ | ⟨-, h⟩
  · exact spelling_of_guard? hFound
  rcases h with ⟨found, hFound, rfl, rfl⟩ | ⟨-, h⟩
  · exact spelling_of_symbol? hFound
  rcases h with ⟨found, hFound, rfl, rfl⟩ | ⟨-, h⟩
  · exact spelling_of_promiseType? hFound
  rcases h with ⟨found, hFound, rfl, rfl⟩ | ⟨-, h⟩
  · exact spelling_of_ident? hFound
  rcases h with ⟨found, hFound, ⟨⟩, -⟩ | ⟨-, h⟩
  rcases h with ⟨found, hFound, ⟨⟩, -⟩ | ⟨-, h⟩
  rcases h with ⟨found, hFound, rfl, rfl⟩ | ⟨-, h⟩
  · obtain ⟨hAgain, hPrefix⟩ := nakedVar?_append hFound []
    exact ⟨.nakedVar (by simpa using hAgain), hPrefix⟩
  · obtain ⟨_, _, hFound, rfl, rfl⟩ := h
    obtain ⟨hAgain, hPrefix⟩ := punctuation?_append hFound []
    exact ⟨.punctuation (by simpa using hAgain), hPrefix⟩

/-! ### From spellings back to lexemes -/

variable {first second : List Char}

/-- What follows a token cannot be taken for a part of it. -/
def Ends : TokenKind → List Char → Prop
  | .guard, rest => ∀ c ∈ rest.head?, isGuardChar c = false
  | .promiseType, rest => ∀ c ∈ rest.head?, isGuardChar c = false
  | .symbol, rest => (∀ c ∈ rest.head?, isNameChar c = false ∧ c ≠ ':') ∧ Quiet rest
  | .ident, rest => (∀ c ∈ rest.head?, isNameChar c = false ∧ c ≠ ':') ∧ Quiet rest
  | .body, rest => (∀ c ∈ rest.head?, isNameChar c = false ∧ c ≠ ':') ∧ Quiet rest
  | .bundle, rest => (∀ c ∈ rest.head?, isNameChar c = false ∧ c ≠ ':') ∧ Quiet rest
  | .openParen, rest => Quiet rest
  | .closeParen, rest => Quiet rest
  | _, _ => True

theorem ends_identKind (h : Ends (identKind name) rest) :
    (∀ c ∈ rest.head?, isNameChar c = false ∧ c ≠ ':') ∧ Quiet rest := by
  unfold identKind at h
  split at h
  · exact h
  · split at h <;> exact h

theorem isChain_of_isNameChar (h : ∀ c ∈ cs, isNameChar c = true) : cs.IsChain (fun a b => a = ':' → b ≠ ':') := by
  induction cs with
  | nil => exact .nil
  | cons c rest ih =>
    rw [List.isChain_cons]
    refine ⟨fun d _ hc => absurd hc (isNameChar_ne_colon (h c (by simp))), ?_⟩
    exact ih (fun d hd => h d (by simp [hd]))

theorem quiet_name_append (hName : ∀ c ∈ name, isNameChar c = true) (hRest : Quiet rest) : Quiet (name ++ rest) := by
  refine Quiet.append (fun c hc => isGuardChar_of_isNameChar (hName c hc)) (isChain_of_isNameChar hName) ?_ hRest
  intro c hc d _ hColon
  exact absurd hColon (isNameChar_ne_colon (hName c (List.mem_of_getLast? hc)))

theorem quiet_colon_cons (hHead : ∀ c ∈ rest.head?, c ≠ ':') (hRest : Quiet rest) : Quiet (':' :: rest) := by
  have h := @Quiet.append [':'] rest (List.forall_mem_singleton.2 rfl) (.singleton _)
    (fun c _ d hd _ => hHead d hd) hRest
  simpa using h

theorem quiet_promiseType_append (hName : ∀ c ∈ name, (c.isAlpha || c == '_') = true)
    (hRest : ∀ c ∈ rest.head?, isGuardChar c = false) : Quiet (name ++ [':'] ++ rest) := by
  rw [List.append_assoc]
  refine quiet_name_append (fun c hc => isNameChar_of_heading (hName c hc)) ?_
  refine quiet_colon_cons ?_ (quiet_of_head hRest)
  rintro c hc rfl
  exact absurd (hRest _ hc) (by decide)

theorem quiet_symbol_append (hFirst : ∀ c ∈ first, isNameChar c = true) (hNonempty : second ≠ [])
    (hSecond : ∀ c ∈ second, isNameChar c = true) (hRest : Quiet rest) :
    Quiet (first ++ ':' :: second ++ rest) := by
  rw [List.append_assoc]
  refine quiet_name_append hFirst ?_
  rw [List.cons_append]
  refine quiet_colon_cons ?_ (quiet_name_append hSecond hRest)
  obtain ⟨d, more, rfl⟩ := List.exists_cons_of_ne_nil hNonempty
  intro c hc
  cases hc
  exact isNameChar_ne_colon (hSecond _ (by simp))

theorem quoted?_head (h : quoted? cs = some text) : ∃ c ∈ ['"', '\'', '\x60'], ∃ rest, cs = c :: rest := by
  unfold quoted? at h
  split at h
  · exact ⟨_, by simp, _, rfl⟩
  · exact ⟨_, by simp, _, rfl⟩
  · exact ⟨_, by simp, _, rfl⟩
  · simp at h

theorem nakedVar?_head (h : nakedVar? cs = some text) : ∃ c ∈ ['$', '@'], ∃ rest, cs = c :: rest := by
  unfold nakedVar? at h
  split at h
  · next sigil opening rest =>
      dsimp only at h
      split at h
      · next hOpen =>
          simp only [Bool.and_eq_true, Bool.or_eq_true, beq_iff_eq] at hOpen
          exact ⟨sigil, by simpa using hOpen.1, _, rfl⟩
      · simp at h
  · simp at h

theorem nakedVar?_of_head (h : c ∉ ['$', '@']) : nakedVar? (c :: rest) = none := by
  cases hFound : nakedVar? (c :: rest) with
  | none => rfl
  | some text =>
    obtain ⟨d, hd, more, heq⟩ := nakedVar?_head hFound
    cases heq
    exact absurd hd h

theorem punctuation?_cases (h : punctuation? cs = some (kind, text)) :
    (kind = .arrow ∧ text = ['-', '>']) ∨ (kind = .assign ∧ text = ['=', '>']) ∨
      (kind = .openParen ∧ text = ['(']) ∨ (kind = .closeParen ∧ text = [')']) ∨
      (kind = .comma ∧ text = [',']) ∨ (kind = .openBrace ∧ text = ['{']) ∨
      (kind = .closeBrace ∧ text = ['}']) ∨ (kind = .semicolon ∧ text = [';']) := by
  unfold punctuation? at h
  split at h
  all_goals first
    | simp only [Option.some.injEq, Prod.mk.injEq] at h
      obtain ⟨rfl, rfl⟩ := h
      simp
    | simp at h

theorem quiet_of_head_mem (hFront : front.all (fun c => !isGuardChar c) = true)
    (h : ∃ c ∈ front, ∃ rest, cs = c :: rest) (rest : List Char) : Quiet (cs ++ rest) := by
  obtain ⟨c, hc, more, rfl⟩ := h
  apply quiet_of_head
  intro d hd
  cases hd
  simpa using List.all_eq_true.1 hFront c hc

theorem quiet_paren_cons (hc : c = '(' ∨ c = ')') (hRest : Quiet rest) : Quiet (c :: rest) := by
  have h := @Quiet.append [c] rest (List.forall_mem_singleton.2 (by rcases hc with rfl | rfl <;> rfl))
    (.singleton _) (by rcases hc with rfl | rfl <;> simp) hRest
  simpa using h

/-- No class expression starts at a token of another kind. -/
theorem Spelling.quiet (hText : Spelling kind text) (hKind : kind ≠ .guard) (hRest : Ends kind rest) :
    Quiet (text ++ rest) := by
  cases hText with
  | guard => exact absurd rfl hKind
  | symbol hFirst hSecond hFirstChars hSecondChars =>
    exact quiet_symbol_append hFirstChars hSecond hSecondChars hRest.2
  | promiseType hName hChars => exact quiet_promiseType_append hChars hRest
  | name hName hChars => exact quiet_name_append hChars (ends_identKind hRest).2
  | quoted hText => exact quiet_of_head_mem rfl (quoted?_head hText) rest
  | nakedVar hText => exact quiet_of_head_mem rfl (nakedVar?_head hText) rest
  | punctuation hText =>
    rcases punctuation?_cases hText with ⟨rfl, rfl⟩ | ⟨rfl, rfl⟩ | ⟨rfl, rfl⟩ | ⟨rfl, rfl⟩ |
      ⟨rfl, rfl⟩ | ⟨rfl, rfl⟩ | ⟨rfl, rfl⟩ | ⟨rfl, rfl⟩
    · exact quiet_of_head (by simp; decide)
    · exact quiet_of_head (by simp; decide)
    · exact quiet_paren_cons (.inl rfl) hRest
    · exact quiet_paren_cons (.inr rfl) hRest
    · exact quiet_of_head (by simp; decide)
    · exact quiet_of_head (by simp; decide)
    · exact quiet_of_head (by simp; decide)
    · exact quiet_of_head (by simp; decide)

/-- The first character that is not dropped is none of `front` and not `d` in `rest`. -/
theorem head?_dropWhile_append_ne {d : Char} (hFront : ∀ c ∈ front, c ≠ d)
    (hRest : ∀ c ∈ rest.head?, p c = false ∧ c ≠ d) : ∀ c ∈ ((front ++ rest).dropWhile p).head?, c ≠ d := by
  induction front with
  | nil =>
    cases rest with
    | nil => simp
    | cons e more =>
      intro c hc
      simp only [List.nil_append, List.dropWhile_cons, (hRest e rfl).1, Bool.false_eq_true,
        ↓reduceIte, List.head?_cons, Option.mem_def, Option.some.injEq] at hc
      exact hc ▸ (hRest e rfl).2
  | cons e front ih =>
    rw [List.cons_append, List.dropWhile_cons]
    split
    · exact ih (fun c hc => hFront c (by simp [hc]))
    · intro c hc
      cases hc
      exact hFront e (by simp)

theorem promiseType?_of_dropWhile (h : ∀ c ∈ (cs.dropWhile (fun c => c.isAlpha || c == '_')).head?, c ≠ ':') :
    promiseType? cs = none := by
  simp only [promiseType?]
  split
  · next rest hDrop =>
      rw [hDrop] at h
      exact absurd rfl (h ':' rfl)
  · rfl

theorem symbol?_of_dropWhile (h : ∀ c ∈ (cs.dropWhile isNameChar).head?, c ≠ ':') : symbol? cs = none := by
  simp only [symbol?]
  split
  · next rest hDrop =>
      rw [hDrop] at h
      exact absurd rfl (h ':' rfl)
  · rfl

theorem front?_of_guard? (hGuard : guard? cs = some text) (hQuoted : quoted? cs = none) :
    front? cs = some (.token .guard, text) := by
  simp [front?, hQuoted, hGuard]

/-- The lexeme at a name character, where no class expression starts. -/
theorem front?_of_isNameChar (hc : isNameChar c = true) (hQuiet : Quiet (c :: rest)) : front? (c :: rest) =
      ((symbol? (c :: rest)).map ((.token .symbol, ·))).or
        (((promiseType? (c :: rest)).map ((.token .promiseType, ·))).or
          ((ident? (c :: rest)).map (fun name => (.token (identKind name), name)))) := by
  have hQuoted := @quoted?_of_isGuardChar c rest (isGuardChar_of_isNameChar hc)
  have hIdent : ident? (c :: rest) = some (c :: rest.takeWhile isNameChar) := by
    simp [ident?, hc]
  simp [front?, hQuoted, hQuiet.guard?, hIdent]

/-- The lexeme at a character that starts no word. -/
theorem front?_of_mark (hName : isNameChar c = false) (hQuoted : quoted? (c :: rest) = none)
    (hQuiet : Quiet (c :: rest)) :
    front? (c :: rest) = ((space? (c :: rest)).map ((.space, ·))).or (((comment? (c :: rest)).map ((.comment, ·))).or
          (((nakedVar? (c :: rest)).map ((.token .nakedVar, ·))).or
            ((punctuation? (c :: rest)).map (fun (kind, text) => (.token kind, text))))) := by
  simp [front?, hQuoted, hQuiet.guard?, symbol?_of_head hName, promiseType?_of_head hName, ident?_of_head hName]

theorem guard?_append (hChars : ∀ c ∈ text, isGuardChar c = true)
    (hRest : ∀ c ∈ rest.head?, isGuardChar c = false) : guard? (text ++ rest) = guard? text := by
  simp only [guard?, takeWhile_stop hChars hRest, List.takeWhile_eq_self_iff.2 hChars]

theorem symbol?_append (hFirst : first ≠ []) (hSecond : second ≠ [])
    (hFirstChars : ∀ c ∈ first, isNameChar c = true) (hSecondChars : ∀ c ∈ second, isNameChar c = true)
    (hRest : ∀ c ∈ rest.head?, isNameChar c = false) :
    symbol? (first ++ ':' :: second ++ rest) = some (first ++ ':' :: second) := by
  have hColon : ∀ c ∈ (':' :: (second ++ rest)).head?, isNameChar c = false := by
    intro c hc
    cases hc
    decide
  rw [List.append_assoc, List.cons_append, symbol?]
  simp only [takeWhile_stop hFirstChars hColon, dropWhile_stop hFirstChars hColon, takeWhile_stop hSecondChars hRest]
  simp [hFirst, hSecond]

theorem symbol?_promiseType_append (hChars : ∀ c ∈ name, isNameChar c = true)
    (hRest : ∀ c ∈ rest.head?, isNameChar c = false) : symbol? (name ++ ':' :: rest) = none := by
  have hColon : ∀ c ∈ (':' :: rest).head?, isNameChar c = false := by
    intro c hc
    cases hc
    decide
  have hSecond : rest.takeWhile isNameChar = [] := by
    cases rest with
    | nil => rfl
    | cons c more => simp [hRest c rfl]
  rw [symbol?]
  simp only [takeWhile_stop hChars hColon, dropWhile_stop hChars hColon, hSecond]
  simp

theorem promiseType?_append (hName : name ≠ []) (hChars : ∀ c ∈ name, (c.isAlpha || c == '_') = true) :
    promiseType? (name ++ ':' :: rest) = some (name ++ [':']) := by
  have hColon : ∀ c ∈ (':' :: rest).head?, (c.isAlpha || c == '_') = false := by
    intro c hc
    cases hc
    decide
  rw [promiseType?]
  simp only [takeWhile_stop hChars hColon, dropWhile_stop hChars hColon]
  simp [hName]

theorem front?_promiseType_append (hName : name ≠ []) (hChars : ∀ c ∈ name, (c.isAlpha || c == '_') = true)
    (hRest : ∀ c ∈ rest.head?, isGuardChar c = false) :
    front? (name ++ [':'] ++ rest) = some (.token .promiseType, name ++ [':']) := by
  have hNameChars : ∀ c ∈ name, isNameChar c = true :=
    fun c hc => isNameChar_of_heading (hChars c hc)
  have hQuiet := quiet_promiseType_append hChars hRest
  have hSymbol : symbol? (name ++ [':'] ++ rest) = none := by
    rw [List.append_assoc]
    refine symbol?_promiseType_append hNameChars ?_
    exact fun c hc => isNameChar_eq_false (hRest c hc)
  have hType : promiseType? (name ++ [':'] ++ rest) = some (name ++ [':']) := by
    rw [List.append_assoc]
    exact promiseType?_append hName hChars
  obtain ⟨c, more, rfl⟩ := List.exists_cons_of_ne_nil hName
  simp only [List.cons_append] at hQuiet hSymbol hType ⊢
  rw [front?_of_isNameChar (hNameChars c (by simp)) hQuiet, hSymbol, hType]
  rfl

theorem front?_name_append (hName : name ≠ []) (hChars : ∀ c ∈ name, isNameChar c = true)
    (hRest : ∀ c ∈ rest.head?, isNameChar c = false ∧ c ≠ ':') (hQuiet : Quiet rest) :
    front? (name ++ rest) = some (.token (identKind name), name) := by
  have hStop : ∀ c ∈ rest.head?, isNameChar c = false := fun c hc => (hRest c hc).1
  have hSymbol : symbol? (name ++ rest) = none := by
    apply symbol?_of_dropWhile
    rw [dropWhile_stop hChars hStop]
    exact fun c hc => (hRest c hc).2
  have hType : promiseType? (name ++ rest) = none := by
    apply promiseType?_of_dropWhile
    refine head?_dropWhile_append_ne (fun c hc => isNameChar_ne_colon (hChars c hc)) ?_
    intro c hc
    refine ⟨?_, (hRest c hc).2⟩
    by_contra hHeading
    rw [Bool.not_eq_false] at hHeading
    exact absurd (isNameChar_of_heading hHeading) (by simp [(hRest c hc).1])
  have hIdent : ident? (name ++ rest) = some name := by
    simp only [ident?, takeWhile_stop hChars hStop]
    simp [hName]
  have hAll := quiet_name_append hChars hQuiet
  obtain ⟨c, more, rfl⟩ := List.exists_cons_of_ne_nil hName
  simp only [List.cons_append] at hAll hSymbol hType hIdent ⊢
  rw [front?_of_isNameChar (hChars c (by simp)) hAll, hSymbol, hType, hIdent]
  rfl

/-- A token is found again wherever what follows it ends it. -/
theorem Spelling.front?_append (hText : Spelling kind text) (hRest : Ends kind rest) :
    front? (text ++ rest) = some (.token kind, text) := by
  cases hText with
  | quoted hText => simp [front?, (quoted?_append hText rest).1]
  | guard hChars hText =>
    obtain ⟨c, more, rfl⟩ : ∃ c more, text = c :: more := by
      apply List.exists_cons_of_ne_nil
      rintro rfl
      simp [guard?, endingInColons] at hText
    refine front?_of_guard? ?_ (quoted?_of_isGuardChar (hChars c (by simp)))
    rw [guard?_append hChars hRest, hText]
  | symbol hFirst hSecond hFirstChars hSecondChars =>
    have hQuiet := quiet_symbol_append hFirstChars hSecond hSecondChars hRest.2
    have hSymbol := symbol?_append hFirst hSecond hFirstChars hSecondChars (fun c hc => (hRest.1 c hc).1)
    obtain ⟨c, more, rfl⟩ := List.exists_cons_of_ne_nil hFirst
    simp only [List.cons_append] at hQuiet hSymbol ⊢
    rw [front?_of_isNameChar (hFirstChars c (by simp)) hQuiet, hSymbol]
    rfl
  | promiseType hName hChars => exact front?_promiseType_append hName hChars hRest
  | name hName hChars =>
    obtain ⟨hStop, hQuiet⟩ := ends_identKind hRest
    exact front?_name_append hName hChars hStop hQuiet
  | nakedVar hText =>
    have hAgain := (nakedVar?_append hText rest).1
    have hQuiet := (Spelling.nakedVar hText).quiet (by decide) hRest
    obtain ⟨c, hc, more, rfl⟩ := nakedVar?_head hText
    simp only [List.cons_append, List.mem_cons, List.not_mem_nil, or_false] at hAgain hQuiet hc ⊢
    rcases hc with rfl | rfl
    all_goals
      rw [front?_of_mark (by decide) rfl hQuiet, hAgain]
      rfl
  | punctuation hText =>
    rcases punctuation?_cases hText with ⟨rfl, rfl⟩ | ⟨rfl, rfl⟩ | ⟨rfl, rfl⟩ | ⟨rfl, rfl⟩ |
      ⟨rfl, rfl⟩ | ⟨rfl, rfl⟩ | ⟨rfl, rfl⟩ | ⟨rfl, rfl⟩
    all_goals
      have hQuiet := (Spelling.punctuation hText).quiet (by decide) hRest
      refine (front?_of_mark (by decide) rfl hQuiet).trans ?_
      rw [nakedVar?_of_head (by decide)]
      rfl

theorem ends_nil (kind : TokenKind) : Ends kind [] := by
  cases kind <;> simp [Ends, quiet_nil]

/-- The kind of token that a text is by itself. -/
def kindOf (text : String) : TokenKind :=
  match front? text.toList with
  | some (.token kind, _) => kind
  | _ => default

theorem Spelling.kindOf_eq {text : String} (h : Spelling kind text.toList) : kindOf text = kind := by
  have hFront := h.front?_append (ends_nil kind)
  rw [List.append_nil] at hFront
  simp [kindOf, hFront]

/-- The text is a token. -/
def IsToken (text : String) : Prop :=
  Spelling (kindOf text) text.toList

theorem Spelling.isToken {text : String} (h : Spelling kind text.toList) : IsToken text := by
  rw [IsToken, h.kindOf_eq]
  exact h

/-! Tokens with fixed texts. -/

theorem kindOf_openParen : kindOf "(" = .openParen := by decide

theorem kindOf_closeParen : kindOf ")" = .closeParen := by decide

theorem kindOf_openBrace : kindOf "\x7b" = .openBrace := by decide

theorem kindOf_closeBrace : kindOf "\x7d" = .closeBrace := by decide

theorem kindOf_comma : kindOf "," = .comma := by decide

theorem kindOf_semicolon : kindOf ";" = .semicolon := by decide

theorem kindOf_bundle : kindOf "bundle" = .bundle := by decide

theorem kindOf_body : kindOf "body" = .body := by decide

/-- The text of the tokens that have one spelling only. -/
def fixedText : TokenKind → Option String
  | .arrow => some "->"
  | .assign => some "=>"
  | .comma => some ","
  | .openBrace => some "\x7b"
  | .closeBrace => some "\x7d"
  | .openParen => some "("
  | .closeParen => some ")"
  | .semicolon => some ";"
  | .body => some "body"
  | .bundle => some "bundle"
  | _ => none

theorem Spelling.eq_of_fixedText {text fixed : String} (h : Spelling kind text.toList)
    (hFixed : fixedText kind = some fixed) : text = fixed := by
  have hChars : text.toList = fixed.toList := by
    generalize text.toList = cs at h
    cases h with
    | quoted => cases hFixed
    | guard => cases hFixed
    | symbol => cases hFixed
    | promiseType => cases hFixed
    | nakedVar => cases hFixed
    | name hName hChars =>
      unfold identKind at hFixed
      split_ifs at hFixed with hBody hBundle
      · cases hFixed
        simpa using hBody
      · cases hFixed
        simpa using hBundle
      · cases hFixed
    | punctuation hText =>
      rcases punctuation?_cases hText with ⟨rfl, rfl⟩ | ⟨rfl, rfl⟩ | ⟨rfl, rfl⟩ | ⟨rfl, rfl⟩ |
        ⟨rfl, rfl⟩ | ⟨rfl, rfl⟩ | ⟨rfl, rfl⟩ | ⟨rfl, rfl⟩ <;>
      · cases hFixed
        rfl
  exact String.toList_inj.1 hChars

theorem Spelling.ne_nil (h : Spelling kind text) : text ≠ [] := by
  have hFront := h.front?_append (ends_nil kind)
  rintro rfl
  simp [front?, quoted?, guard?, endingInColons, symbol?, promiseType?, ident?, space?, comment?,
    nakedVar?, punctuation?] at hFront

end Lexeme

end PolicyFormat.Policy
