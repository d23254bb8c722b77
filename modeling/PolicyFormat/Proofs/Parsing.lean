import Mathlib.Tactic.SplitIfs
import PolicyFormat.Proofs.Derivation

/-! The parser reads a tree from tokens exactly if the tree is derived from them. -/
namespace PolicyFormat.Policy

variable {ε α : Type} {e : Except ε α}

theorem exists_of_isOk (h : e.isOk = true) : ∃ a, e = .ok a := by
  cases e with
  | error e => cases h
  | ok a => exact ⟨a, rfl⟩

theorem exists_of_toOption {β : Type} {f : α → β} {b : β} (h : e.toOption.map f = some b) :
    ∃ a, e = .ok a ∧ f a = b := by
  cases e with
  | error e => cases h
  | ok a => exact ⟨a, rfl, Option.some.inj h⟩

/-! ### Input and steps -/

/-- The input after the given tokens have been read. -/
def Input.advance (input : Input) (tokens : List Token) : Input :=
  { input with
    tokens := input.tokens.drop tokens.length
    endLine := (tokens.getLast?.map Token.endLine).getD input.endLine
    stop := (tokens.getLast?.map Token.stop).getD input.stop }

namespace Input

@[simp] theorem advance_nil (input : Input) : input.advance [] = input := rfl

@[simp] theorem advance_advance (input : Input) (a b : List Token) :
    (input.advance a).advance b = input.advance (a ++ b) := by
  cases hb : b.getLast? <;> simp [advance, List.getLast?_append, hb]

theorem advance_tokens {input : Input} {own rest : List Token} (h : input.tokens = own ++ rest) :
    (input.advance own).tokens = rest := by
  simp [advance, h]

@[simp] theorem advance_ending (input : Input) (own : List Token) : (input.advance own).ending = input.ending := rfl

end Input

namespace Parser

variable {α β : Type} {p q one : Parser α} {R : Option Token → α → List Token → Prop} {starts : TokenKind → Bool}
  {follows : TokenKind → Prop} {trailing : List Token → Bool} {kind : TokenKind} {yields : Option Int}
  {input after : Input} {taken own rest : List Token} {t : Token} {x : α}

variable {y : β}

theorem except_bind_eq_ok {e : Except Refusal α} {f : α → Except Refusal β} :
    (e >>= f) = .ok y ↔ ∃ a, e = .ok a ∧ f a = .ok y := by
  cases e <;> simp [bind, Except.bind]

theorem bind_eq_ok {f : α → Parser β} : (p >>= f) input = .ok (y, after) ↔
      ∃ x middle, p input = .ok (x, middle) ∧ f x middle = .ok (y, after) := by
  refine except_bind_eq_ok.trans ?_
  simp only [Prod.exists]

theorem pure_apply (x : α) (input : Input) : (pure x : Parser α) input = .ok (x, input) :=
  rfl

theorem pure_eq_ok {y : α} : (pure x : Parser α) input = .ok (y, after) ↔ x = y ∧ input = after := by
  simp [pure_apply]

variable {f : α → β}

theorem map_eq_ok :
    (do return f (← p) : Parser β) input = .ok (y, after) ↔ ∃ x, p input = .ok (x, after) ∧ f x = y := by
  simp only [bind_eq_ok, pure_eq_ok]
  constructor
  · rintro ⟨x, _, h, rfl, rfl⟩
    exact ⟨x, h, rfl⟩
  · rintro ⟨x, h, rfl⟩
    exact ⟨x, _, h, rfl, rfl⟩

/-- Whatever the parser reads is related to the tokens that it takes and to the next token. -/
def Sound (p : Parser α) (R : Option Token → α → List Token → Prop) : Prop :=
  ∀ input x after, p input = .ok (x, after) →
    ∃ own rest, input.tokens = own ++ rest ∧ after = input.advance own ∧ R rest.head? x own

/-- The parser reads whatever is related to tokens, if the next token is one that may follow. -/
def Complete (p : Parser α) (R : Option Token → α → List Token → Prop) (follows : TokenKind → Prop) : Prop :=
  ∀ input x own rest, input.tokens = own ++ rest → (∀ t ∈ rest.head?, follows t.kind) →
    R rest.head? x own → p input = .ok (x, input.advance own)

/-- What a parser reads after other tokens have been read. -/
theorem Sound.next (hp : Sound p R) (hTokens : input.tokens = taken ++ rest)
    (h : p (input.advance taken) = .ok (x, after)) :
    ∃ own left, rest = own ++ left ∧ input.tokens = (taken ++ own) ++ left ∧
      after = input.advance (taken ++ own) ∧ R left.head? x own := by
  obtain ⟨own, left, hRest, rfl, hOwn⟩ := hp _ _ _ h
  rw [Input.advance_tokens hTokens] at hRest
  subst hRest
  exact ⟨own, left, rfl, by simpa using hTokens, by simp, hOwn⟩

/-- A parser reads on after other tokens have been read. -/
theorem Complete.next (hp : Complete p R follows) (hTokens : input.tokens = taken ++ (own ++ rest))
    (hRest : ∀ t ∈ rest.head?, follows t.kind) (h : R rest.head? x own) :
    p (input.advance taken) = .ok (x, input.advance (taken ++ own)) := by
  rw [hp _ _ _ _ (Input.advance_tokens hTokens) hRest h, Input.advance_advance]

theorem Sound.pure (h : ∀ next, R next x []) : Sound (Pure.pure x) R := by
  intro input y after hRead
  obtain ⟨rfl, rfl⟩ := pure_eq_ok.1 hRead
  exact ⟨[], input.tokens, rfl, rfl, h _⟩

theorem Sound.map {S : Option Token → β → List Token → Prop} (hp : Sound p R)
    (h : ∀ {next x own}, R next x own → S next (f x) own) : Sound (do return f (← p)) S := by
  intro input y after hRead
  obtain ⟨x, hFirst, rfl⟩ := map_eq_ok.1 hRead
  obtain ⟨own, rest, hTokens, rfl, hOwn⟩ := hp _ _ _ hFirst
  exact ⟨own, rest, hTokens, rfl, h hOwn⟩

/-! ### Tokens -/

variable {start : Start} {l : Leaf}

theorem refuse_ne_ok : (refuse : Parser α) input ≠ .ok (x, after) := by
  unfold refuse
  split <;> simp

theorem nextKind?_eq_ok {next : Option TokenKind} :
    nextKind? input = .ok (next, after) ↔ input.tokens.head?.map (·.kind) = next ∧ input = after := by
  simp [nextKind?]

theorem atNext_eq_ok : atNext input = .ok (start, after) ↔
      ∃ t, input.tokens.head? = some t ∧ start = ⟨t.line, t.offset⟩ ∧ input = after := by
  unfold atNext
  split
  · rename_i t rest hTokens
    simp [hTokens, eq_comm]
  · rename_i hTokens
    simp [hTokens, refuse_ne_ok]

theorem token_eq_ok : token kind input = .ok (t, after) ↔
      ∃ rest, input.tokens = t :: rest ∧ t.kind = kind ∧ after = input.advance [t] := by
  unfold token
  split
  · rename_i u rest hTokens
    split_ifs with hKind
    · simp only [Except.ok.injEq, Prod.mk.injEq, hTokens, List.cons.injEq]
      constructor
      · rintro ⟨rfl, rfl⟩
        exact ⟨rest, ⟨rfl, rfl⟩, hKind, by simp [Input.advance, hTokens]⟩
      · rintro ⟨rest, ⟨rfl, rfl⟩, -, rfl⟩
        exact ⟨rfl, by simp [Input.advance, hTokens]⟩
    · simp only [refuse_ne_ok, hTokens, List.cons.injEq, false_iff]
      rintro ⟨rest, ⟨rfl, -⟩, h, -⟩
      exact hKind h
  · rename_i hTokens
    simp [hTokens, refuse_ne_ok]

theorem leaf_eq_ok : leaf kind yields input = .ok (l, after) ↔
      ∃ t rest, input.tokens = [t] ++ rest ∧ t.kind = kind ∧ l = t.leaf yields ∧ after = input.advance [t] := by
  simp only [leaf, bind_eq_ok, pure_eq_ok, token_eq_ok]
  constructor
  · rintro ⟨t, middle, ⟨rest, hTokens, hKind, rfl⟩, rfl, rfl⟩
    exact ⟨t, rest, hTokens, hKind, rfl, rfl⟩
  · rintro ⟨t, rest, hTokens, hKind, rfl, rfl⟩
    exact ⟨t, _, ⟨rest, hTokens, hKind, rfl⟩, rfl, rfl⟩

/-- A token that was read as a node after other tokens. -/
theorem leaf_next (hTokens : input.tokens = taken ++ rest)
    (h : leaf kind yields (input.advance taken) = .ok (l, after)) :
    ∃ t left, rest = t :: left ∧ input.tokens = (taken ++ [t]) ++ left ∧ t.kind = kind ∧ l = t.leaf yields ∧
      after = input.advance (taken ++ [t]) := by
  simp only [leaf_eq_ok, Input.advance_tokens hTokens, Input.advance_advance] at h
  obtain ⟨t, left, rfl, hKind, rfl, rfl⟩ := h
  exact ⟨t, left, rfl, by simpa using hTokens, hKind, rfl, rfl⟩

/-- A token is read as a node after other tokens. -/
theorem leaf_ok (hTokens : input.tokens = taken ++ t :: rest) (hKind : t.kind = kind) :
    leaf kind yields (input.advance taken) = .ok (t.leaf yields, input.advance (taken ++ [t])) := by
  rw [leaf_eq_ok, Input.advance_tokens hTokens, ← Input.advance_advance]
  exact ⟨t, rest, rfl, hKind, rfl, rfl⟩

/-- What is read from its first token on. -/
theorem opening_eq_ok {f : Start → Leaf → Parser α} :
    (do let start ← atNext; let l ← leaf kind yields; f start l) input = .ok (x, after) ↔
      ∃ t rest, input.tokens = [t] ++ rest ∧ t.kind = kind ∧
        f ⟨t.line, t.offset⟩ (t.leaf yields) (input.advance [t]) = .ok (x, after) := by
  simp only [bind_eq_ok, atNext_eq_ok, leaf_eq_ok]
  constructor
  · rintro ⟨_, _, ⟨t, hHead, rfl, rfl⟩, _, _, ⟨u, rest, hTokens, hKind, rfl, rfl⟩, h⟩
    obtain rfl : u = t := by simpa [hTokens] using hHead
    exact ⟨u, rest, hTokens, hKind, h⟩
  · rintro ⟨t, rest, hTokens, hKind, h⟩
    exact ⟨_, _, ⟨t, by simp [hTokens], rfl, rfl⟩, _, _, ⟨t, rest, hTokens, hKind, rfl, rfl⟩, h⟩

/-! ### Choices -/

/-- Reads one construct if the next token is of the given kind, and another one if not. -/
def choose (kind : TokenKind) (p q : Parser α) : Parser α := do
  if (← nextKind?) = some kind then p else q

theorem choose_sound (hp : Sound p R) (hq : Sound q R) : Sound (choose kind p q) R := by
  intro input x after h
  simp only [choose, bind_eq_ok, nextKind?_eq_ok] at h
  obtain ⟨_, _, ⟨rfl, rfl⟩, h⟩ := h
  split_ifs at h
  · exact hp _ _ _ h
  · exact hq _ _ _ h

theorem choose_first (hTokens : input.tokens = own ++ rest) (hHead : ∃ t more, own = t :: more ∧ t.kind = kind) :
    choose kind p q input = p input := by
  obtain ⟨t, more, rfl, hKind⟩ := hHead
  have hNext : input.tokens.head?.map (·.kind) = some kind := by simp [hTokens, hKind]
  exact congrFun (if_pos hNext) input

theorem choose_second (hTokens : input.tokens = own ++ rest) (hHead : ∀ t ∈ (own ++ rest).head?, t.kind ≠ kind) :
    choose kind p q input = q input := by
  have hNext : input.tokens.head?.map (·.kind) ≠ some kind := by
    rw [hTokens, ne_eq, Option.map_eq_some_iff]
    rintro ⟨t, ht, hKind⟩
    exact hHead t ht hKind
  exact congrFun (if_neg hNext) input

theorem optional_sound (kind : TokenKind) : Sound (optional kind) (fun _ l own => Optionally kind l own) := by
  refine choose_sound ?_ (.pure fun _ => .none)
  intro input l after h
  obtain ⟨l, hLeaf, rfl⟩ := map_eq_ok.1 h
  obtain ⟨t, rest, hTokens, hKind, rfl, rfl⟩ := leaf_eq_ok.1 hLeaf
  exact ⟨[t], rest, hTokens, rfl, .some hKind⟩

theorem optional_complete (kind : TokenKind) :
    Complete (optional kind) (fun _ l own => Optionally kind l own) (· ≠ kind) := by
  intro input l own rest hTokens hFollows h
  cases h with
  | none => exact choose_second hTokens hFollows
  | @some t hKind =>
    refine (choose_first hTokens ⟨t, [], rfl, hKind⟩).trans (map_eq_ok.2 ⟨_, ?_, rfl⟩)
    exact leaf_eq_ok.2 ⟨t, rest, hTokens, hKind, rfl, rfl⟩

/-! ### Sequences -/

theorem many_go_sound (hOne : Sound one R) (bound : Nat) :
    Sound (many.go starts one bound) (fun next => ManyBefore R next) := by
  induction bound with
  | zero => exact .pure fun _ => .nil
  | succ bound ih =>
    intro input xs after h
    unfold many.go at h
    split_ifs at h with hStarts
    · obtain ⟨⟨x, middle⟩, hFirst, h⟩ := except_bind_eq_ok.1 h
      obtain ⟨⟨more, last⟩, hMore, h⟩ := except_bind_eq_ok.1 h
      obtain ⟨rfl, rfl⟩ := pure_eq_ok.1 h
      obtain ⟨own, rest, hTokens, rfl, hOwn⟩ := hOne _ _ _ hFirst
      obtain ⟨taken, left, rfl, hTokens, rfl, hMany⟩ := ih.next hTokens hMore
      rw [List.head?_append] at hOwn
      exact ⟨own ++ taken, left, hTokens, rfl, .cons hOwn hMany⟩
    · exact Sound.pure (fun _ => .nil) _ _ _ h

theorem many_sound (hOne : Sound one R) : Sound (many starts one) (fun next => ManyBefore R next) :=
  fun input => many_go_sound hOne input.tokens.length input

/-- Each construct starts with a token of one of the given kinds. -/
def StartsWith (starts : TokenKind → Bool) (R : Option Token → α → List Token → Prop) : Prop :=
  ∀ next x own, R next x own → ∃ t more, own = t :: more ∧ starts t.kind = true

theorem StartsWith.of_kind {kindOf : α → TokenKind} (hKinds : ∀ x, starts (kindOf x) = true)
    (hHead : ∀ next x own, R next x own → ∃ t more, own = t :: more ∧ t.kind = kindOf x) : StartsWith starts R := by
  intro next x own h
  obtain ⟨t, more, rfl, ht⟩ := hHead next x own h
  exact ⟨t, more, rfl, ht ▸ hKinds x⟩

theorem many_go_complete (hOne : Complete one R follows) (hStarts : StartsWith starts R)
    (hNext : ∀ kind, starts kind = true → follows kind) {bound : Nat} {xs : List α}
    (hTokens : input.tokens = own ++ rest) (hRest : ∀ t ∈ rest.head?, follows t.kind ∧ starts t.kind = false)
    (hBound : own.length ≤ bound)
    (h : ManyBefore R rest.head? xs own) :
    many.go starts one bound input = .ok (xs, input.advance own) := by
  induction h generalizing input bound with
  | nil =>
    cases bound with
    | zero => rfl
    | succ bound =>
      unfold many.go
      rw [if_neg]
      · rfl
      · rw [hTokens, List.nil_append]
        cases hHead : rest.head? with
        | none => simp
        | some t => simp [(hRest t hHead).2]
  | @cons x xs own more hOwn hMore ih =>
    obtain ⟨t, others, rfl, ht⟩ := hStarts _ _ _ hOwn
    cases bound with
    | zero => simp at hBound
    | succ bound =>
      have hHead : ∀ t ∈ (more ++ rest).head?, follows t.kind := by
        intro u hu
        rw [List.head?_append] at hu
        cases hMore with
        | nil => exact (hRest u (by simpa using hu)).1
        | cons hOther hMore =>
          obtain ⟨v, others, rfl, hv⟩ := hStarts _ _ _ hOther
          obtain rfl : v = u := by simpa using hu
          exact hNext _ hv
      rw [List.append_assoc] at hTokens
      rw [← List.head?_append] at hOwn
      have hFirst := hOne _ _ _ _ hTokens hHead hOwn
      have hLater := @ih _ bound (Input.advance_tokens hTokens) (by
        simp only [List.length_append, List.length_cons] at hBound
        omega)
      unfold many.go
      rw [if_pos (by simp [hTokens, ht]), except_bind_eq_ok]
      refine ⟨_, hFirst, ?_⟩
      rw [except_bind_eq_ok]
      exact ⟨_, hLater, by simp⟩

/-- Constructs are read one after the other up to a token that starts none. -/
theorem many_complete (hOne : Complete one R follows) (hStarts : StartsWith starts R)
    (hNext : ∀ kind, starts kind = true → follows kind) :
    Complete (many starts one) (fun next => ManyBefore R next) (fun kind => follows kind ∧ starts kind = false) := by
  intro input xs own rest hTokens hRest h
  refine many_go_complete hOne hStarts hNext hTokens hRest ?_ h
  simp [hTokens]

section

variable {R : α → List Token → Prop}

theorem afterCommas_go_sound (hOne : Sound one (fun _ => R)) (bound : Nat) :
    Sound (afterCommas.go one trailing bound) (fun _ => AfterCommas R) := by
  induction bound with
  | zero => exact .pure fun _ => .nil
  | succ bound ih =>
    intro input xs after h
    unfold afterCommas.go at h
    split_ifs at h with hComma
    · obtain ⟨⟨comma, middle⟩, hToken, h⟩ := except_bind_eq_ok.1 h
      obtain ⟨⟨x, middle'⟩, hNext, h⟩ := except_bind_eq_ok.1 h
      obtain ⟨⟨more, last⟩, hMore, h⟩ := except_bind_eq_ok.1 h
      obtain ⟨rfl, rfl⟩ := pure_eq_ok.1 h
      obtain ⟨left, (hTokens : _ = [comma] ++ left), hKind, rfl⟩ := token_eq_ok.1 hToken
      obtain ⟨own, rest, rfl, hTokens, rfl, hOwn⟩ := hOne.next hTokens hNext
      obtain ⟨taken, final, rfl, hTokens, rfl, hMany⟩ := ih.next hTokens hMore
      exact ⟨comma :: own ++ taken, final, hTokens, rfl, .cons hKind hOwn hMany⟩
    · exact Sound.pure (R := fun _ => AfterCommas R) (fun _ => .nil) _ _ _ h

theorem commaSeparated_sound (hOne : Sound one (fun _ => R)) :
    Sound (commaSeparated starts one trailing) (fun _ => Separated R) := by
  intro input xs after h
  simp only [commaSeparated, bind_eq_ok, nextKind?_eq_ok] at h
  obtain ⟨_, _, ⟨rfl, rfl⟩, h⟩ := h
  split_ifs at h with hStarts
  · simp only [bind_eq_ok, pure_eq_ok] at h
    obtain ⟨x, middle, hFirst, more, last, hMore, rfl, rfl⟩ := h
    obtain ⟨own, rest, hTokens, rfl, hOwn⟩ := hOne _ _ _ hFirst
    obtain ⟨taken, left, rfl, hTokens, rfl, hMany⟩ := (afterCommas_go_sound hOne _).next hTokens hMore
    exact ⟨own ++ taken, left, hTokens, rfl, .first hOwn hMany⟩
  · obtain ⟨own, rest, hTokens, rfl, hMany⟩ := afterCommas_go_sound hOne _ _ _ _ h
    exact ⟨own, rest, hTokens, rfl, .later hMany⟩

/-- What a list of elements with commas needs to be read: every element can be read before a token
that may follow it, such as a comma, and no comma before an element ends the list. -/
structure Listable (starts : TokenKind → Bool) (one : Parser α) (R : α → List Token → Prop)
    (trailing : List Token → Bool) (follows : TokenKind → Prop) (bound : Nat) : Prop where
  reads : ∀ input x own rest, input.tokens = own ++ rest → (∀ t ∈ rest.head?, follows t.kind) →
    R x own → own.length ≤ bound → one input = .ok (x, input.advance own)
  head : ∀ x own, R x own → ∃ t more, own = t :: more ∧ starts t.kind = true
  comma_follows : follows .comma
  comma_starts : starts .comma = false
  not_trailing : ∀ comma t more, starts t.kind = true → trailing (comma :: t :: more) = false

variable {size : Nat} (hList : Listable starts one R trailing follows size) {xs : List α}
include hList

theorem Listable.follows_head (h : AfterCommas R xs own) (hRest : ∀ t ∈ rest.head?, follows t.kind) :
    ∀ t ∈ (own ++ rest).head?, follows t.kind := by
  cases h with
  | nil => exact hRest
  | cons hComma => simpa [hComma] using hList.comma_follows

theorem afterCommas_go_complete {bound : Nat} (hTokens : input.tokens = own ++ rest)
    (hRest : ∀ t ∈ rest.head?, follows t.kind)
    (hStop : ∀ t ∈ rest.head?, t.kind = .comma → trailing rest = true) (hBound : own.length ≤ bound)
    (hSize : own.length ≤ size) (h : AfterCommas R xs own) :
    afterCommas.go one trailing bound input = .ok (xs, input.advance own) := by
  induction h generalizing input bound with
  | nil =>
    cases bound with
    | zero => rfl
    | succ bound =>
      unfold afterCommas.go
      rw [if_neg]
      · rfl
      · rw [hTokens, List.nil_append]
        cases hHead : rest.head? with
        | none => simp
        | some t =>
          intro hAnd
          simp only [Option.map_some, Option.some.injEq, Bool.and_eq_true,
            decide_eq_true_eq, Bool.not_eq_true'] at hAnd
          rw [hStop t hHead hAnd.1] at hAnd
          exact absurd hAnd.2 (by simp)
  | @cons comma x xs own more hComma hOwn hMore ih =>
    obtain ⟨t, others, hOthers, ht⟩ := hList.head _ _ hOwn
    simp only [List.length_append, List.length_cons] at hBound hSize
    cases bound with
    | zero => omega
    | succ bound =>
      have hCommaTokens : input.tokens = [comma] ++ (own ++ (more ++ rest)) := by
        simpa using hTokens
      have hOwnTokens := Input.advance_tokens hCommaTokens
      have hFirst := hList.reads _ _ _ _ hOwnTokens (hList.follows_head hMore hRest) hOwn (by omega)
      have hLater := @ih _ bound (Input.advance_tokens hOwnTokens) (by omega) (by omega)
      unfold afterCommas.go
      rw [if_pos, except_bind_eq_ok]
      · refine ⟨_, token_eq_ok.2 ⟨_, hCommaTokens, hComma, rfl⟩, ?_⟩
        rw [except_bind_eq_ok]
        refine ⟨_, hFirst, ?_⟩
        rw [except_bind_eq_ok]
        exact ⟨_, hLater, by simp⟩
      · simp only [hCommaTokens, hOthers, List.cons_append, List.nil_append, List.head?_cons]
        simp [hComma, hList.not_trailing comma t _ ht]

theorem commaSeparated_complete (hTokens : input.tokens = own ++ rest)
    (hRest : ∀ t ∈ rest.head?, follows t.kind ∧ starts t.kind = false)
    (hStop : ∀ t ∈ rest.head?, t.kind = .comma → trailing rest = true)
    (hSize : own.length ≤ size) (h : Separated R xs own) :
    commaSeparated starts one trailing input = .ok (xs, input.advance own) := by
  have hFollows : ∀ t ∈ rest.head?, follows t.kind := fun t ht => (hRest t ht).1
  simp only [commaSeparated, bind_eq_ok, nextKind?_eq_ok]
  refine ⟨_, _, ⟨rfl, rfl⟩, ?_⟩
  cases h with
  | later h =>
    rw [if_neg]
    · exact afterCommas_go_complete hList hTokens hFollows hStop (by simp [hTokens]) hSize h
    · rw [hTokens]
      cases h with
      | nil =>
        cases hHead : rest.head? with
        | none => simp [hHead]
        | some t => simp [hHead, (hRest t hHead).2]
      | cons hComma => simp [hComma, hList.comma_starts]
  | @first x xs own more hOwn hMore =>
    obtain ⟨t, others, rfl, ht⟩ := hList.head _ _ hOwn
    rw [List.append_assoc] at hTokens
    rw [List.length_append] at hSize
    have hFirst := hList.reads _ _ _ _ hTokens (hList.follows_head hMore hFollows) hOwn (by omega)
    have hMoreTokens := Input.advance_tokens hTokens
    have hLater : afterCommas one trailing (input.advance (t :: others)) =
        .ok (xs, (input.advance (t :: others)).advance more) :=
      afterCommas_go_complete hList hMoreTokens hFollows hStop (by simp [hMoreTokens]) (by omega) hMore
    rw [if_pos (by simp [hTokens, ht])]
    simp only [bind_eq_ok, pure_eq_ok]
    exact ⟨_, _, hFirst, _, _, hLater, rfl, by simp⟩

end

/-! ### Values -/

variable {g : ItemList α}

theorem spanFrom_advance {more : List Token} {span : Span} :
    spanFrom ⟨t.line, t.offset⟩ (input.advance (t :: more)) = .ok (span, after) ↔
      spanOf (t :: more) = span ∧ input.advance (t :: more) = after := by
  cases hLast : (t :: more).getLast? with
  | none => simp at hLast
  | some last => simp [spanFrom, spanOf, Input.advance, hLast]

section

variable {start : Start} {opening closing : Option Leaf} {items : List α} {g : ItemList α}

theorem group_eq_ok : group start opening items closing input = .ok (g, after) ↔
      ∃ span, spanFrom start input = .ok (span, after) ∧ listOf span opening items closing = g :=
  map_eq_ok

theorem group_advance {more : List Token} :
    group ⟨t.line, t.offset⟩ opening items closing (input.advance (t :: more)) = .ok (g, after) ↔
      listOf (spanOf (t :: more)) opening items closing = g ∧ input.advance (t :: more) = after := by
  simp only [group_eq_ok, spanFrom_advance]
  constructor
  · rintro ⟨span, ⟨rfl, rfl⟩, rfl⟩
    exact ⟨rfl, rfl⟩
  · rintro ⟨rfl, rfl⟩
    exact ⟨_, ⟨rfl, rfl⟩, rfl⟩

end

/-- Reads a list with its brackets. -/
def enclosed (opens closes : TokenKind) (first last : Option Int) (inner : Parser (List α)) :
    Parser (ItemList α) := do
  let start ← atNext
  let opening ← leaf opens first
  let items ← inner
  let closing ← leaf closes last
  group start (some opening) items (some closing)

section

variable {opens closes : TokenKind} {first last : Option Int} {inner : Parser (List α)}

theorem enclosed_sound {R : Option Token → List α → List Token → Prop} (hInner : Sound inner R) {g : ItemList α}
    (h : enclosed opens closes first last inner input = .ok (g, after)) :
    ∃ opening closing items own rest, input.tokens = (opening :: own ++ [closing]) ++ rest ∧
      after = input.advance (opening :: own ++ [closing]) ∧ opening.kind = opens ∧ closing.kind = closes ∧
      R (some closing) items own ∧ g = listOf (spanOf (opening :: own ++ [closing])) (some (opening.leaf first))
        items (some (closing.leaf last)) := by
  obtain ⟨opening, rest, hTokens, hOpening, h⟩ := opening_eq_ok.1 h
  simp only [bind_eq_ok] at h
  obtain ⟨items, _, hItems, c, _, hClose, hGroup⟩ := h
  obtain ⟨own, rest, rfl, hTokens, rfl, hOwn⟩ := hInner.next hTokens hItems
  obtain ⟨closing, rest, rfl, hTokens, hClosing, rfl, rfl⟩ := leaf_next hTokens hClose
  obtain ⟨rfl, rfl⟩ := group_advance.1 hGroup
  exact ⟨opening, closing, items, own, rest, hTokens, rfl, hOpening, hClosing, hOwn, rfl⟩

theorem enclosed_ok {opening closing : Token} {items : List α}
    (hTokens : input.tokens = (opening :: own ++ [closing]) ++ rest) (hOpening : opening.kind = opens)
    (hClosing : closing.kind = closes)
    (hInner : inner (input.advance [opening]) = .ok (items, input.advance ([opening] ++ own))) :
    enclosed opens closes first last inner input =
      .ok (listOf (spanOf (opening :: own ++ [closing])) (some (opening.leaf first)) items
        (some (closing.leaf last)), input.advance (opening :: own ++ [closing])) := by
  refine opening_eq_ok.2 ⟨opening, _, hTokens, hOpening, ?_⟩
  simp only [bind_eq_ok]
  exact ⟨_, _, hInner, _, _, leaf_ok (by simpa using hTokens) hClosing, group_advance.2 ⟨rfl, rfl⟩⟩

end

theorem parenthesised_sound {R : α → List Token → Prop} (hOne : Sound one (fun _ => R)) :
    Sound (parenthesised starts one) (fun _ => Parenthesised R) := by
  intro input g after h
  obtain ⟨opening, closing, items, inner, rest, hTokens, rfl, hOpening, hClosing, hInner, rfl⟩ :=
    enclosed_sound (commaSeparated_sound hOne) h
  exact ⟨_, rest, hTokens, rfl, .mk hOpening hInner hClosing⟩

theorem parenthesised_complete {R : α → List Token → Prop} {size : Nat}
    (hList : Listable starts one R (fun _ => false) follows size)
    (hClose : follows .closeParen ∧ starts .closeParen = false) (hTokens : input.tokens = own ++ rest)
    (hSize : own.length ≤ size) (h : Parenthesised R g own) :
    parenthesised starts one input = .ok (g, input.advance own) := by
  obtain @⟨opening, closing, items, inner, hOpening, hInner, hClosing⟩ := h
  have hOpen : input.tokens = [opening] ++ (inner ++ (closing :: rest)) := by
    simpa using hTokens
  have hRest : ∀ t ∈ (closing :: rest).head?, follows t.kind ∧ starts t.kind = false := by
    simpa [hClosing] using hClose
  have hItems := commaSeparated_complete hList (Input.advance_tokens hOpen) hRest (by simp [hClosing])
    (by simp at hSize; omega) hInner
  rw [Input.advance_advance] at hItems
  exact enclosed_ok hTokens hOpening hClosing hItems

theorem element_sound (depth : Nat) (yields : Option Int) :
    Sound (element depth yields) (fun _ => Element.Derived yields) := by
  induction depth generalizing yields with
  | zero =>
    intro input e after h
    exact absurd h refuse_ne_ok
  | succ depth ih =>
    intro input e after h
    simp only [element, bind_eq_ok, atNext_eq_ok, nextKind?_eq_ok] at h
    obtain ⟨start, _, ⟨t, hHead, rfl, rfl⟩, _, _, ⟨rfl, rfl⟩, h⟩ := h
    rw [hHead] at h
    simp only [Option.map_some] at h
    split_ifs at h with hQuoted hCall
    · simp only [bind_eq_ok, pure_eq_ok, leaf_eq_ok] at h
      obtain ⟨l, _, ⟨word, rest, hTokens, hKind, rfl, rfl⟩, rfl, rfl⟩ := h
      exact ⟨[word], rest, hTokens, rfl, .word (by simp [startsElement, hKind])⟩
    · simp only [bind_eq_ok, nextKind?_eq_ok] at h
      obtain ⟨l, _, hWord, _, _, ⟨rfl, rfl⟩, h⟩ := h
      obtain ⟨name, rest, hTokens, hKind, rfl, rfl⟩ := leaf_eq_ok.1 hWord
      obtain rfl : name = t := by simpa [hTokens] using hHead
      split_ifs at h with hOpen
      · simp only [bind_eq_ok, pure_eq_ok] at h
        obtain ⟨arguments, _, hArguments, span, _, hSpan, rfl, rfl⟩ := h
        obtain ⟨own, left, rfl, hTokens, rfl, hOwn⟩ :=
          (parenthesised_sound (ih (some 0))).next hTokens hArguments
        obtain ⟨rfl, rfl⟩ := spanFrom_advance.1 hSpan
        exact ⟨_, left, hTokens, rfl, .call hCall hOwn⟩
      · obtain ⟨rfl, rfl⟩ := pure_eq_ok.1 h
        exact ⟨[name], rest, hTokens, rfl, .word (by simp [startsElement, hCall])⟩
    · exact absurd h refuse_ne_ok

theorem element_complete {depth : Nat} {e : Element} (hTokens : input.tokens = own ++ rest)
    (hRest : ∀ t ∈ rest.head?, t.kind ≠ .openParen) (h : e.Derived yields own)
    (hDepth : own.length ≤ depth) :
    element depth yields input = .ok (e, input.advance own) := by
  induction depth generalizing yields input e own rest with
  | zero =>
    obtain ⟨t, more, rfl, -⟩ := h.head
    simp at hDepth
  | succ depth ih =>
    simp only [element, bind_eq_ok, atNext_eq_ok, nextKind?_eq_ok]
    obtain ⟨t, more, rfl, ht⟩ := h.head
    have hHead : input.tokens.head? = some t := by simp [hTokens]
    refine ⟨_, _, ⟨t, hHead, rfl, rfl⟩, _, _, ⟨rfl, rfl⟩, ?_⟩
    rw [hHead]
    simp only [Option.map_some]
    cases h with
    | word hKind =>
      split_ifs with hQuoted hCall
      · simp only [bind_eq_ok, pure_eq_ok, leaf_eq_ok]
        exact ⟨_, _, ⟨t, rest, hTokens, hQuoted, rfl, rfl⟩, rfl, rfl⟩
      · simp only [bind_eq_ok, nextKind?_eq_ok]
        refine ⟨_, _, leaf_eq_ok.2 ⟨t, rest, hTokens, rfl, rfl, rfl⟩, _, _, ⟨rfl, rfl⟩, ?_⟩
        rw [if_neg, pure_eq_ok]
        · exact ⟨rfl, rfl⟩
        · rw [@Input.advance_tokens _ [t] rest hTokens, Option.map_eq_some_iff]
          rintro ⟨u, hu, hKind⟩
          exact hRest u hu hKind
      · simp [startsElement, hQuoted, hCall] at ht
    | call hName hArguments =>
      have hList : Listable startsElement (element depth (some 0)) (Element.Derived (some 0))
          (fun _ => false) (· ≠ .openParen) more.length := by
        refine ⟨?_, fun _ _ h => h.head, by decide, by decide, fun _ _ _ _ => rfl⟩
        intro input e own rest hTokens hRest h hSize
        exact ih hTokens hRest h (by simp at hDepth; omega)
      replace hTokens : input.tokens = [t] ++ (more ++ rest) := hTokens
      have hNext := Input.advance_tokens hTokens
      have hBrackets := parenthesised_complete hList ⟨by decide, by decide⟩ hNext (Nat.le_refl _) hArguments
      have hOpen : (input.advance [t]).tokens.head?.map (·.kind) = some .openParen := by
        rw [hNext]
        cases hArguments with
        | mk hOpening => simp [hOpening]
      have hNotQuoted : t.kind ≠ .quoted := by
        intro hQuoted
        simp [startsCall, hQuoted] at hName
      rw [if_neg hNotQuoted, if_pos hName]
      simp only [bind_eq_ok, nextKind?_eq_ok]
      refine ⟨_, _, leaf_eq_ok.2 ⟨t, _, hTokens, rfl, rfl, rfl⟩, _, _, ⟨rfl, rfl⟩, ?_⟩
      rw [if_pos hOpen]
      simp only [bind_eq_ok, pure_eq_ok]
      rw [Input.advance_advance] at hBrackets
      exact ⟨_, _, hBrackets, _, _, spanFrom_advance.2 ⟨rfl, rfl⟩, rfl, rfl⟩

theorem anyElement_sound (yields : Option Int) : Sound (anyElement yields) (fun _ => Element.Derived yields) :=
  fun input => element_sound input.tokens.length yields input

theorem anyElement_complete (yields : Option Int) :
    Complete (anyElement yields) (fun _ => Element.Derived yields) (· ≠ .openParen) := by
  intro input e own rest hTokens hRest h
  exact element_complete hTokens hRest h (by simp [hTokens])

/-- Reads a construct and the comma after it. -/
def trailed (p : Parser α) : Parser α := do
  let x ← p
  let _ ← optional .comma
  return x

/-- Reads what stands in a list in braces, with the comma after it. -/
def listed : Parser (List Element) := do
  let items ← trailed (commaSeparated startsElement (anyElement (some 0)) endsList)
  return items.map (Element.withTraits (fun t => { t with keepsBlank := true }))

theorem bracedList_eq : bracedList = enclosed .openBrace .closeBrace (some 1) none listed := by
  simp [bracedList, enclosed, listed, trailed]

theorem bracedList_sound : Sound bracedList (fun _ => BracedDerived) := by
  intro input g after h
  have hInner : Sound listed fun _ kept own => ∃ items inner comma extra, own = inner ++ extra ∧
      kept = items.map (Element.withTraits (fun t => { t with keepsBlank := true })) ∧
      Separated (Element.Derived (some 0)) items inner ∧ Optionally .comma comma extra := by
    intro input kept after h
    simp only [listed, trailed, bind_eq_ok, pure_eq_ok] at h
    obtain ⟨_, _, ⟨items, _, hItems, comma, _, hComma, rfl, rfl⟩, rfl, rfl⟩ := h
    obtain ⟨inner, rest, hTokens, rfl, hInner⟩ := commaSeparated_sound (anyElement_sound (some 0)) _ _ _ hItems
    obtain ⟨extra, rest, rfl, hTokens, rfl, hExtra⟩ := (optional_sound .comma).next hTokens hComma
    exact ⟨_, rest, hTokens, rfl, items, inner, comma, extra, rfl, rfl, hInner, hExtra⟩
  rw [bracedList_eq] at h
  obtain ⟨opening, closing, _, _, rest, hTokens, rfl, hOpening, hClosing,
    ⟨items, inner, comma, extra, rfl, rfl, hInner, hComma⟩, rfl⟩ := enclosed_sound hInner h
  exact ⟨_, rest, hTokens, rfl, .mk hOpening hInner hComma hClosing⟩

theorem bracedList_complete : Complete bracedList (fun _ => BracedDerived) (fun _ => True) := by
  intro input g own rest hTokens hRest h
  obtain @⟨opening, closing, items, inner, comma, extra, hOpening, hInner, hComma, hClosing⟩ := h
  have hList : Listable startsElement (anyElement (some 0)) (Element.Derived (some 0)) endsList
      (· ≠ .openParen) inner.length := by
    refine ⟨?_, fun _ _ h => h.head, by decide, by decide, ?_⟩
    · intro input e own rest hTokens hRest h _
      exact anyElement_complete (some 0) input e own rest hTokens hRest h
    · intro comma t more ht
      simp only [endsList, decide_eq_false_iff_not]
      intro hKind
      simp [startsElement, startsCall, hKind] at ht
  have hAfter : ∀ t ∈ (extra ++ closing :: rest).head?, t.kind ≠ .openParen ∧ startsElement t.kind = false := by
    cases hComma with
    | none => simp [hClosing, startsElement, startsCall]
    | some hKind => simp [hKind, startsElement, startsCall]
  have hStop : ∀ t ∈ (extra ++ closing :: rest).head?, t.kind = .comma →
      endsList (extra ++ closing :: rest) = true := by
    cases hComma with
    | none => simp [hClosing]
    | some hKind => simp [endsList, hClosing]
  have hOpen : input.tokens = [opening] ++ (inner ++ (extra ++ closing :: rest)) := by
    simpa using hTokens
  have hItems := commaSeparated_complete hList (Input.advance_tokens hOpen) hAfter hStop (Nat.le_refl _) hInner
  rw [Input.advance_advance] at hItems
  have hExtra : input.tokens = ([opening] ++ inner) ++ (extra ++ closing :: rest) := by
    simpa using hTokens
  have hOptional := (optional_complete .comma).next hExtra (by simp [hClosing]) hComma
  rw [bracedList_eq]
  refine enclosed_ok hTokens hOpening hClosing ?_
  simp only [listed, trailed, bind_eq_ok, pure_eq_ok]
  exact ⟨_, _, ⟨_, _, hItems, _, _, hOptional, rfl, rfl⟩, rfl, by simp⟩

theorem value_sound : Sound value (fun _ => Value.Derived) :=
  choose_sound (bracedList_sound.map .list) ((anyElement_sound (some 1)).map .single)

theorem value_complete : Complete value (fun _ => Value.Derived) (· ≠ .openParen) := by
  intro input v own rest hTokens hRest h
  cases h with
  | list h =>
    have hList := bracedList_complete input _ own rest hTokens (fun _ _ => trivial) h
    refine (choose_first hTokens ?_).trans (map_eq_ok.2 ⟨_, hList, rfl⟩)
    cases h with
    | mk hOpening => exact ⟨_, _, rfl, hOpening⟩
  | single h =>
    have hElement := anyElement_complete (some 1) input _ own rest hTokens hRest h
    refine (choose_second hTokens ?_).trans (map_eq_ok.2 ⟨_, hElement, rfl⟩)
    obtain ⟨t, more, rfl, ht⟩ := h.head
    rintro _ ⟨⟩ hKind
    simp [startsElement, startsCall, hKind] at ht

/-! ### Promises -/

variable {next last : Token} {items : List α}

theorem assignment_sound (keepsBlank : Bool) :
    Sound (assignment keepsBlank) (fun _ => Assignment.Derived keepsBlank) := by
  intro input a after h
  obtain ⟨name, rest, hTokens, hName, h⟩ := opening_eq_ok.1 h
  simp only [bind_eq_ok, pure_eq_ok] at h
  obtain ⟨r, _, hMiddle, v, _, hValue, c, _, hComma, span, _, hSpan, rfl, rfl⟩ := h
  obtain ⟨arrow, rest, rfl, hTokens, hArrow, rfl, rfl⟩ := leaf_next hTokens hMiddle
  obtain ⟨right, rest, rfl, hTokens, rfl, hRight⟩ := value_sound.next hTokens hValue
  obtain ⟨extra, rest, rfl, hTokens, rfl, hExtra⟩ := (optional_sound .comma).next hTokens hComma
  obtain ⟨rfl, rfl⟩ := spanFrom_advance.1 hSpan
  exact ⟨name :: arrow :: (right ++ extra), rest, by simpa using hTokens, rfl, .mk hName hArrow hRight hExtra⟩

theorem assignment_complete (keepsBlank : Bool) :
    Complete (assignment keepsBlank) (fun _ => Assignment.Derived keepsBlank)
      (fun kind => kind ≠ .openParen ∧ kind ≠ .comma) := by
  intro input a own rest hTokens hRest h
  obtain @⟨name, arrow, value, right, comma, extra, hName, hArrow, hRight, hComma⟩ := h
  have hAfter : ∀ t ∈ (extra ++ rest).head?, t.kind ≠ .openParen := by
    cases hComma with
    | none => exact fun t ht => (hRest t ht).1
    | some hKind => simp [hKind]
  refine opening_eq_ok.2 ⟨name, _, hTokens, hName, ?_⟩
  simp only [bind_eq_ok, pure_eq_ok]
  exact ⟨_, _, leaf_ok (by simpa using hTokens) hArrow, _, _,
    value_complete.next (by simpa using hTokens) hAfter hRight, _, _,
    (optional_complete .comma).next (by simpa using hTokens) (fun t ht => (hRest t ht).2) hComma, _, _,
    spanFrom_advance.2 ⟨rfl, rfl⟩, by simp, by simp⟩

theorem afterNext_sound (h : afterNext input = .ok (start, after)) :
    after = input ∧ ∀ t ∈ input.tokens.head?, start = ⟨t.endLine, t.stop⟩ := by
  unfold afterNext at h
  split at h
  · rename_i t rest hTokens
    simp only [Except.ok.injEq, Prod.mk.injEq] at h
    obtain ⟨rfl, rfl⟩ := h
    simp [hTokens]
  · rename_i hTokens _
    simp only [Except.ok.injEq, Prod.mk.injEq] at h
    obtain ⟨rfl, rfl⟩ := h
    simp [hTokens]
  · exact absurd h refuse_ne_ok

theorem afterNext_ok (h : input.tokens.head? = some t) : afterNext input = .ok (⟨t.endLine, t.stop⟩, input) := by
  unfold afterNext
  split
  · rename_i u rest hTokens
    obtain rfl : u = t := by simpa [hTokens] using h
    rfl
  all_goals
    rename_i hTokens _
    simp [hTokens] at h

theorem group_openSpan (hLast : taken.getLast? = some last) :
    group ⟨next.endLine, next.stop⟩ none items none (input.advance taken) = .ok (g, after) ↔
      listOf (openSpan next last) none items none = g ∧ input.advance taken = after := by
  simp only [group_eq_ok, spanFrom, Except.ok.injEq, Prod.mk.injEq]
  constructor
  · rintro ⟨span, ⟨rfl, rfl⟩, rfl⟩
    simp [openSpan, Input.advance, hLast]
  · rintro ⟨rfl, rfl⟩
    exact ⟨_, ⟨rfl, rfl⟩, by simp [openSpan, Input.advance, hLast]⟩

/-- A list without brackets, read after other tokens. -/
theorem openGroup_sound (hOne : Sound one R) {middle later : Input} (hTokens : input.tokens = taken ++ rest)
    (hStart : afterNext (input.advance taken) = .ok (start, middle))
    (hItems : many starts one middle = .ok (items, later))
    (hGroup : group start none items none later = .ok (g, after)) :
    ∃ body left, rest = body ++ left ∧ input.tokens = (taken ++ body) ++ left ∧
      after = input.advance (taken ++ body) ∧ ManyBefore R left.head? items body ∧
      ∀ next ∈ (body ++ left).head?, ∀ last ∈ (taken ++ body).getLast?,
        listOf (openSpan next last) none items none = g := by
  obtain ⟨rfl, hNext⟩ := afterNext_sound hStart
  rw [Input.advance_tokens hTokens] at hNext
  obtain ⟨body, left, rfl, hTokens, rfl, hBody⟩ := (many_sound hOne).next hTokens hItems
  refine ⟨body, left, rfl, hTokens, ?_, hBody, ?_⟩
  · obtain ⟨span, hSpan, rfl⟩ := group_eq_ok.1 hGroup
    simp only [spanFrom, Except.ok.injEq, Prod.mk.injEq] at hSpan
    exact hSpan.2.symm
  · intro next hMem last hLast
    rw [hNext next hMem, group_openSpan hLast] at hGroup
    exact hGroup.1

/-- Reads a promisee, if there is one. -/
def promisee : Parser (Option Value) := do
  if (← nextKind?) = some .arrow then
    let _ ← leaf .arrow
    return some (← value)
  else return none

theorem promise_eq : promise = do
    let start ← atNext
    let promiser ← leaf .quoted
    let promisee ← promisee
    let comma ← optional .comma
    let inner ← afterNext
    let items ← many (· = .ident) (assignment false)
    let constraints ← group inner none items none
    let semicolon ← leaf .semicolon (some 2)
    let span ← spanFrom start
    return { traits := { span, keepsBlank := true }, promiser, promisee, comma, constraints, semicolon } := by
  simp only [promise, promisee, constraints, bind_assoc]
  congr
  funext start
  congr
  funext promiser
  congr
  funext kind
  split <;> simp

theorem promisee_sound : Sound promisee (fun _ => PromiseeDerived) := by
  refine choose_sound ?_ (.pure fun _ => .none)
  intro input v after h
  simp only [bind_eq_ok, pure_eq_ok] at h
  obtain ⟨r, _, hRead, v, _, hValue, rfl, rfl⟩ := h
  obtain ⟨arrow, rest, hTokens, hArrow, rfl, rfl⟩ := leaf_eq_ok.1 hRead
  obtain ⟨right, left, rfl, hTokens, rfl, hRight⟩ := value_sound.next hTokens hValue
  exact ⟨arrow :: right, left, hTokens, rfl, .some hArrow hRight⟩

theorem promisee_complete :
    Complete promisee (fun _ => PromiseeDerived) (fun kind => kind ≠ .openParen ∧ kind ≠ .arrow) := by
  intro input v own rest hTokens hRest h
  cases h with
  | none => exact choose_second hTokens fun t ht => (hRest t ht).2
  | @some arrow value right hArrow hRight =>
    have hNext : input.tokens = [arrow] ++ (right ++ rest) := hTokens
    refine (choose_first hTokens ⟨arrow, right, rfl, hArrow⟩).trans ?_
    simp only [bind_eq_ok, pure_eq_ok]
    exact ⟨_, _, leaf_eq_ok.2 ⟨_, _, hTokens, hArrow, rfl, rfl⟩, _, _,
      value_complete.next hNext (fun t ht => (hRest t ht).1) hRight, rfl, rfl⟩

theorem promise_sound : Sound promise (fun _ => Promise.Derived) := by
  intro input p after h
  rw [promise_eq] at h
  obtain ⟨promiser, rest, hTokens, hPromiser, h⟩ := opening_eq_ok.1 h
  simp only [bind_eq_ok, pure_eq_ok] at h
  obtain ⟨promisee, _, hPromisee, comma, _, hComma, inner, _, hStart, items, _, hItems, g, _, hGroup, l', _,
    hLast, span, _, hSpan, rfl, rfl⟩ := h
  obtain ⟨right, rest, rfl, hTokens, rfl, hTo⟩ := promisee_sound.next hTokens hPromisee
  obtain ⟨extra, rest, rfl, hTokens, rfl, hExtra⟩ := (optional_sound .comma).next hTokens hComma
  obtain ⟨body, rest, rfl, hTokens, rfl, hBody, hList⟩ :=
    openGroup_sound (assignment_sound false) hTokens hStart hItems hGroup
  obtain ⟨semicolon, rest, rfl, hTokens, hKind, rfl, rfl⟩ := leaf_next hTokens hLast
  obtain ⟨rfl, rfl⟩ := spanFrom_advance.1 hSpan
  obtain ⟨next, hNext⟩ : ∃ next, (body ++ [semicolon]).head? = some next :=
    Option.isSome_iff_exists.1 (by simp)
  obtain ⟨last, hLast⟩ : ∃ last, (promiser :: (right ++ extra ++ body)).getLast? = some last :=
    Option.isSome_iff_exists.1 (by simp)
  have hNext' : (body ++ semicolon :: rest).head? = some next := by
    rw [← hNext]
    cases body <;> rfl
  rw [← hList next hNext' last (by simpa using hLast)]
  refine ⟨promiser :: (right ++ extra ++ body) ++ [semicolon], rest, by simpa using hTokens, by simp, ?_⟩
  exact .mk hPromiser hTo hExtra hBody.anywhere hKind hNext hLast

/-- A list without brackets is read again after other tokens. -/
theorem openGroup_complete (starts : TokenKind → Bool) (hOne : Complete one R follows)
    (hStarts : StartsWith starts R) (hNext : ∀ kind, starts kind = true → follows kind) {body : List Token}
    (hTokens : input.tokens = taken ++ (body ++ rest))
    (hRest : ∀ t ∈ rest.head?, follows t.kind ∧ starts t.kind = false)
    (hBody : ManyBefore R rest.head? items body) (hFirst : (body ++ rest).head? = some next)
    (hLast : (taken ++ body).getLast? = some last) :
    afterNext (input.advance taken) = .ok (⟨next.endLine, next.stop⟩, input.advance taken) ∧
      many starts one (input.advance taken) = .ok (items, input.advance (taken ++ body)) ∧
      group ⟨next.endLine, next.stop⟩ none items none (input.advance (taken ++ body)) =
        .ok (listOf (openSpan next last) none items none, input.advance (taken ++ body)) := by
  refine ⟨afterNext_ok ?_, ?_, (group_openSpan hLast).2 ⟨rfl, rfl⟩⟩
  · rw [Input.advance_tokens hTokens, hFirst]
  · exact (many_complete hOne hStarts hNext).next hTokens hRest hBody

theorem promise_complete : Complete promise (fun _ => Promise.Derived) (fun _ => True) := by
  intro input p own rest hTokens hRest h
  obtain @⟨promiser, semicolon, next, last, promisee, right, comma, extra, items, body, hPromiser, hTo, hComma,
    hBody, hSemicolon, hNext, hLast⟩ := h
  have hBodyHead : ∀ t ∈ (body ++ semicolon :: rest).head?,
      t.kind ≠ .openParen ∧ t.kind ≠ .arrow ∧ t.kind ≠ .comma := by
    cases hBody with
    | nil => simp [hSemicolon]
    | cons hOwn =>
      obtain ⟨t, more, rfl, ht⟩ := hOwn.head
      simp [ht]
  have hExtraHead : ∀ t ∈ (extra ++ (body ++ semicolon :: rest)).head?, t.kind ≠ .openParen ∧ t.kind ≠ .arrow := by
    cases hComma with
    | none => exact fun t ht => ⟨(hBodyHead t ht).1, (hBodyHead t ht).2.1⟩
    | some hKind => simp [hKind]
  have hNext' : (body ++ semicolon :: rest).head? = some next := by
    rw [← hNext]
    cases body <;> rfl
  obtain ⟨hStart, hItems, hGroup⟩ := openGroup_complete (· = .ident)
    (assignment_complete false) (fun _ _ _ h => by simpa using h.head) (by simp)
    (show input.tokens = [promiser] ++ right ++ extra ++ (body ++ semicolon :: rest) by simpa using hTokens)
    (by simp [hSemicolon]) hBody.anywhere hNext' (by simpa using hLast)
  rw [promise_eq]
  refine opening_eq_ok.2 ⟨promiser, _, hTokens, hPromiser, ?_⟩
  simp only [bind_eq_ok, pure_eq_ok]
  exact ⟨_, _, promisee_complete.next (by simpa using hTokens) hExtraHead hTo, _, _,
    (optional_complete .comma).next (by simpa using hTokens) (fun t ht => (hBodyHead t ht).2.2) hComma, _, _,
    hStart, _, _, hItems, _, _, hGroup, _, _, leaf_ok (by simpa using hTokens) hSemicolon, _, _,
    spanFrom_advance.2 ⟨rfl, rfl⟩, by simp, by simp⟩

theorem guard_sound : Sound guard (fun _ => Guard.Derived) := by
  intro input g after h
  obtain ⟨t, rest, hTokens, hKind, h⟩ := opening_eq_ok.1 h
  obtain ⟨span, hSpan, rfl⟩ := map_eq_ok.1 h
  obtain ⟨rfl, rfl⟩ := spanFrom_advance.1 hSpan
  exact ⟨[t], rest, hTokens, rfl, .mk hKind⟩

theorem guard_complete : Complete guard (fun _ => Guard.Derived) (fun _ => True) := by
  intro input g own rest hTokens hRest h
  cases h with
  | @mk t hKind =>
    refine opening_eq_ok.2 ⟨t, rest, hTokens, hKind, ?_⟩
    exact map_eq_ok.2 ⟨_, spanFrom_advance.2 ⟨rfl, rfl⟩, rfl⟩

theorem clause_sound : Sound clause (fun _ => Clause.Derived) :=
  choose_sound (guard_sound.map .guard) (promise_sound.map .promise)

theorem clause_complete : Complete clause (fun _ => Clause.Derived) (fun _ => True) := by
  intro input c own rest hTokens hRest h
  cases h with
  | guard h =>
    exact (choose_first hTokens (Clause.Derived.guard h).head).trans
      (map_eq_ok.2 ⟨_, guard_complete _ _ _ _ hTokens hRest h, rfl⟩)
  | promise h =>
    refine (choose_second hTokens ?_).trans (map_eq_ok.2 ⟨_, promise_complete _ _ _ _ hTokens hRest h, rfl⟩)
    obtain ⟨t, more, rfl, ht⟩ := (Clause.Derived.promise h).head
    simp [ht, Clause.isGuard]

theorem promiseType_sound : Sound promiseType (fun next p own => next.isSome → p.Derived next own) := by
  intro input p after h
  obtain ⟨name, rest, hTokens, hName, h⟩ := opening_eq_ok.1 h
  simp only [bind_eq_ok, pure_eq_ok] at h
  obtain ⟨inner, _, hStart, items, _, hItems, g, _, hGroup, span, _, hSpan, rfl, rfl⟩ := h
  obtain ⟨body, rest, rfl, hTokens, rfl, hBody, hList⟩ :=
    openGroup_sound clause_sound hTokens hStart hItems hGroup
  obtain ⟨rfl, rfl⟩ := spanFrom_advance.1 hSpan
  refine ⟨name :: body, rest, by simpa using hTokens, rfl, fun hNext => ?_⟩
  obtain ⟨next, hNext⟩ := Option.isSome_iff_exists.1 hNext
  obtain ⟨first, hFirst⟩ : ∃ first, body.head?.or rest.head? = some first :=
    Option.isSome_iff_exists.1 (by simp [hNext])
  obtain ⟨last, hLast⟩ : ∃ last, (name :: body).getLast? = some last :=
    Option.isSome_iff_exists.1 (by simp)
  rw [← hList first (by rwa [List.head?_append]) last hLast]
  exact .mk hName hBody.anywhere hFirst hLast

theorem promiseType_complete : Complete promiseType (fun next p own => p.Derived next own)
      (fun kind => kind ≠ .guard ∧ kind ≠ .quoted) := by
  intro input p own rest hTokens hRest h
  obtain @⟨name, first, last, clauses, body, hName, hBody, hFirst, hLast⟩ := h
  have hStarts : StartsWith (fun kind => kind = .guard || kind = .quoted) (fun _ => Clause.Derived) :=
    .of_kind (fun c => by cases c <;> rfl) fun _ _ _ h => h.head
  obtain ⟨hStart, hItems, hGroup⟩ := openGroup_complete
    (fun kind => kind = .guard || kind = .quoted) clause_complete hStarts (by simp)
    (show input.tokens = [name] ++ (body ++ rest) from hTokens)
    (by simpa using hRest) hBody.anywhere (by rwa [List.head?_append]) hLast
  refine opening_eq_ok.2 ⟨name, _, hTokens, hName, ?_⟩
  simp only [bind_eq_ok, pure_eq_ok]
  exact ⟨_, _, hStart, _, _, hItems, _, _, hGroup, _, _, spanFrom_advance.2 ⟨rfl, rfl⟩, rfl, rfl⟩

/-! ### Blocks -/

theorem selection_sound : Sound selection (fun _ => Selection.Derived) := by
  refine choose_sound (guard_sound.map .guard) ?_
  intro input s after h
  simp only [bind_eq_ok, pure_eq_ok] at h
  obtain ⟨a, _, hRead, l, _, hSemicolon, rfl, rfl⟩ := h
  obtain ⟨own, rest, hTokens, rfl, hOwn⟩ := assignment_sound true _ _ _ hRead
  obtain ⟨semicolon, rest, rfl, hTokens, hKind, rfl, rfl⟩ := leaf_next hTokens hSemicolon
  exact ⟨own ++ [semicolon], rest, hTokens, rfl, .assignment hOwn hKind⟩

theorem selection_complete : Complete selection (fun _ => Selection.Derived) (fun _ => True) := by
  intro input s own rest hTokens hRest h
  cases h with
  | guard h =>
    exact (choose_first hTokens (Selection.Derived.guard h).head).trans
      (map_eq_ok.2 ⟨_, guard_complete _ _ _ _ hTokens hRest h, rfl⟩)
  | @assignment a own semicolon h hSemicolon =>
    have hTokens' : input.tokens = own ++ (semicolon :: rest) := by simpa using hTokens
    refine (choose_second hTokens ?_).trans ?_
    · obtain ⟨t, more, rfl, ht⟩ := h.head
      simp [ht]
    · simp only [bind_eq_ok, pure_eq_ok]
      exact ⟨_, _, assignment_complete true _ _ _ _ hTokens' (by simp [hSemicolon]) h, _, _,
        leaf_ok hTokens' hSemicolon, rfl, rfl⟩

theorem statements_sound : Sound statements (fun _ g own => (Contents.bundle g).Derived own) := by
  intro input g after h
  obtain ⟨opening, closing, items, inner, rest, hTokens, rfl, hOpening, hClosing, hInner, rfl⟩ :=
    enclosed_sound (many_sound promiseType_sound) h
  exact ⟨_, rest, hTokens, rfl, .bundle hOpening hInner.of_isSome hClosing⟩

theorem statements_complete {g : ItemList PromiseType} (hTokens : input.tokens = own ++ rest)
    (h : (Contents.bundle g).Derived own) : statements input = .ok (g, input.advance own) := by
  cases h with
  | @bundle opening closing items inner hOpening hInner hClosing =>
    have hStarts : StartsWith (· = .promiseType) PromiseType.Derived := .of_kind (by simp) fun _ _ _ h => h.head
    have hOpen : input.tokens = [opening] ++ (inner ++ (closing :: rest)) := by simpa using hTokens
    exact enclosed_ok hTokens hOpening hClosing
      ((many_complete promiseType_complete hStarts (by simp)).next hOpen (by simp [hClosing]) hInner)

/-- Reads what stands in a body. -/
def selected : Parser (List Selection) := do
  let first ← selection
  return first :: (← many (fun kind => kind = .guard || kind = .ident) selection)

theorem selections_eq : selections = enclosed .openBrace .closeBrace none none selected := by
  simp [selections, enclosed, selected]

theorem selections_sound : Sound selections (fun _ g own => (Contents.body g).Derived own) := by
  intro input g after h
  have hInner : Sound selected fun _ items own => Many Selection.Derived items own ∧ items ≠ [] := by
    intro input items after h
    simp only [selected, bind_eq_ok, pure_eq_ok] at h
    obtain ⟨first, _, hFirst, more, _, hMore, rfl, rfl⟩ := h
    obtain ⟨own, rest, hTokens, rfl, hOwn⟩ := selection_sound _ _ _ hFirst
    obtain ⟨inner, rest, rfl, hTokens, rfl, hInner⟩ := (many_sound selection_sound).next hTokens hMore
    exact ⟨own ++ inner, rest, hTokens, rfl, .cons hOwn hInner.anywhere, by simp⟩
  rw [selections_eq] at h
  obtain ⟨opening, closing, items, inner, rest, hTokens, rfl, hOpening, hClosing, ⟨hInner, hItems⟩, rfl⟩ :=
    enclosed_sound hInner h
  exact ⟨_, rest, hTokens, rfl, .body hOpening hInner hItems hClosing⟩

theorem selections_complete {g : ItemList Selection} (hTokens : input.tokens = own ++ rest)
    (h : (Contents.body g).Derived own) : selections input = .ok (g, input.advance own) := by
  cases h with
  | @body opening closing items inner hOpening hInner hItems hClosing =>
    cases hInner with
    | nil => exact absurd rfl hItems
    | @cons first more own inner hOwn hMore =>
      have hStarts : StartsWith (fun kind => kind = .guard || kind = .ident) (fun _ => Selection.Derived) :=
        .of_kind (fun s => by cases s <;> rfl) fun _ _ _ h => h.head
      have hItems := (many_complete selection_complete hStarts (by simp)).next
        (show input.tokens = [opening] ++ own ++ (inner ++ closing :: rest) by simpa using hTokens)
        (by simp [hClosing]) hMore.anywhere
      rw [selections_eq]
      refine enclosed_ok hTokens hOpening hClosing ?_
      simp only [selected, bind_eq_ok, pure_eq_ok]
      exact ⟨_, _, selection_complete.next (by simpa using hTokens) (fun _ _ => trivial) hOwn, _, _, hItems, rfl,
        by simp⟩

/-- Reads the contents of a bundle or a body. -/
def contents (isBundle : Bool) : Parser Contents :=
  if isBundle then do return .bundle (← statements) else do return .body (← selections)

theorem block_eq : block = do
    let start ← atNext
    let kind ← nextKind?
    let keyword ← leaf (if kind = some .bundle then .bundle else .body)
    let type ← leaf .ident
    let name ← leaf .ident
    let parameters ← parameters
    let contents ← contents (kind = some .bundle)
    let span ← spanFrom start
    return { traits := { span }, keyword, type, name, parameters, contents } := by
  simp only [block, contents]
  congr
  funext start
  congr
  funext kind
  by_cases hKind : kind = some .bundle <;> simp [hKind]

theorem contents_sound (isBundle : Bool) : Sound (contents isBundle)
      (fun _ c own => c.Derived own ∧ c.keyword = if isBundle then .bundle else .body) := by
  cases isBundle with
  | true => exact statements_sound.map fun h => ⟨h, rfl⟩
  | false => exact selections_sound.map fun h => ⟨h, rfl⟩

theorem contents_complete (isBundle : Bool) : Complete (contents isBundle)
      (fun _ c own => c.Derived own ∧ c.keyword = if isBundle then .bundle else .body)
      (fun _ => True) := by
  intro input c own rest hTokens hRest h
  obtain ⟨h, hKeyword⟩ := h
  cases c with
  | bundle g =>
    obtain rfl : isBundle = true := by
      cases isBundle <;> simp_all [Contents.keyword]
    exact map_eq_ok.2 ⟨_, statements_complete hTokens h, rfl⟩
  | body g =>
    obtain rfl : isBundle = false := by
      cases isBundle <;> simp_all [Contents.keyword]
    exact map_eq_ok.2 ⟨_, selections_complete hTokens h, rfl⟩

theorem parameter_sound : Sound (leaf .ident (some 0)) (fun _ => ParameterDerived) := by
  intro input l after h
  obtain ⟨t, rest, hTokens, hKind, rfl, rfl⟩ := leaf_eq_ok.1 h
  exact ⟨[t], rest, hTokens, rfl, .mk hKind⟩

theorem parameters_sound {g : ItemList Leaf} (hTokens : input.tokens = taken ++ rest)
    (h : parameters (input.advance taken) = .ok (g, after)) :
    ∃ own left, rest = own ++ left ∧ input.tokens = (taken ++ own) ++ left ∧ after = input.advance (taken ++ own) ∧
      ∀ next ∈ left.head?, ∀ last ∈ taken.getLast?, ParametersDerived last next g own := by
  simp only [parameters, bind_eq_ok, nextKind?_eq_ok] at h
  obtain ⟨_, _, ⟨rfl, rfl⟩, h⟩ := h
  split_ifs at h with hOpen
  · obtain ⟨own, left, rfl, hTokens, rfl, hOwn⟩ :=
      (parenthesised_sound parameter_sound).next hTokens h
    exact ⟨own, left, rfl, hTokens, rfl, fun _ _ _ _ => .some hOwn⟩
  · simp only [bind_eq_ok] at h
    obtain ⟨start, _, hStart, hGroup⟩ := h
    obtain ⟨rfl, hNext⟩ := afterNext_sound hStart
    rw [Input.advance_tokens hTokens] at hNext
    refine ⟨[], rest, rfl, by simpa using hTokens, ?_, ?_⟩
    · obtain ⟨span, hSpan, rfl⟩ := group_eq_ok.1 hGroup
      simp only [spanFrom, Except.ok.injEq, Prod.mk.injEq] at hSpan
      simpa using hSpan.2.symm
    · intro next hMem last hLast
      rw [hNext next hMem, group_openSpan hLast] at hGroup
      rw [← hGroup.1]
      exact .none

theorem parameters_complete {g : ItemList Leaf} (hTokens : input.tokens = taken ++ (own ++ rest))
    (hLast : taken.getLast? = some last) (hNext : rest.head? = some next) (hKind : next.kind = .openBrace)
    (h : ParametersDerived last next g own) :
    parameters (input.advance taken) = .ok (g, input.advance (taken ++ own)) := by
  have hInner := Input.advance_tokens hTokens
  cases h with
  | none =>
    refine (choose_second hInner (by simp [hNext, hKind])).trans ?_
    simp only [bind_eq_ok]
    refine ⟨_, _, afterNext_ok (t := next) (by simp [hInner, hNext]), ?_⟩
    rw [group_openSpan hLast]
    simp
  | some h =>
    have hList : Listable (· = .ident) (leaf .ident (some 0)) ParameterDerived (fun _ => false)
        (fun _ => True) own.length := by
      refine ⟨?_, ?_, trivial, by decide, fun _ _ _ _ => rfl⟩
      · intro input l own rest hTokens _ h _
        cases h with
        | mk hKind => exact leaf_eq_ok.2 ⟨_, _, hTokens, hKind, rfl, rfl⟩
      · intro l own h
        cases h with
        | mk hKind => exact ⟨_, [], rfl, by simp [hKind]⟩
    have hBrackets := parenthesised_complete hList ⟨trivial, by decide⟩ hInner (Nat.le_refl _) h
    rw [Input.advance_advance] at hBrackets
    refine (choose_first hInner ?_).trans hBrackets
    cases h with
    | mk hOpening => exact ⟨_, _, rfl, hOpening⟩

theorem block_sound : Sound block (fun _ => Block.Derived) := by
  intro input b after h
  simp only [block_eq, bind_eq_ok, atNext_eq_ok, nextKind?_eq_ok, pure_eq_ok] at h
  obtain ⟨start, _, ⟨t, hHead, rfl, rfl⟩, _, _, ⟨rfl, rfl⟩, l, _, hFirst, l', _, hSecond, l'', _,
    hThird, g, _, hParameters, c, _, hContents, span, _, hSpan, rfl, rfl⟩ := h
  obtain ⟨keyword, rest, hTokens, hKeyword, rfl, rfl⟩ := leaf_eq_ok.1 hFirst
  obtain ⟨type, rest, rfl, hTokens, hType, rfl, rfl⟩ := leaf_next hTokens hSecond
  obtain ⟨name, rest, rfl, hTokens, hName, rfl, rfl⟩ := leaf_next hTokens hThird
  obtain ⟨brackets, rest, rfl, hTokens, rfl, hBrackets⟩ := parameters_sound hTokens hParameters
  obtain ⟨inner, rest, rfl, hTokens, rfl, hInner, hKind⟩ := (contents_sound _).next hTokens hContents
  obtain rfl : keyword = t := by simpa [hTokens] using hHead
  obtain ⟨rfl, rfl⟩ := spanFrom_advance.1 hSpan
  obtain ⟨next, more, rfl, hNext⟩ := hInner.head
  refine ⟨keyword :: type :: name :: (brackets ++ next :: more), rest, by simpa using hTokens, rfl,
    .mk ?_ hType hName rfl (hBrackets next (by simp) name (by simp)) hInner⟩
  rw [hKeyword, hKind, hHead]
  by_cases hBundle : keyword.kind = .bundle <;> simp [hBundle]

theorem block_complete : Complete block (fun _ => Block.Derived) (fun _ => True) := by
  intro input b own rest hTokens hRest h
  obtain @⟨keyword, type, name, next, parameters, contents, brackets, inner, hKeyword, hType, hName, hNext,
    hParameters, hContents⟩ := h
  obtain ⟨opening, more, rfl, hOpening⟩ := hContents.head
  obtain rfl : opening = next := by simpa using hNext
  have hHead : input.tokens.head?.map (·.kind) = some keyword.kind := by simp [hTokens]
  have hBundle : contents.keyword =
      if (input.tokens.head?.map (·.kind) = some .bundle : Bool) then .bundle else .body := by
    rw [hHead, hKeyword]
    cases contents <;> simp [Contents.keyword]
  simp only [block_eq, bind_eq_ok, atNext_eq_ok, nextKind?_eq_ok, pure_eq_ok]
  exact ⟨_, _, ⟨keyword, by simp [hTokens], rfl, rfl⟩, _, _, ⟨rfl, rfl⟩, _, _,
    leaf_eq_ok.2 ⟨_, _, hTokens, by simpa using hKeyword.trans hBundle, rfl, rfl⟩, _, _,
    leaf_ok hTokens hType, _, _, leaf_ok (by simpa using hTokens) hName, _, _,
    parameters_complete (by simpa using hTokens) (by simp) (by simp) hOpening hParameters, _, _,
    (contents_complete _).next (by simpa using hTokens) (fun _ _ => trivial) ⟨hContents, hBundle⟩, _, _,
    spanFrom_advance.2 ⟨rfl, rfl⟩, rfl, rfl⟩

theorem afterNext_eq {line offset : Int} (hEnding : input.ending = .complete line offset) : afterNext input =
      .ok (⟨(input.tokens.head?.map Token.endLine).getD line,
        (input.tokens.head?.map Token.stop).getD offset⟩, input) := by
  cases hTokens : input.tokens with
  | nil => simp [afterNext, hTokens, hEnding]
  | cons t rest => simp [afterNext, hTokens]

theorem afterLast_eq_ok {u : Unit} : specification.afterLast input = .ok (u, after) ↔
      input.tokens = [] ∧ (∃ line offset, input.ending = .complete line offset) ∧ input = after := by
  unfold specification.afterLast
  split
  · rename_i line offset hTokens hEnding
    simp [hTokens, hEnding]
  · rename_i hNot
    simp only [refuse_ne_ok, false_iff]
    rintro ⟨hTokens, ⟨line, offset, hEnding⟩, -⟩
    exact hNot line offset hTokens hEnding

end Parser

open Parser in
/-- The parser reads a tree from the tokens of a text exactly if the text is complete and the tree
is derived from the tokens. -/
theorem Scan.parse_eq_ok {scan : Scan} {s : Specification} : scan.parse = .ok s ↔
      ∃ line offset, scan.ending = .complete line offset ∧ s.Derived line offset scan.tokens := by
  have hParse : scan.parse = .ok s ↔
      ∃ after, specification { tokens := scan.tokens, ending := scan.ending } = .ok (s, after) := by
    simp only [Scan.parse, except_bind_eq_ok, Prod.exists]
    constructor
    · rintro ⟨_, after, h, hs⟩
      cases hs
      exact ⟨after, h⟩
    · rintro ⟨after, h⟩
      exact ⟨s, after, h, rfl⟩
  simp only [hParse, specification, bind_eq_ok, group_eq_ok, afterLast_eq_ok]
  constructor
  · rintro ⟨after, start, middle, hStart, blocks, later, hBlocks, _, _,
      ⟨hDone, ⟨line, offset, hEnding⟩, rfl⟩, span, hSpan, rfl⟩
    obtain ⟨rfl, -⟩ := afterNext_sound hStart
    obtain ⟨own, rest, hTokens, rfl, hMany⟩ := many_sound block_sound _ _ _ hBlocks
    rw [Input.advance_tokens hTokens] at hDone
    subst hDone
    replace hTokens : scan.tokens = own := by simpa using hTokens
    rw [Input.advance_ending] at hEnding
    rw [afterNext_eq hEnding] at hStart
    simp only [Except.ok.injEq, Prod.mk.injEq, spanFrom] at hStart hSpan
    obtain ⟨rfl, -⟩ := hStart
    obtain ⟨rfl, rfl⟩ := hSpan
    refine ⟨line, offset, hEnding, ?_⟩
    rw [hTokens]
    exact .mk hMany.anywhere
  · rintro ⟨line, offset, hEnding, hDerived⟩
    generalize hTokens : scan.tokens = tokens at hDerived
    obtain ⟨hBlocks⟩ := hDerived
    have hStarts : StartsWith (fun kind => kind = .bundle || kind = .body) (fun _ => Block.Derived) :=
      .of_kind (fun b => by cases b.contents <;> rfl) fun _ _ _ h => h.head
    have hMany := many_complete block_complete hStarts (by simp) ⟨tokens, scan.ending, 0, 0⟩ _
      tokens [] (by simp) (by simp) hBlocks.anywhere
    refine ⟨_, _, _, afterNext_eq hEnding, _, _, hMany, (), _,
      ⟨by simp [Input.advance], ⟨line, offset, hEnding⟩, rfl⟩, _, rfl, rfl⟩

end PolicyFormat.Policy
