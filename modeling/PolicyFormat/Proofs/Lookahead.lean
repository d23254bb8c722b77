import Mathlib.Computability.Language
import Mathlib.Order.CompletePartialOrder
import PolicyFormat.Proofs.Parsing

/-! What a parser has read when it stops, and what it goes by. Where a parser stops it has read the
start of a word of its language, and it has looked no further than the token that it refuses. -/
namespace PolicyFormat.Policy

open scoped Computability

/-- The kinds of tokens. -/
def kindsOf (tokens : List Token) : List TokenKind :=
  tokens.map (·.kind)

@[simp] theorem kindsOf_nil : kindsOf [] = [] := rfl

@[simp] theorem kindsOf_cons (t : Token) (tokens : List Token) :
    kindsOf (t :: tokens) = t.kind :: kindsOf tokens := rfl

@[simp] theorem kindsOf_append (a b : List Token) : kindsOf (a ++ b) = kindsOf a ++ kindsOf b :=
  List.map_append

/-- How the next token is refused, or the end of the text. -/
def refusal : List Token → Ending → Refusal
  | token :: _, _ => .unexpected token
  | [], .unreadable rest line offset => .unreadable rest line offset
  | [], .complete _ _ => .endOfFile

variable {t : Token}

theorem eq_cons_of_refusal {rest : List Token} {ending : Ending} (h : Refusal.unexpected t = refusal rest ending) :
    ∃ more, rest = t :: more := by
  cases rest with
  | nil => cases ending <;> cases h
  | cons head more =>
    cases h
    exact ⟨more, rfl⟩

/-- A token that is not at the back is in front. -/
theorem exists_front {front back before more : List Token} (h : front ++ back = before ++ t :: more)
    (hBack : t ∉ back) : ∃ left, front = before ++ t :: left ∧ more = left ++ back := by
  obtain ⟨own, hFront, hRest⟩ | ⟨own, hBefore, hRest⟩ := List.append_eq_append_iff.1 h
  · exact absurd (hRest ▸ List.mem_append_right own List.mem_cons_self) hBack
  · cases own with
    | nil =>
      rw [List.nil_append] at hRest
      exact absurd (hRest ▸ List.mem_cons_self) hBack
    | cons head own =>
      obtain ⟨rfl, rfl⟩ := List.cons.inj hRest
      exact ⟨own, hBefore, rfl⟩

namespace Parser

variable {α β : Type} {p q : Parser α} {K L : Language TokenKind}

variable {input : Input}

theorem bind_eq_error {f : α → Parser β} {r : Refusal} : (p >>= f) input = .error r ↔
      p input = .error r ∨ ∃ x middle, p input = .ok (x, middle) ∧ f x middle = .error r := by
  change (p input).bind (fun result => f result.1 result.2) = .error r ↔ _
  cases p input with
  | error e => simp [Except.bind]
  | ok result =>
    obtain ⟨x, middle⟩ := result
    simp [Except.bind]

theorem refuse_eq (input : Input) : (refuse : Parser α) input = .error (refusal input.tokens input.ending) := by
  obtain ⟨tokens, ending, endLine, stop⟩ := input
  cases tokens <;> cases ending <;> rfl

/-! ### Reading a language -/

/-- The parser reads words of a language. Where it stops it has read the start of such a word. The
tokens that it neither takes nor refuses, and does not leave next, play no part. -/
structure Reads (p : Parser α) (L : Language TokenKind) : Prop where
  filled : ∃ word, word ∈ L
  taken : ∀ {input x after}, p input = .ok (x, after) →
    ∃ own, input.tokens = own ++ after.tokens ∧ after.ending = input.ending ∧ kindsOf own ∈ L
  stopped : ∀ {input r}, p input = .error r →
    ∃ before rest, input.tokens = before ++ rest ∧ r = refusal rest input.ending ∧ ∃ more, kindsOf before ++ more ∈ L
  kept : ∀ {front back rest endLine stop ending x after}, rest ≠ [] →
    p ⟨front ++ back, ending, endLine, stop⟩ = .ok (x, after) → after.tokens = rest ++ back →
    ∀ back' ending', p ⟨front ++ back', ending', endLine, stop⟩ =
      .ok (x, ⟨rest ++ back', ending', after.endLine, after.stop⟩)
  refused : ∀ {front back endLine stop ending t}, t ∉ back →
    p ⟨front ++ back, ending, endLine, stop⟩ = .error (.unexpected t) →
    ∀ back' ending', p ⟨front ++ back', ending', endLine, stop⟩ = .error (.unexpected t)

namespace Reads

theorem mono (h : Reads p K) (hLe : K ≤ L) : Reads p L where
  filled := h.filled.imp fun _ hWord => hLe hWord
  taken hOk := by
    obtain ⟨own, hTokens, hEnding, hOwn⟩ := h.taken hOk
    exact ⟨own, hTokens, hEnding, hLe hOwn⟩
  stopped hError := by
    obtain ⟨before, rest, hTokens, hr, more, hMore⟩ := h.stopped hError
    exact ⟨before, rest, hTokens, hr, more, hLe hMore⟩
  kept := h.kept
  refused := h.refused

theorem bind [Nonempty α] {f : α → Parser β} (hp : Reads p K) (hf : ∀ x, Reads (f x) L) :
    Reads (p >>= f) (K * L) := by
  obtain ⟨end', hEnd⟩ := (hf (Classical.arbitrary α)).filled
  refine ⟨?_, fun {input y after} h => ?_, fun {input r} h => ?_, ?_, ?_⟩
  · obtain ⟨word, hWord⟩ := hp.filled
    exact ⟨word ++ end', Language.append_mem_mul hWord hEnd⟩
  · obtain ⟨x, middle, hFirst, hSecond⟩ := bind_eq_ok.1 h
    obtain ⟨own, hTokens, hEnding, hOwn⟩ := hp.taken hFirst
    obtain ⟨more, hRest, hLast, hMore⟩ := (hf x).taken hSecond
    refine ⟨own ++ more, ?_, hLast.trans hEnding, ?_⟩
    · rw [hTokens, hRest, List.append_assoc]
    · rw [kindsOf_append]
      exact Language.append_mem_mul hOwn hMore
  · obtain hFirst | ⟨x, middle, hFirst, hSecond⟩ := bind_eq_error.1 h
    · obtain ⟨before, rest, hTokens, he, more, hMore⟩ := hp.stopped hFirst
      refine ⟨before, rest, hTokens, he, more ++ end', ?_⟩
      rw [← List.append_assoc]
      exact Language.append_mem_mul hMore hEnd
    · obtain ⟨own, hTokens, hEnding, hOwn⟩ := hp.taken hFirst
      obtain ⟨before, rest, hRest, hr, more, hMore⟩ := (hf x).stopped hSecond
      refine ⟨own ++ before, rest, ?_, hEnding ▸ hr, more, ?_⟩
      · rw [hTokens, hRest, List.append_assoc]
      · rw [kindsOf_append, List.append_assoc]
        exact Language.append_mem_mul hOwn hMore
  · intro front back rest endLine stop ending y after hRest h hAfter back' ending'
    obtain ⟨x, middle, hFirst, hSecond⟩ := bind_eq_ok.1 h
    obtain ⟨own, hMiddle, -, -⟩ := (hf x).taken hSecond
    rw [hAfter, ← List.append_assoc] at hMiddle
    obtain ⟨tokens, inside, line, offset⟩ := middle
    subst hMiddle
    have hFirst' := hp.kept (by simp [hRest]) hFirst rfl back' ending'
    exact bind_eq_ok.2 ⟨x, _, hFirst', (hf x).kept hRest hSecond hAfter back' ending'⟩
  · intro front back endLine stop ending t hBack h back' ending'
    obtain hFirst | ⟨x, middle, hFirst, hSecond⟩ := bind_eq_error.1 h
    · exact bind_eq_error.2 (.inl (hp.refused hBack hFirst back' ending'))
    · obtain ⟨own, hTokens, -, -⟩ := hp.taken hFirst
      obtain ⟨before, rest, hRest, hr, -⟩ := (hf x).stopped hSecond
      obtain ⟨more, rfl⟩ := eq_cons_of_refusal hr
      rw [hRest, ← List.append_assoc] at hTokens
      obtain ⟨left, -, rfl⟩ := exists_front hTokens hBack
      obtain ⟨tokens, inside, line, offset⟩ := middle
      obtain rfl : tokens = (before ++ t :: left) ++ back := by simpa using hRest
      have hFirst' := hp.kept (by simp) hFirst rfl back' ending'
      exact bind_eq_error.2 (.inr ⟨x, _, hFirst', (hf x).refused hBack hSecond back' ending'⟩)

/-- A parser that takes no token, goes by the next token at most, and stops nowhere else. -/
theorem of_idle (hNext : ∀ t endLine stop,
      (∃ x, ∀ more ending, p ⟨t :: more, ending, endLine, stop⟩ = .ok (x, ⟨t :: more, ending, endLine, stop⟩)) ∨
        ∀ more ending, p ⟨t :: more, ending, endLine, stop⟩ = .error (.unexpected t))
    (hEnd : ∀ ending endLine stop, (∃ x, p ⟨[], ending, endLine, stop⟩ = .ok (x, ⟨[], ending, endLine, stop⟩)) ∨
      p ⟨[], ending, endLine, stop⟩ = .error (refusal [] ending)) : Reads p 1 := by
  have hSame : ∀ input, (∃ x, p input = .ok (x, input)) ∨ p input = .error (refusal input.tokens input.ending) := by
    rintro ⟨_ | ⟨t, more⟩, ending, endLine, stop⟩
    · exact hEnd ending endLine stop
    · exact (hNext t endLine stop).imp (fun ⟨x, hx⟩ => ⟨x, hx more ending⟩) fun h => h more ending
  have hOk : ∀ {input x after}, p input = .ok (x, after) → after = input := by
    intro input x after h
    obtain ⟨y, hy⟩ | hError := hSame input
    · exact (Prod.mk.inj (Except.ok.inj (h.symm.trans hy))).2
    · cases h.symm.trans hError
  have hError : ∀ {input r}, p input = .error r → r = refusal input.tokens input.ending := by
    intro input r h
    obtain ⟨y, hy⟩ | hError := hSame input
    · cases h.symm.trans hy
    · exact Except.error.inj (h.symm.trans hError)
  refine ⟨⟨[], rfl⟩, fun h => ⟨[], by rw [hOk h]; rfl, by rw [hOk h], rfl⟩,
    fun h => ⟨[], _, rfl, hError h, [], rfl⟩, ?_, ?_⟩
  · intro front back rest endLine stop ending x after hRest h hAfter back' ending'
    obtain rfl := hOk h
    obtain rfl : front = rest := List.append_cancel_right hAfter
    cases front with
    | nil => exact absurd rfl hRest
    | cons t front =>
      obtain ⟨y, hy⟩ | hRefused := hNext t endLine stop
      · obtain rfl : x = y := (Prod.mk.inj (Except.ok.inj (h.symm.trans (hy _ _)))).1
        exact hy _ _
      · cases h.symm.trans (hRefused _ _)
  · intro front back endLine stop ending t hBack h back' ending'
    obtain ⟨more, hMore⟩ := eq_cons_of_refusal (hError h)
    cases front with
    | nil =>
      obtain rfl : back = t :: more := hMore
      exact absurd List.mem_cons_self hBack
    | cons u front =>
      obtain ⟨y, hy⟩ | hRefused := hNext u endLine stop
      · cases h.symm.trans (hy _ _)
      · obtain rfl : t = u := by simpa using (h.symm.trans (hRefused _ _))
        exact hRefused _ _

theorem pure (x : α) : Reads (Pure.pure x : Parser α) 1 :=
  of_idle (fun _ _ _ => .inl ⟨x, fun _ _ => rfl⟩) fun _ _ _ => .inl ⟨x, rfl⟩

theorem map [Nonempty α] (f : α → β) (hp : Reads p L) : Reads (do return f (← p)) L :=
  mul_one L ▸ hp.bind fun x => pure (f x)

/-- Refusing the next token is all right wherever something is expected. -/
theorem refuse (hL : ∃ word, word ∈ L) : Reads (Parser.refuse : Parser α) L := by
  refine ⟨hL, fun h => absurd h refuse_ne_ok, fun {input r} h => ?_, fun _ h => absurd h refuse_ne_ok, ?_⟩
  · obtain ⟨word, hWord⟩ := hL
    rw [refuse_eq] at h
    exact ⟨[], input.tokens, rfl, (Except.error.inj h).symm, word, hWord⟩
  · intro front back endLine stop ending t hBack h back' ending'
    rw [refuse_eq] at h
    obtain ⟨more, hTokens⟩ := eq_cons_of_refusal (Except.error.inj h).symm
    obtain ⟨left, rfl, -⟩ := exists_front (show front ++ back = [] ++ t :: more from hTokens) hBack
    exact refuse_eq _

theorem ite {c : Prop} [Decidable c] (hp : c → Reads p L) (hq : ¬ c → Reads q L) : Reads (if c then p else q) L := by
  split
  · exact hp ‹_›
  · exact hq ‹_›

/-- How long a parser may go on does not matter as long as it is enough for the tokens. -/
theorem of_bounds {bounded : Nat → Parser α} (h : ∀ bound, Reads (bounded bound) L)
    (hBound : ∀ input bound, input.tokens.length ≤ bound → p input = bounded bound input) : Reads p L where
  filled := (h 0).filled
  taken {input _ _} hOk := (h _).taken (hBound input _ le_rfl ▸ hOk)
  stopped {input _} hError := (h _).stopped (hBound input _ le_rfl ▸ hError)
  kept {front back rest endLine stop ending x after} hRest hOk hAfter back' ending' := by
    rw [hBound _ ((front ++ back).length + (front ++ back').length) (Nat.le_add_right _ _)] at hOk
    rw [hBound _ ((front ++ back).length + (front ++ back').length) (Nat.le_add_left _ _)]
    exact (h _).kept hRest hOk hAfter back' ending'
  refused {front back endLine stop ending t} hBack hError back' ending' := by
    rw [hBound _ ((front ++ back).length + (front ++ back').length) (Nat.le_add_right _ _)] at hError
    rw [hBound _ ((front ++ back).length + (front ++ back').length) (Nat.le_add_left _ _)]
    exact (h _).refused hBack hError back' ending'

end Reads

/-! ### Tokens -/

instance : Nonempty Start := ⟨⟨0, 0⟩⟩

theorem nextKind?_reads : Reads nextKind? 1 :=
  .of_idle (fun t _ _ => .inl ⟨some t.kind, fun _ _ => rfl⟩) fun _ _ _ => .inl ⟨none, rfl⟩

/-- A choice by the next token. -/
theorem Reads.branch {r : Parser α} {c : Option TokenKind → Prop} [DecidablePred c] (hp : Reads p L) (hq : Reads q L)
    (hChoice : ∀ input, r input = if c (input.tokens.head?.map (·.kind)) then p input else q input) :
    Reads r L := by
  have hNext := nextKind?_reads.bind fun next => Reads.ite (c := c next) (fun _ => hp) fun _ => hq
  rw [one_mul] at hNext
  have hEq : r = nextKind? >>= fun next => if c next then p else q := by
    funext input
    rw [hChoice]
    change _ = (if c (input.tokens.head?.map (·.kind)) then p else q) input
    split <;> rfl
  exact hEq ▸ hNext

theorem spanFrom_reads (start : Start) : Reads (spanFrom start) 1 :=
  .of_idle (fun _ endLine stop => .inl ⟨⟨start.line, endLine, start.offset, stop⟩, fun _ _ => rfl⟩)
    fun _ _ _ => .inl ⟨_, rfl⟩

theorem atNext_reads : Reads atNext 1 :=
  .of_idle (fun _ _ _ => .inl ⟨_, fun _ _ => rfl⟩) fun _ _ _ => .inr (refuse_eq _)

theorem afterNext_reads : Reads afterNext 1 := by
  refine .of_idle (fun _ _ _ => .inl ⟨_, fun _ _ => rfl⟩) fun ending endLine stop => ?_
  cases ending with
  | complete line offset => exact .inl ⟨_, rfl⟩
  | unreadable rest line offset => exact .inr rfl

theorem token_cons (kind : TokenKind) (t : Token) (more : List Token) (ending : Ending) (endLine stop : Int) :
    token kind ⟨t :: more, ending, endLine, stop⟩ =
      if t.kind = kind then .ok (t, ⟨more, ending, t.endLine, t.stop⟩) else .error (.unexpected t) := rfl

theorem token_reads (kind : TokenKind) : Reads (token kind) {[kind]} := by
  refine ⟨⟨[kind], rfl⟩, fun {input x after} h => ?_, fun {input r} h => ?_, ?_, ?_⟩
  · obtain ⟨rest, hTokens, rfl, rfl⟩ := token_eq_ok.1 h
    refine ⟨[x], ?_, rfl, rfl⟩
    rw [hTokens, Input.advance_tokens (show input.tokens = [x] ++ rest from hTokens)]
    rfl
  · refine ⟨[], input.tokens, rfl, ?_, [kind], rfl⟩
    obtain ⟨tokens, ending, endLine, stop⟩ := input
    cases tokens with
    | nil =>
      have hEnd : token kind ⟨[], ending, endLine, stop⟩ = refuse ⟨[], ending, endLine, stop⟩ := rfl
      rw [hEnd, refuse_eq] at h
      exact (Except.error.inj h).symm
    | cons t more =>
      rw [token_cons] at h
      split at h
      · cases h
      · exact (Except.error.inj h).symm
  · intro front back rest endLine stop ending x after hRest h hAfter back' ending'
    cases front with
    | nil =>
      obtain ⟨tail, hTokens, -, rfl⟩ := token_eq_ok.1 h
      rw [Input.advance_tokens (show _ = [x] ++ tail from hTokens)] at hAfter
      have hLength := congrArg List.length hTokens
      simp only [List.nil_append, hAfter, List.length_cons, List.length_append] at hLength
      omega
    | cons t front =>
      rw [List.cons_append, token_cons] at h ⊢
      split at h
      · cases h
        rw [if_pos ‹_›, List.append_cancel_right hAfter]
      · cases h
  · intro front back endLine stop ending t hBack h back' ending'
    cases front with
    | nil =>
      cases back with
      | nil => cases ending <;> cases h
      | cons u back =>
        rw [List.nil_append, token_cons] at h
        split at h
        · cases h
        · cases h
          exact absurd List.mem_cons_self hBack
    | cons u front =>
      rw [List.cons_append, token_cons] at h ⊢
      split at h
      · cases h
      · rw [if_neg ‹_›]
        exact h

theorem leaf_reads (kind : TokenKind) (yields : Option Int) : Reads (leaf kind yields) {[kind]} :=
  (token_reads kind).map fun t : Token => t.leaf yields

theorem group_reads (start : Start) (opening : Option Leaf) (items : List α) (closing : Option Leaf) :
    Reads (group start opening items closing) 1 :=
  (spanFrom_reads start).map fun span => listOf span opening items closing

theorem choose_reads {kind : TokenKind} (hp : Reads p L) (hq : Reads q L) : Reads (choose kind p q) L :=
  one_mul L ▸ nextKind?_reads.bind fun next => Reads.ite (c := next = some kind) (fun _ => hp) fun _ => hq

theorem enclosed_reads {opens closes : TokenKind} {first last : Option Int} {inner : Parser (List α)}
    (hInner : Reads inner L) : Reads (enclosed opens closes first last inner) ({[opens]} * (L * {[closes]})) := by
  have hAll : Reads (enclosed opens closes first last inner) (1 * ({[opens]} * (L * ({[closes]} * 1)))) :=
    atNext_reads.bind fun start => (leaf_reads _ _).bind fun opening => hInner.bind fun items =>
      (leaf_reads _ _).bind fun closing => group_reads start (some opening) items (some closing)
  rwa [one_mul, mul_one] at hAll

/-- The language of a token that may be missing. -/
def maybe (kind : TokenKind) : Language TokenKind :=
  1 + {[kind]}

theorem optional_reads (kind : TokenKind) : Reads (optional kind) (maybe kind) :=
  choose_reads (((leaf_reads kind (some 1)).map some).mono le_add_self) ((Reads.pure none).mono le_self_add)

/-! ### Bounds -/

/-- The parsers do the same with inputs of at most so many tokens. -/
def SameUpTo (length : Nat) (p q : Parser α) : Prop :=
  ∀ input, input.tokens.length ≤ length → p input = q input

namespace SameUpTo

variable {length : Nat} {f g : α → Parser β}

theorem bind (hp : Reads p K) (h : SameUpTo length p q) (hf : ∀ x, SameUpTo length (f x) (g x)) :
    SameUpTo length (p >>= f) (q >>= g) := by
  intro input hLength
  change (p input).bind (fun r => f r.1 r.2) = (q input).bind (fun r => g r.1 r.2)
  rw [← h input hLength]
  cases hFirst : p input with
  | error r => rfl
  | ok result =>
    obtain ⟨own, hTokens, -, -⟩ := hp.taken hFirst
    rw [hTokens, List.length_append] at hLength
    exact hf result.1 result.2 (by omega)

theorem bind_left (hp : Reads p K) (hf : ∀ x, SameUpTo length (f x) (g x)) : SameUpTo length (p >>= f) (p >>= g) :=
  bind hp (fun _ _ => rfl) hf

theorem bind_right (h : SameUpTo length p q) (f : α → Parser β) : SameUpTo length (p >>= f) (q >>= f) := by
  intro input hLength
  change (p input).bind _ = (q input).bind _
  rw [h input hLength]

/-- A parser that takes a token leaves one token less. -/
theorem bind_taking (hp : Reads p K) (hTakes : [] ∉ K) (hf : ∀ x, SameUpTo length (f x) (g x)) :
    SameUpTo (length + 1) (p >>= f) (p >>= g) := by
  intro input hLength
  change (p input).bind (fun r => f r.1 r.2) = (p input).bind (fun r => g r.1 r.2)
  cases hFirst : p input with
  | error r => rfl
  | ok result =>
    obtain ⟨own, hTokens, -, hOwn⟩ := hp.taken hFirst
    have hPositive : 0 < own.length := List.length_pos_iff.2 fun hNil => hTakes (by rwa [hNil] at hOwn)
    rw [hTokens, List.length_append] at hLength
    exact hf result.1 result.2 (by omega)

theorem ite {c : Prop} [Decidable c] {p' q' : Parser α} (h : SameUpTo length p q) (h' : SameUpTo length p' q') :
    SameUpTo length (if c then p else p') (if c then q else q') := by
  split
  · exact h
  · exact h'

/-- How often a parser may go on does not matter if that is enough for the tokens. -/
theorem of_steps {ι : Type} (bounded : ι → Nat → Parser α) (hEnd : ∀ i n m ending endLine stop,
      bounded i n ⟨[], ending, endLine, stop⟩ = bounded i m ⟨[], ending, endLine, stop⟩)
    (hStep : ∀ {length n m}, (∀ i, SameUpTo length (bounded i n) (bounded i m)) →
      ∀ i, SameUpTo (length + 1) (bounded i (n + 1)) (bounded i (m + 1))) {n m : Nat} (hn : length ≤ n)
    (hm : length ≤ m) (i : ι) : SameUpTo length (bounded i n) (bounded i m) := by
  induction length generalizing n m i with
  | zero =>
    rintro ⟨tokens, ending, endLine, stop⟩ hLength
    obtain rfl : tokens = [] := List.length_eq_zero_iff.1 (Nat.le_zero.1 hLength)
    exact hEnd i n m ending endLine stop
  | succ length ih =>
    obtain ⟨n, rfl⟩ := Nat.exists_eq_add_one_of_ne_zero (Nat.ne_of_gt (Nat.lt_of_lt_of_le length.succ_pos hn))
    obtain ⟨m, rfl⟩ := Nat.exists_eq_add_one_of_ne_zero (Nat.ne_of_gt (Nat.lt_of_lt_of_le length.succ_pos hm))
    exact hStep (ih (Nat.le_of_succ_le_succ hn) (Nat.le_of_succ_le_succ hm)) i

end SameUpTo

/-! ### Sequences -/

section

variable {one : Parser α} (hOne : Reads one K)
include hOne

variable {n m : Nat} {input : Input}

theorem many_go_same (starts : TokenKind → Bool) (hTakes : [] ∉ K) {length : Nat} (hn : length ≤ n)
    (hm : length ≤ m) : SameUpTo length (many.go starts one n) (many.go starts one m) := by
  refine SameUpTo.of_steps (fun _ : Unit => many.go starts one)
    (fun _ n m _ _ _ => by cases n <;> cases m <;> rfl) (fun ih _ input hLength => ?_) hn hm ()
  have hMore := SameUpTo.bind_taking hOne hTakes
    (fun first => .bind_right (ih ()) fun rest => Pure.pure (first :: rest)) input hLength
  simp only [many.go]
  split
  · exact hMore
  · rfl

theorem many_reads [Nonempty α] (starts : TokenKind → Bool) (hTakes : [] ∉ K) : Reads (many starts one) (K∗) := by
  have hGo : ∀ bound, Reads (many.go starts one bound) (K∗) := by
    intro bound
    induction bound with
    | zero => exact (Reads.pure []).mono one_le_kstar
    | succ bound ih =>
      have hMore := hOne.bind fun first => ih.bind fun rest => Reads.pure (first :: rest)
      rw [mul_one] at hMore
      exact (hMore.mono mul_kstar_le_kstar).branch (c := (·.any starts = true))
        ((Reads.pure []).mono one_le_kstar) fun _ => rfl
  exact .of_bounds hGo fun input bound hBound => many_go_same hOne starts hTakes le_rfl hBound input le_rfl

theorem afterCommas_go_same (trailing : List Token → Bool) {length : Nat} (hn : length ≤ n) (hm : length ≤ m) :
    SameUpTo length (afterCommas.go one trailing n) (afterCommas.go one trailing m) := by
  refine SameUpTo.of_steps (fun _ : Unit => afterCommas.go one trailing)
    (fun _ n m _ _ _ => by cases n <;> cases m <;> rfl) (fun ih _ input hLength => ?_) hn hm ()
  have hMore := SameUpTo.bind_taking (token_reads .comma) nofun
    (fun _ => .bind_left hOne fun next => .bind_right (ih ()) fun rest => Pure.pure (next :: rest)) input hLength
  simp only [afterCommas.go]
  split
  · exact hMore
  · rfl

theorem afterCommas_reads [Nonempty α] : Reads (afterCommas one fun _ => false) (({[.comma]} * K)∗) := by
  have hGo : ∀ bound, Reads (afterCommas.go one (fun _ => false) bound) (({[.comma]} * K)∗) := by
    intro bound
    induction bound with
    | zero => exact (Reads.pure []).mono one_le_kstar
    | succ bound ih =>
      have hMore := (token_reads .comma).bind fun _ => hOne.bind fun next =>
        ih.bind fun rest => Reads.pure (next :: rest)
      rw [mul_one, ← mul_assoc] at hMore
      refine (hMore.mono mul_kstar_le_kstar).branch (c := (· = some .comma))
        ((Reads.pure []).mono one_le_kstar) fun input => ?_
      simp only [afterCommas.go, Bool.not_false, Bool.and_true, decide_eq_true_eq]
      rfl
  exact .of_bounds hGo fun input bound hBound => afterCommas_go_same hOne _ le_rfl hBound input le_rfl

/-- The language of elements with commas between them, of which the first may be missing. -/
def separated (K : Language TokenKind) : Language TokenKind :=
  (1 + K) * ({[.comma]} * K)∗

theorem parenthesised_reads [Nonempty α] (starts : TokenKind → Bool) :
    Reads (parenthesised starts one) ({[.openParen]} * (separated K * {[.closeParen]})) := by
  have hLater := afterCommas_reads hOne
  have hFirst := hOne.bind fun first => hLater.bind fun rest => Reads.pure (first :: rest)
  rw [mul_one] at hFirst
  have hItems : Reads (commaSeparated starts one fun _ => false) (1 * separated K) :=
    nextKind?_reads.bind fun next => .ite (fun _ => hFirst.mono (mul_le_mul_left le_add_self _))
      (fun _ => hLater.mono ((one_mul _).symm.trans_le (mul_le_mul_left le_self_add _)))
  rw [one_mul] at hItems
  exact enclosed_reads hItems

end

/-! ### Trailing commas -/

variable {one : Parser α}

/-- Reads a comma, and the elements after it unless a brace closes the list. -/
def afterComma (one : Parser α) (later : Parser (List α)) : Parser (List α) := do
  let _ ← token .comma
  if (← nextKind?) = some .closeBrace then return []
  else
    let next ← one
    return next :: (← later)

/-- A parser is followed by a comma as another is that does the same with the input. -/
theorem trailed_congr (h : p input = q input) : trailed p input = trailed q input := by
  simp only [trailed, bind, StateT.bind, h]

theorem endsList_cons (t : Token) (more : List Token) :
    endsList (t :: more) = true ↔ more.head?.map (·.kind) = some .closeBrace := by
  cases more <;> simp [endsList]

theorem trailed_go (one : Parser α) (bound : Nat) (input : Input) :
    trailed (afterCommas.go one endsList (bound + 1)) input = if input.tokens.head?.map (·.kind) = some .comma then
        afterComma one (trailed (afterCommas.go one endsList bound)) input
      else (pure [] : Parser (List α)) input := by
  obtain ⟨tokens, ending, endLine, stop⟩ := input
  match tokens with
  | [] => rfl
  | t :: more =>
    by_cases hComma : t.kind = .comma
    · rw [if_pos (by simp [hComma])]
      have hToken : token .comma ⟨t :: more, ending, endLine, stop⟩ = .ok (t, ⟨more, ending, t.endLine, t.stop⟩) := by
        rw [token_cons, if_pos hComma]
      by_cases hEnds : more.head?.map (·.kind) = some .closeBrace
      · have hGo : afterCommas.go one endsList (bound + 1) ⟨t :: more, ending, endLine, stop⟩ =
            (pure [] : Parser (List α)) ⟨t :: more, ending, endLine, stop⟩ := by
          simp [afterCommas.go, (endsList_cons t more).2 hEnds]
          rfl
        rw [trailed_congr hGo]
        simp [trailed, optional, leaf, afterComma, nextKind?, bind, StateT.bind, Except.bind, pure_apply, hComma,
          hToken, hEnds]
      · have hGo : afterCommas.go one endsList (bound + 1) ⟨t :: more, ending, endLine, stop⟩ = (do
              let _ ← token .comma
              let next ← one
              let rest ← (afterCommas.go one endsList bound : Parser (List α))
              pure (next :: rest) : Parser (List α)) ⟨t :: more, ending, endLine, stop⟩ := by
          have hMore : endsList (t :: more) = false := by
            rw [← Bool.not_eq_true, endsList_cons]
            exact hEnds
          simp [afterCommas.go, hComma, hMore]
          rfl
        rw [trailed_congr hGo]
        simp only [trailed, afterComma, bind_assoc, pure_bind]
        simp [nextKind?, bind, StateT.bind, Except.bind, hToken, hEnds]
    · rw [if_neg (by simp [hComma])]
      have hGo : afterCommas.go one endsList (bound + 1) ⟨t :: more, ending, endLine, stop⟩ =
          (pure [] : Parser (List α)) ⟨t :: more, ending, endLine, stop⟩ := by
        simp [afterCommas.go, hComma]
        rfl
      rw [trailed_congr hGo]
      simp [trailed, optional, nextKind?, bind, StateT.bind, Except.bind, pure_apply, hComma]

theorem afterComma_reads [Nonempty α] {later : Parser (List α)} {M : Language TokenKind} (hOne : Reads one K)
    (hLater : Reads later M) : Reads (afterComma one later) ({[.comma]} * (1 + K * M)) := by
  have hMore := hOne.bind fun next => hLater.bind fun rest => Reads.pure (next :: rest)
  rw [mul_one] at hMore
  have hNext := (token_reads .comma).bind fun _ => nextKind?_reads.bind fun next =>
    Reads.ite (c := next = some .closeBrace) (fun _ => (Reads.pure []).mono le_self_add)
      fun _ => hMore.mono (le_add_self (a := K * M) (b := 1))
  rwa [one_mul] at hNext

theorem afterCommas_trailed_reads [Nonempty α] (hOne : Reads one K) :
    Reads (trailed (afterCommas one endsList)) (({[.comma]} * K)∗ * maybe .comma) := by
  have hGo : ∀ bound, Reads (trailed (afterCommas.go one endsList bound)) (({[.comma]} * K)∗ * maybe .comma) := by
    intro bound
    induction bound with
    | zero =>
      have hNone := (Reads.pure []).bind fun items : List α => (optional_reads .comma).bind fun _ => Reads.pure items
      rw [mul_one] at hNone
      exact hNone.mono (mul_le_mul_left one_le_kstar _)
    | succ bound ih =>
      refine ((afterComma_reads hOne ih).mono ?_).branch (c := (· = some .comma)) ?_ (trailed_go one bound)
      · rw [mul_add, mul_one, ← mul_assoc, ← mul_assoc]
        refine add_le ?_ (mul_le_mul_left mul_kstar_le_kstar _)
        exact (one_mul _).symm.trans_le (mul_le_mul' one_le_kstar le_add_self)
      · exact (Reads.pure []).mono ((one_mul _).symm.trans_le (mul_le_mul' one_le_kstar le_self_add))
  exact .of_bounds hGo fun input bound hBound =>
    trailed_congr (afterCommas_go_same hOne _ le_rfl hBound input le_rfl)

theorem commaSeparated_trailed_reads [Nonempty α] (hOne : Reads one K) (starts : TokenKind → Bool) :
    Reads (trailed (commaSeparated starts one endsList)) (separated K * maybe .comma) := by
  have hLater := afterCommas_trailed_reads hOne
  have hFirst := hOne.bind fun first => hLater.bind fun rest => Reads.pure (first :: rest)
  rw [mul_one] at hFirst
  have hEq : trailed (commaSeparated starts one endsList) = nextKind? >>= fun next =>
      if next.any starts then one >>= fun first => trailed (afterCommas one endsList) >>= fun rest =>
        pure (first :: rest)
      else trailed (afterCommas one endsList) := by
    simp only [trailed, commaSeparated, bind_assoc]
    congr 1
    funext next
    split <;> simp
  have hNext : Reads (trailed (commaSeparated starts one endsList)) (1 * (separated K * maybe .comma)) := by
    rw [hEq, separated, mul_assoc]
    exact nextKind?_reads.bind fun next => .ite (fun _ => hFirst.mono (mul_le_mul_left le_add_self _))
      (fun _ => hLater.mono ((one_mul _).symm.trans_le (mul_le_mul_left le_self_add _)))
  rwa [one_mul] at hNext

namespace SameUpTo

variable {length : Nat}

theorem afterCommas (hp : Reads p K) (h : SameUpTo length p q) :
    SameUpTo length (afterCommas p fun _ => false) (afterCommas q fun _ => false) := by
  have hGo : ∀ bound, SameUpTo length (afterCommas.go p (fun _ => false) bound)
      (afterCommas.go q (fun _ => false) bound) := by
    intro bound
    induction bound with
    | zero => exact fun _ _ => rfl
    | succ bound ih =>
      have hMore := bind_left (token_reads .comma) fun _ => bind hp h fun next =>
        bind_right ih fun rest => Pure.pure (next :: rest)
      intro input hLength
      have hNext := hMore input hLength
      simp only [afterCommas.go]
      split
      · exact hNext
      · rfl
  exact fun input hLength => hGo _ input hLength

theorem parenthesised (starts : TokenKind → Bool) (hp : Reads p K) (h : SameUpTo length p q) :
    SameUpTo length (parenthesised starts p) (parenthesised starts q) := by
  have hLater := afterCommas hp h
  have hItems : SameUpTo length (commaSeparated starts p fun _ => false) (commaSeparated starts q fun _ => false) :=
    bind_left nextKind?_reads fun next => ite
      (bind hp h fun first => bind_right hLater fun rest => Pure.pure (first :: rest)) hLater
  exact bind_left atNext_reads fun start => bind_left (leaf_reads _ _) fun opening => bind_right hItems _

end SameUpTo

theorem element_nil (depth : Nat) (yields : Option Int) (ending : Ending) (endLine stop : Int) :
    element depth yields ⟨[], ending, endLine, stop⟩ = .error (refusal [] ending) := by
  cases depth <;> cases ending <;> rfl

end Parser

end PolicyFormat.Policy
