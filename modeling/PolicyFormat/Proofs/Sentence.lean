import PolicyFormat.Proofs.Meaning
import PolicyFormat.Proofs.Parsing
import PolicyFormat.Proofs.Rescan

/-! How policies are written down. A code is a sequence of words and line breaks. The relations say
which codes a policy has, with as many line breaks as one likes, except that those between marked
entries of a list have to agree with the marks. From the tokens of a code its policy is read
again. -/
namespace PolicyFormat.Abstract

open Policy Policy.Lexeme Layout

/-- Words and line breaks. -/
abbrev Code := List (Option String)

namespace Code

/-- A number of line breaks. -/
def breaks (count : Nat) : Code :=
  List.replicate count none

@[simp] theorem breaks_zero : breaks 0 = [] := rfl

theorem breaks_add (m n : Nat) : breaks (m + n) = breaks m ++ breaks n :=
  List.replicate_add m n none

/-- The line that a code ends on. -/
def lineAfter (line : Int) : Code → Int
  | [] => line
  | none :: rest => lineAfter (line + 1) rest
  | some text :: rest => lineAfter (line + lineFeeds text) rest

/-- The kinds, texts and lines of the words of a code that starts on the given line. -/
def tokens (line : Int) : Code → List (TokenKind × String × Int)
  | [] => []
  | none :: rest => tokens (line + 1) rest
  | some text :: rest => (kindOf text, text, line) :: tokens (line + lineFeeds text) rest

@[simp] theorem lineAfter_append (line : Int) (a b : Code) :
    lineAfter line (a ++ b) = lineAfter (lineAfter line a) b := by
  induction a generalizing line with
  | nil => rfl
  | cons s a ih => cases s <;> exact ih _

@[simp] theorem tokens_append (line : Int) (a b : Code) :
    tokens line (a ++ b) = tokens line a ++ tokens (lineAfter line a) b := by
  induction a generalizing line with
  | nil => rfl
  | cons s a ih => cases s <;> simp [tokens, lineAfter, ih]

@[simp] theorem lineAfter_breaks (line : Int) (count : Nat) : lineAfter line (breaks count) = line + count := by
  induction count generalizing line with
  | zero => simp [breaks, lineAfter]
  | succ count ih =>
    have hStep : breaks (count + 1) = none :: breaks count := rfl
    rw [hStep, lineAfter, ih]
    omega

@[simp] theorem tokens_breaks (line : Int) (count : Nat) : tokens line (breaks count) = [] := by
  induction count generalizing line with
  | zero => rfl
  | succ count ih => exact ih (line + 1)

/-- The code starts and ends with a word. -/
def Tight (code : Code) : Prop :=
  (∃ text, code.head? = some (some text)) ∧ ∃ text, code.getLast? = some (some text)

theorem tight_word (text : String) : Tight [some text] :=
  ⟨⟨text, rfl⟩, text, rfl⟩

theorem tight_between (first last : String) (inner : Code) : Tight (some first :: (inner ++ [some last])) := by
  refine ⟨⟨first, rfl⟩, last, ?_⟩
  rw [← List.cons_append, List.getLast?_concat]

theorem Tight.cons (first : String) (inner : Code) {code : Code} (h : Tight code) :
    Tight (some first :: (inner ++ code)) := by
  obtain ⟨-, last, hLast⟩ := h
  refine ⟨⟨first, rfl⟩, last, ?_⟩
  rw [← List.cons_append, List.getLast?_append, hLast, Option.some_or]

end Code

/-! ### Sequences -/

section

variable {μ α : Type} (separator : Code) (gap : μ → Nat → Prop) (R : α → Code → Prop)

/-- Entries that follow others, with line breaks that agree with their marks. -/
inductive Rest : List (μ × α) → Code → Prop where
  | nil : Rest [] []
  | cons {mark : μ} {x : α} {xs : List (μ × α)} {count : Nat} {own more : Code}
      (hGap : gap mark count) (hOwn : R x own) (hMore : Rest xs more) :
      Rest ((mark, x) :: xs) (separator ++ Code.breaks count ++ own ++ more)

/-- The entries of a list, the first with the given mark and after any number of line breaks. -/
inductive Run (first : μ) : List (μ × α) → Code → Prop where
  | nil : Run first [] []
  | cons {x : α} {xs : List (μ × α)} {count : Nat} {own more : Code} (hOwn : R x own)
      (hMore : Rest separator gap R xs more) :
      Run first ((first, x) :: xs) (Code.breaks count ++ own ++ more)

end

/-- Any number of line breaks will do. -/
def anyGap (_ : Unit) (_ : Nat) : Prop := True

/-- One entry after the other. -/
abbrev Lines {α : Type} (R : α → Code → Prop) (xs : List α) : Code → Prop :=
  Run [] anyGap R () (unmarked xs)

/-- Entries with commas between them. -/
abbrev Listed {α : Type} (R : α → Code → Prop) (xs : List α) : Code → Prop :=
  Run [some ","] anyGap R () (unmarked xs)

/-! ### Policies -/

/-- A word of the given kinds. -/
inductive Word (kinds : TokenKind → Prop) : String → Code → Prop where
  | mk {text : String} (h : kinds (kindOf text)) : Word kinds text [some text]

/-- A term is written in the code. -/
inductive Term.Coded : Term → Code → Prop where
  | word {text : String} (h : Parser.startsElement (kindOf text) = true) : Coded (.word text) [some text]
  | call {name : String} {arguments : List Term} {inner : Code} (hName : Parser.startsCall (kindOf name) = true)
      (h : Run [some ","] anyGap Coded () (unmarked arguments) inner) :
      Coded (.call name arguments) (some name :: some "(" :: (inner ++ [some ")"]))

variable {μ : Type} (first : μ) (gap : μ → Nat → Prop)

/-- A value is written in the code. If a list has elements, a comma may stand after the last one. -/
inductive Value.Coded : Value μ → Code → Prop where
  | single {term : Term} {code : Code} (h : term.Coded code) : Coded (.single term) code
  | list {terms : List (μ × Term)} {inner comma : Code} {before after : Nat}
      (h : Run [some ","] gap Term.Coded first terms inner)
      (hComma : comma = [] ∨ comma = [some ","] ∧ terms ≠ []) :
      Coded (.list terms)
        (some "\x7b" :: (Code.breaks before ++ inner ++ comma ++ Code.breaks after ++ [some "\x7d"]))

inductive Attribute.Coded : Attribute μ → Code → Prop where
  | mk {a : Attribute μ} {right : Code} {count : Nat} (hName : kindOf a.name = .ident)
      (hValue : a.value.Coded first gap right) :
      Coded a (some a.name :: some "=>" :: (Code.breaks count ++ right))

/-- A promisee that may be missing is written in the code. -/
inductive PromiseeCoded : Option (Value μ) → Code → Prop where
  | none : PromiseeCoded none []
  | some {value : Value μ} {right : Code} {count : Nat} (hValue : value.Coded first gap right) :
      PromiseeCoded (some value) (Code.breaks count ++ some "->" :: right)

inductive Promise.Coded : Promise μ → Code → Prop where
  | mk {p : Promise μ} {right body : Code} (hPromiser : kindOf p.promiser = .quoted)
      (hPromisee : PromiseeCoded first gap p.promisee right)
      (hBody : Listed (Attribute.Coded first gap) p.attributes body) :
      Coded p (some p.promiser :: (right ++ body ++ [some ";"]))

inductive Clause.Coded : Clause μ → Code → Prop where
  | guard {expression : String} (h : kindOf expression = .guard) : Coded (.guard expression) [some expression]
  | promise {p : Promise μ} {code : Code} (h : p.Coded first gap code) : Coded (.promise p) code

inductive PromiseType.Coded : PromiseType μ → Code → Prop where
  | mk {p : PromiseType μ} {body : Code} {count : Nat} (hName : kindOf p.name = .promiseType)
      (hBody : Run [] gap (Clause.Coded first gap) first p.clauses body) :
      Coded p (some p.name :: (body ++ Code.breaks count))

inductive Selection.Coded : Selection μ → Code → Prop where
  | guard {expression : String} (h : kindOf expression = .guard) : Coded (.guard expression) [some expression]
  | assignment {a : Attribute μ} {code : Code} (h : a.Coded first gap code) :
      Coded (.assignment a) (code ++ [some ";"])

inductive Contents.Coded : Contents μ → Code → Prop where
  | bundle {promiseTypes : List (PromiseType μ)} {inner : Code} {count : Nat}
      (h : Lines (PromiseType.Coded first gap) promiseTypes inner) :
      Coded (.bundle promiseTypes) (some "\x7b" :: (inner ++ Code.breaks count ++ [some "\x7d"]))
  | body {selections : List (μ × Selection μ)} {inner : Code} {count : Nat}
      (hNonempty : selections ≠ []) (h : Run [] gap (Selection.Coded first gap) first selections inner) :
      Coded (.body selections) (some "\x7b" :: (inner ++ Code.breaks count ++ [some "\x7d"]))

/-- The word that a block with the given contents starts with. -/
def Contents.keyword : Contents μ → String
  | bundle _ => "bundle"
  | body _ => "body"

/-- The parameters of a block are written in the code. -/
inductive ParametersCoded : List String → Code → Prop where
  | none : ParametersCoded [] []
  | some {names : List String} {inner : Code} (h : Listed (Word (· = .ident)) names inner) :
      ParametersCoded names (some "(" :: (inner ++ [some ")"]))

inductive Block.Coded : Block μ → Code → Prop where
  | mk {b : Block μ} {brackets inner : Code} {count : Nat} (hType : kindOf b.type = .ident)
      (hName : kindOf b.name = .ident) (hParameters : ParametersCoded b.parameters brackets)
      (hContents : b.contents.Coded first gap inner) :
      Coded b (some b.contents.keyword :: some b.type :: some b.name :: (brackets ++ Code.breaks count ++ inner))

/-- A policy file is written in the code. -/
inductive Document.Coded : Document μ → Code → Prop where
  | mk {blocks : Document μ} {inner : Code} {count : Nat}
      (h : Lines (Block.Coded first gap) blocks inner) : Coded blocks (inner ++ Code.breaks count)

/-! ### Reading a sequence again -/

variable {line : Int} {code : Code} {tokens : List Token}

/-- The tokens have the texts and lines of the words of the code. -/
def Tells (line : Int) (code : Code) (tokens : List Token) : Prop :=
  tokens.map keyOf = code.tokens line

namespace Tells

theorem append {a b : Code} (h : Tells line (a ++ b) tokens) :
    ∃ left right, tokens = left ++ right ∧ Tells line a left ∧ Tells (a.lineAfter line) b right := by
  rw [Tells, Code.tokens_append, List.map_eq_append_iff] at h
  obtain ⟨left, right, rfl, hLeft, hRight⟩ := h
  exact ⟨left, right, rfl, hLeft, hRight⟩

variable {rest : Code}

theorem word {text : String} (h : Tells line (some text :: rest) tokens) :
    ∃ t more, tokens = t :: more ∧ t.kind = kindOf text ∧ t.text = text ∧ t.line = line ∧
      Tells (line + lineFeeds text) rest more := by
  rw [Tells, Code.tokens, List.map_eq_cons_iff] at h
  obtain ⟨t, more, rfl, hKey, hMore⟩ := h
  simp only [keyOf, Prod.mk.injEq] at hKey
  exact ⟨t, more, rfl, hKey.1, hKey.2.1, hKey.2.2, hMore⟩

theorem nil (h : Tells line [] tokens) : tokens = [] := by
  simpa [Tells, Code.tokens] using h

theorem lastWord {text : String} (h : Tells line [some text] tokens) :
    ∃ t, tokens = [t] ∧ t.kind = kindOf text ∧ t.text = text ∧ t.line = line := by
  obtain ⟨t, more, rfl, hKind, hText, hLine, hMore⟩ := h.word
  exact ⟨t, by rw [hMore.nil], hKind, hText, hLine⟩

variable {n : Nat}

theorem breaks (h : Tells line (Code.breaks n ++ rest) tokens) : Tells (line + n) rest tokens := by
  simpa [Tells] using h

/-- A code before a closing word. -/
theorem closed {text : String} (h : Tells line (code ++ (Code.breaks n ++ [some text])) tokens) :
    ∃ inner closing, tokens = inner ++ [closing] ∧ Tells line code inner ∧ closing.kind = kindOf text := by
  obtain ⟨inner, rest, rfl, hInner, hRest⟩ := h.append
  obtain ⟨closing, rfl, hKind, -⟩ := hRest.breaks.lastWord
  exact ⟨inner, closing, rfl, hInner, hKind⟩

theorem onlyBreaks (h : Tells line (Code.breaks n) tokens) : tokens = [] := by
  rw [← List.append_nil (Code.breaks n)] at h
  exact h.breaks.nil

/-- Tokens that start and end with words of their code cover its lines. -/
theorem span (h : Tells line code tokens) (hTight : code.Tight) :
    (spanOf tokens).startLine = line ∧ (spanOf tokens).endLine = code.lineAfter line := by
  obtain ⟨⟨first, hFirst⟩, last, hLast⟩ := hTight
  obtain ⟨rest, rfl⟩ := List.head?_eq_some_iff.1 hFirst
  obtain ⟨t, more, hTokens, -, -, hLine, -⟩ := h.word
  obtain ⟨init, hInit⟩ := List.getLast?_eq_some_iff.1 hLast
  rw [hInit] at h ⊢
  obtain ⟨left, right, hSplit, -, hRight⟩ := h.append
  obtain ⟨u, rfl, -, hText, hEnd⟩ := hRight.lastWord
  have hHead : tokens.head? = some t := by simp [hTokens]
  have hTail : tokens.getLast? = some u := by simp [hSplit]
  refine ⟨by simp [spanOf, hHead, hTail, hLine], ?_⟩
  simp [spanOf, hHead, hTail, Token.endLine, hEnd, hText, Code.lineAfter]

end Tells

/-- The view tells the marks of entries from the line breaks before them. -/
def View.Reads (v : View μ) (gap : μ → Nat → Prop) : Prop :=
  ∀ (mark : μ) (count : Nat) (previous traits : Traits), gap mark count →
    traits.span.startLine = previous.span.endLine + count → v.next previous traits = mark

section

variable {α β : Type} {D : α → List Token → Prop} {R : β → Code → Prop} {meaning : α → β}
  {traits : α → Traits} {v : View μ} {gap : μ → Nat → Prop}

/-- From the tokens of a code something is read again with the same meaning, and it covers the
lines of the code. -/
def ReadsBack (D : α → List Token → Prop) (R : β → Code → Prop) (meaning : α → β)
    (traits : α → Traits) (y : β) : Prop :=
  ∀ line code tokens, R y code → Tells line code tokens →
    ∃ x, D x tokens ∧ meaning x = y ∧ (traits x).span.startLine = line ∧ (traits x).span.endLine = code.lineAfter line

section

variable {separator : Code} {T S : List α → List Token → Prop} {ys : List (μ × β)} (hView : v.Reads gap)
  (hLine : ∀ line, separator.lineAfter line = line) (hNil : T [] [])
  (hCons : ∀ {line comma x xs own more}, Tells line separator comma → D x own → T xs more →
    T (x :: xs) (comma ++ own ++ more))
include hView hLine hNil hCons

/-- Entries that follow others are read again, if what separates them is read in between. -/
theorem Rest.reads (h : Rest separator gap R ys code) (hEach : ∀ y ∈ ys, ReadsBack D R meaning traits y.2)
    (hTells : Tells line code tokens) {previous : Traits} (hPrevious : previous.span.endLine = line) :
    ∃ xs, T xs tokens ∧ v.after traits meaning previous xs = ys := by
  induction h generalizing line tokens previous with
  | nil =>
    obtain rfl := hTells.nil
    exact ⟨[], hNil, rfl⟩
  | @cons mark y ys count own more hGap hOwn hMore ih =>
    simp only [List.append_assoc] at hTells
    obtain ⟨comma, rest, rfl, hComma, hTells⟩ := hTells.append
    obtain ⟨left, right, rfl, hLeft, hRight⟩ := hTells.breaks.append
    obtain ⟨x, hx, rfl, hStart, hEnd⟩ := hEach (mark, y) (by simp) _ _ _ hOwn hLeft
    obtain ⟨xs, hxs, rfl⟩ := ih (fun y hy => hEach y (by simp [hy])) hRight hEnd
    refine ⟨x :: xs, by simpa using hCons hComma hx hxs, ?_⟩
    have hMark : v.next previous (traits x) = mark := by
      apply hView mark count previous (traits x) hGap
      rw [hStart, hPrevious, hLine]
    simp [View.after, hMark]

/-- The entries of a list are read again. -/
theorem Run.reads (hNone : S [] []) (hFirst : ∀ {x xs own more}, D x own → T xs more → S (x :: xs) (own ++ more))
    (h : Run separator gap R v.first ys code) (hEach : ∀ y ∈ ys, ReadsBack D R meaning traits y.2)
    (hTells : Tells line code tokens) : ∃ xs, S xs tokens ∧ v.along traits meaning xs = ys := by
  cases h with
  | nil =>
    obtain rfl := hTells.nil
    exact ⟨[], hNone, rfl⟩
  | @cons y ys count own more hOwn hMore =>
    rw [List.append_assoc] at hTells
    obtain ⟨left, right, rfl, hLeft, hRight⟩ := hTells.breaks.append
    obtain ⟨x, hx, rfl, -, hEnd⟩ := hEach (v.first, y) (by simp) _ _ _ hOwn hLeft
    obtain ⟨xs, hxs, rfl⟩ :=
      hMore.reads hView hLine hNil hCons (fun y hy => hEach y (by simp [hy])) hRight hEnd
    exact ⟨x :: xs, hFirst hx hxs, rfl⟩

omit hView hLine hNil hCons

theorem Run.readsSeparated (hView : v.Reads gap) (h : Run [some ","] gap R v.first ys code)
    (hEach : ∀ y ∈ ys, ReadsBack D R meaning traits y.2) (hTells : Tells line code tokens) :
    ∃ xs, Separated D xs tokens ∧ v.along traits meaning xs = ys := by
  refine h.reads (T := AfterCommas D) hView (fun _ => ?_) .nil (fun hComma hx hxs => ?_) (.later .nil) .first hEach
    hTells
  · simp [Code.lineAfter, lineFeeds]
  · obtain ⟨comma, rfl, hKind, -⟩ := hComma.lastWord
    exact .cons hKind hx hxs

theorem Run.readsMany (hView : v.Reads gap) (h : Run [] gap R v.first ys code)
    (hEach : ∀ y ∈ ys, ReadsBack D R meaning traits y.2) (hTells : Tells line code tokens) :
    ∃ xs, Many D xs tokens ∧ v.along traits meaning xs = ys := by
  refine h.reads (T := Many D) hView (fun _ => rfl) .nil (fun hComma hx hxs => ?_) .nil
    (fun hx hxs => .cons hx hxs) hEach hTells
  obtain rfl := hComma.nil
  exact .cons hx hxs

end

end

theorem blind_reads : blind.Reads anyGap := by
  intro _ _ _ _ _ _
  rfl

/-! ### Reading a policy again -/

variable {y : Attribute μ} {ys : List (Attribute μ)} {next : Option Token} {α β : Type}
  {D : Option Token → α → List Token → Prop} {R : β → Code → Prop} {meaning : α → β}

theorem Term.Coded.tight {t : Term} (h : t.Coded code) : code.Tight := by
  cases h with
  | word h => exact Code.tight_word _
  | call hName h => exact Code.tight_between _ _ (some "(" :: _)

/-- Terms are read again one by one from the tokens of a list. -/
theorem Term.readsBack (yields : Option Int) (t : Term) :
    ReadsBack (Element.Derived yields) Term.Coded Element.term Element.traits t := by
  induction t using Term.induction generalizing yields with
  | word text =>
    intro line code tokens hCoded hTells
    have hSpan := hTells.span hCoded.tight
    cases hCoded with
    | word h =>
      obtain ⟨t, rfl, hKind, rfl, -⟩ := hTells.lastWord
      have hDerived : Element.Derived yields (.leaf (t.leaf yields)) [t] := .word (hKind ▸ h)
      exact ⟨_, hDerived, rfl, by rwa [hDerived.span]⟩
  | call name arguments ih =>
    intro line code tokens hCoded hTells
    have hSpan := hTells.span hCoded.tight
    cases hCoded with
    | call hName h =>
      obtain ⟨n, rest, rfl, hKind, rfl, -, hTells⟩ := hTells.word
      obtain ⟨opening, rest, rfl, hOpening, -, -, hTells⟩ := hTells.word
      obtain ⟨inner, closing, rfl, hInner, hClosing⟩ := Tells.closed (n := 0) hTells
      have hEach : ∀ y ∈ unmarked arguments,
          ReadsBack (Element.Derived (some 0)) Term.Coded Element.term Element.traits y.2 := by
        simpa [unmarked] using fun t ht => ih t ht (some 0)
      obtain ⟨items, hItems, hMeaning⟩ := h.readsSeparated blind_reads hEach hInner
      have hTerms : items.map Element.term = arguments := by
        rw [View.along_blind] at hMeaning
        exact unmarked_inj hMeaning
      have hDerived : Element.Derived yields _ (n :: opening :: (inner ++ [closing])) :=
        .call (hKind ▸ hName) (.mk hOpening hItems hClosing)
      refine ⟨_, hDerived, ?_, by rwa [hDerived.span]⟩
      simp [Token.leaf, hTerms]

variable {v : View μ} {gap : μ → Nat → Prop}

theorem Value.Coded.tight {y : Value μ} (h : y.Coded v.first gap code) : code.Tight := by
  cases h with
  | single h => exact h.tight
  | list h hComma => exact Code.tight_between _ _ _

theorem Attribute.Coded.tight (h : y.Coded v.first gap code) : code.Tight := by
  cases h with
  | mk hName hValue => exact hValue.tight.cons _ (some "=>" :: _)

/-- A value is read again from the tokens of its code. -/
theorem Value.readsBack (hView : v.Reads gap) (y : Value μ) :
    ReadsBack Value.Derived (Value.Coded v.first gap) (Value.meaning v) Value.traits y := by
  intro line code tokens hCoded hTells
  have hSpan := hTells.span hCoded.tight
  cases hCoded with
  | @single term _ h =>
    obtain ⟨e, hDerived, rfl, hLines⟩ := term.readsBack (some 1) _ _ _ h hTells
    exact ⟨.single e, .single hDerived, rfl, hLines⟩
  | @list terms inner comma before after h hComma =>
    let keep := Element.withTraits (fun t => { t with keepsBlank := true })
    have hEach : ∀ y ∈ terms, ReadsBack (Element.Derived (some 0)) Term.Coded
        (fun e => (keep e).term) (fun e => (keep e).traits) y.2 := by
      intro y _ line code tokens hCoded hTells
      obtain ⟨e, hDerived, hTerm, hLines⟩ := y.2.readsBack (some 0) _ _ _ hCoded hTells
      refine ⟨e, hDerived, by simpa [keep] using hTerm, ?_⟩
      simpa [keep, Element.traits_withTraits] using hLines
    obtain ⟨opening, rest, rfl, hOpening, -, -, hTells⟩ := hTells.word
    simp only [List.append_assoc] at hTells
    obtain ⟨left, right, rfl, hLeft, hRight⟩ := hTells.breaks.append
    obtain ⟨extra, closing, rfl, hExtra, hClosing⟩ := hRight.closed
    obtain ⟨items, hItems, hMeaning⟩ := h.readsSeparated hView hEach hLeft
    have hOptional : ∃ l, Optionally .comma l extra := by
      rcases hComma with rfl | ⟨rfl, -⟩
      · obtain rfl := hExtra.nil
        exact ⟨none, .none⟩
      · obtain ⟨t, rfl, hKind, -⟩ := hExtra.lastWord
        exact ⟨some t.leaf, .some hKind⟩
    obtain ⟨l, hOptional⟩ := hOptional
    have hDerived := BracedDerived.mk hOpening hItems hOptional hClosing
    simp only [List.cons_append, List.append_assoc] at hDerived
    refine ⟨.list _, .list hDerived, ?_, ?_⟩
    · simp only [Value.meaning, items_listOf, View.along_map]
      rw [← hMeaning]
    · simpa [Value.traits, listOf] using hSpan

/-- An attribute is read again from the tokens of its code, with a comma after it or without. -/
theorem Attribute.reads (hView : v.Reads gap) {extra : List Token} {comma : Option Leaf}
    (hCoded : y.Coded v.first gap code) (hTells : Tells line code tokens) (hComma : Optionally .comma comma extra)
    (keepsBlank : Bool) :
    ∃ x, Assignment.Derived keepsBlank x (tokens ++ extra) ∧ x.meaning v = y ∧
      x.traits.span = spanOf (tokens ++ extra) := by
  obtain ⟨hName, hValue⟩ := hCoded
  obtain ⟨name, rest, rfl, hKind, hText, -, hTells⟩ := hTells.word
  obtain ⟨arrow, rest, rfl, hArrow, -, -, hTells⟩ := hTells.word
  obtain ⟨value, hDerived, hMeaning, -⟩ := Value.readsBack hView _ _ _ _ hValue hTells.breaks
  refine ⟨_, .mk (hKind.trans hName) hArrow hDerived hComma, ?_, rfl⟩
  simp [Assignment.meaning, Token.leaf, hText, hMeaning]

/-- Attributes with commas between them are read again. Each comma goes to the attribute before
it. -/
theorem Rest.readsAttributes (hView : v.Reads gap) {more : Code}
    (hMore : Rest [some ","] anyGap (Attribute.Coded v.first gap) (unmarked ys) more) {own : Code}
    (hOwn : y.Coded v.first gap own) (hTells : Tells line (own ++ more) tokens) :
    ∃ xs, Many (Assignment.Derived false) xs tokens ∧ xs.map (Assignment.meaning v) = y :: ys := by
  induction ys generalizing y own more line tokens with
  | nil =>
    cases hMore with
    | nil =>
      rw [List.append_nil] at hTells
      obtain ⟨x, hx, hMeaning, -⟩ := Attribute.reads hView hOwn hTells .none false
      rw [List.append_nil] at hx
      refine ⟨[x], ?_, by simp [hMeaning]⟩
      simpa using ManyBefore.cons hx .nil
  | cons z ys ih =>
    cases hMore with
    | cons _ hNext hRest =>
      simp only [List.append_assoc, List.singleton_append] at hTells
      obtain ⟨left, right, rfl, hLeft, hRight⟩ := hTells.append
      obtain ⟨comma, right, rfl, hComma, -, -, hRight⟩ := hRight.word
      obtain ⟨x, hx, hMeaning, -⟩ := Attribute.reads hView hOwn hLeft (.some hComma) false
      obtain ⟨xs, hxs, hMeanings⟩ := ih hRest hNext hRight.breaks
      refine ⟨x :: xs, ?_, by simp [hMeaning, hMeanings]⟩
      simpa using ManyBefore.cons hx hxs

theorem Run.readsAttributes (hView : v.Reads gap) (h : Listed (Attribute.Coded v.first gap) ys code)
    (hTells : Tells line code tokens) :
    ∃ xs, Many (Assignment.Derived false) xs tokens ∧ xs.map (Assignment.meaning v) = ys := by
  cases ys with
  | nil =>
    cases h with
    | nil =>
      obtain rfl := hTells.nil
      exact ⟨[], .nil, rfl⟩
  | cons y ys =>
    cases h with
    | cons hOwn hMore =>
      rw [List.append_assoc] at hTells
      exact hMore.readsAttributes hView hOwn hTells.breaks

theorem promisee_reads (hView : v.Reads gap) {y : Option (Value μ)} (h : PromiseeCoded v.first gap y code)
    (hTells : Tells line code tokens) :
    ∃ x, PromiseeDerived x tokens ∧ x.map (Value.meaning v) = y := by
  cases h with
  | none =>
    obtain rfl := hTells.nil
    exact ⟨none, .none, rfl⟩
  | some hValue =>
    obtain ⟨arrow, rest, rfl, hArrow, -, -, hTells⟩ := hTells.breaks.word
    obtain ⟨x, hx, hMeaning, -⟩ := Value.readsBack hView _ _ _ _ hValue hTells
    exact ⟨some x, .some hArrow hx, by simp [hMeaning]⟩

/-- A promise is read again from the tokens of its code. -/
theorem Promise.readsBack (hView : v.Reads gap) (y : Promise μ) :
    ReadsBack Promise.Derived (Promise.Coded v.first gap) (Promise.meaning v) Promise.traits y := by
  intro line code tokens hCoded hTells
  obtain @⟨right, body, hPromiser, hPromisee, hBody⟩ := hCoded
  have hSpan := hTells.span (Code.tight_between _ _ _)
  obtain ⟨promiser, rest, rfl, hKind, hText, -, hTells⟩ := hTells.word
  simp only [List.append_assoc] at hTells
  obtain ⟨target, rest, rfl, hRight, hTells⟩ := hTells.append
  obtain ⟨inner, rest, rfl, hInner, hTells⟩ := hTells.append
  obtain ⟨semicolon, rfl, hSemicolon, -⟩ := hTells.lastWord
  obtain ⟨promisee, hTo, hPromisee⟩ := promisee_reads hView hPromisee hRight
  obtain ⟨items, hItems, hMeaning⟩ := hBody.readsAttributes hView hInner
  obtain ⟨next, hNext⟩ : ∃ next, (inner ++ [semicolon]).head? = some next :=
    Option.isSome_iff_exists.1 (by simp)
  obtain ⟨last, hLast⟩ : ∃ last, (promiser :: (target ++ [] ++ inner)).getLast? = some last :=
    Option.isSome_iff_exists.1 (by simp)
  have hDerived := Promise.Derived.mk (hKind.trans hPromiser) hTo .none hItems hSemicolon hNext hLast
  simp only [List.append_nil, List.cons_append, List.append_assoc] at hDerived
  refine ⟨_, hDerived, ?_, hSpan⟩
  simp [Promise.meaning, Token.leaf, hText, hPromisee, hMeaning]

theorem Clause.readsBack (hView : v.Reads gap) (y : Clause μ) :
    ReadsBack Clause.Derived (Clause.Coded v.first gap) (Clause.meaning v) Clause.traits y := by
  intro line code tokens hCoded hTells
  cases hCoded with
  | guard h =>
    have hSpan := hTells.span (Code.tight_word _)
    obtain ⟨t, rfl, hKind, rfl, -⟩ := hTells.lastWord
    exact ⟨_, .guard (.mk (hKind.trans h)), rfl, hSpan⟩
  | promise h =>
    obtain ⟨x, hx, rfl, hLines⟩ := Promise.readsBack hView _ _ _ _ h hTells
    exact ⟨.promise x, .promise hx, rfl, hLines⟩

theorem Selection.readsBack (hView : v.Reads gap) (y : Selection μ) :
    ReadsBack Selection.Derived (Selection.Coded v.first gap) (Selection.meaning v) Selection.traits y := by
  intro line code tokens hCoded hTells
  cases hCoded with
  | guard h =>
    have hSpan := hTells.span (Code.tight_word _)
    obtain ⟨t, rfl, hKind, rfl, -⟩ := hTells.lastWord
    exact ⟨_, .guard (.mk (hKind.trans h)), rfl, hSpan⟩
  | assignment h =>
    obtain ⟨left, right, rfl, hLeft, hRight⟩ := hTells.append
    obtain ⟨semicolon, rfl, hSemicolon, -⟩ := hRight.lastWord
    obtain ⟨x, hx, rfl, hTraits⟩ := Attribute.reads hView h hLeft .none true
    rw [List.append_nil] at hx hTraits
    refine ⟨.assignment x, .assignment hx hSemicolon, rfl, ?_⟩
    have hSpan := hLeft.span h.tight
    simpa [Selection.traits, hTraits, Code.lineAfter, lineFeeds] using hSpan

theorem PromiseType.reads (hView : v.Reads gap) {y : PromiseType μ} (hCoded : y.Coded v.first gap code)
    (hTells : Tells line code tokens) (hNext : next.isSome) :
    ∃ x, PromiseType.Derived next x tokens ∧ x.meaning v = y := by
  obtain ⟨hName, hBody⟩ := hCoded
  obtain ⟨name, rest, rfl, hKind, hText, -, hTells⟩ := hTells.word
  obtain ⟨body, more, rfl, hInner, hMore⟩ := hTells.append
  obtain rfl := hMore.onlyBreaks
  rw [List.append_nil]
  obtain ⟨items, hItems, hMeaning⟩ :=
    hBody.readsMany hView (fun y _ => Clause.readsBack hView y.2) hInner
  obtain ⟨first, hFirst⟩ : ∃ first, body.head?.or next = some first :=
    Option.isSome_iff_exists.1 (by simp [hNext])
  obtain ⟨last, hLast⟩ : ∃ last, (name :: body).getLast? = some last :=
    Option.isSome_iff_exists.1 (by simp)
  refine ⟨_, .mk (hKind.trans hName) hItems hFirst hLast, ?_⟩
  simp [PromiseType.meaning, Token.leaf, hText, hMeaning]

/-- Constructs are read again one after the other. -/
theorem Rest.readsLines (hEach : ∀ y line code tokens next, R y code → Tells line code tokens → next.isSome →
      ∃ x, D next x tokens ∧ meaning x = y) {ys : List β} (h : Rest [] anyGap R (unmarked ys) code)
    (hTells : Tells line code tokens) (hNext : next.isSome) :
    ∃ xs, ManyBefore D next xs tokens ∧ xs.map meaning = ys := by
  induction ys generalizing code line tokens with
  | nil =>
    cases h with
    | nil =>
      obtain rfl := hTells.nil
      exact ⟨[], .nil, rfl⟩
  | cons y ys ih =>
    cases h with
    | cons _ hOwn hMore =>
      simp only [List.nil_append, List.append_assoc] at hTells
      obtain ⟨left, right, rfl, hLeft, hRight⟩ := hTells.breaks.append
      obtain ⟨xs, hxs, hMeanings⟩ := ih hMore hRight
      obtain ⟨x, hx, hMeaning⟩ :=
        hEach y _ _ left (right.head?.or next) hOwn hLeft (by simp [hNext])
      exact ⟨x :: xs, .cons hx hxs, by simp [hMeaning, hMeanings]⟩

theorem Run.readsLines (hEach : ∀ y line code tokens next, R y code → Tells line code tokens → next.isSome →
      ∃ x, D next x tokens ∧ meaning x = y) {ys : List β} (h : Lines R ys code) (hTells : Tells line code tokens)
    (hNext : next.isSome) : ∃ xs, ManyBefore D next xs tokens ∧ xs.map meaning = ys := by
  have hRest : ∃ count rest, code = Code.breaks count ++ rest ∧ Rest [] anyGap R (unmarked ys) rest := by
    cases ys with
    | nil =>
      cases h with
      | nil => exact ⟨0, [], rfl, .nil⟩
    | cons y ys =>
      cases h with
      | @cons _ _ count own more hOwn hMore =>
        have hRest : Rest [] anyGap R (unmarked (y :: ys)) ([] ++ Code.breaks 0 ++ own ++ more) :=
          .cons trivial hOwn hMore
        exact ⟨count, _, by simp [Code.breaks], hRest⟩
  obtain ⟨count, rest, rfl, hRest⟩ := hRest
  exact hRest.readsLines hEach hTells.breaks hNext

theorem Contents.reads (hView : v.Reads gap) {y : Contents μ} (hCoded : y.Coded v.first gap code)
    (hTells : Tells line code tokens) :
    ∃ x, Contents.Derived x tokens ∧ x.meaning v = y ∧ x.keyword = kindOf y.keyword := by
  cases hCoded with
  | bundle h =>
    obtain ⟨opening, rest, rfl, hOpening, -, -, hTells⟩ := hTells.word
    simp only [List.append_assoc] at hTells
    obtain ⟨inner, closing, rfl, hInner, hClosing⟩ := hTells.closed
    obtain ⟨items, hItems, hMeaning⟩ := h.readsLines
      (fun _ _ _ _ _ hOwn hTells hNext => PromiseType.reads hView hOwn hTells hNext)
      hInner (rfl : (some closing).isSome)
    exact ⟨_, .bundle hOpening hItems hClosing, by simp [Contents.meaning, hMeaning], kindOf_bundle.symm⟩
  | body hNonempty h =>
    obtain ⟨opening, rest, rfl, hOpening, -, -, hTells⟩ := hTells.word
    simp only [List.append_assoc] at hTells
    obtain ⟨inner, closing, rfl, hInner, hClosing⟩ := hTells.closed
    obtain ⟨items, hItems, hMeaning⟩ :=
      h.readsMany hView (fun y _ => Selection.readsBack hView y.2) hInner
    have hItemsNonempty : items ≠ [] := by
      rintro rfl
      exact hNonempty hMeaning.symm
    exact ⟨_, .body hOpening hItems hItemsNonempty hClosing, by simp [Contents.meaning, hMeaning], kindOf_body.symm⟩

theorem parameters_reads {names : List String} (h : ParametersCoded names code)
    (hTells : Tells line code tokens) (last next : Token) :
    ∃ x, ParametersDerived last next x tokens ∧ x.items.map Leaf.text = names := by
  cases h with
  | none =>
    obtain rfl := hTells.nil
    exact ⟨_, .none, by simp⟩
  | some h =>
    obtain ⟨opening, rest, rfl, hOpening, -, -, hTells⟩ := hTells.word
    obtain ⟨inner, closing, rfl, hInner, hClosing⟩ := Tells.closed (n := 0) hTells
    have hEach : ∀ y ∈ unmarked names, ReadsBack ParameterDerived (Word (· = .ident)) Leaf.text Leaf.traits y.2 := by
      intro y _ line code tokens hCoded hTells
      obtain ⟨h⟩ := hCoded
      have hSpan := hTells.span (Code.tight_word _)
      obtain ⟨t, rfl, hKind, hText, -⟩ := hTells.lastWord
      exact ⟨_, .mk (hKind.trans h), hText, hSpan⟩
    obtain ⟨items, hItems, hMeaning⟩ := h.readsSeparated blind_reads hEach hInner
    rw [View.along_blind] at hMeaning
    exact ⟨_, .some (.mk hOpening hItems hClosing), by simpa using unmarked_inj hMeaning⟩

theorem Block.reads (hView : v.Reads gap) {y : Block μ} (hCoded : y.Coded v.first gap code)
    (hTells : Tells line code tokens) : ∃ x, Block.Derived x tokens ∧ x.meaning v = y := by
  obtain ⟨hType, hName, hParameters, hContents⟩ := hCoded
  obtain ⟨keyword, rest, rfl, hKeyword, -, -, hTells⟩ := hTells.word
  obtain ⟨type, rest, rfl, hTypeKind, hTypeText, -, hTells⟩ := hTells.word
  obtain ⟨name, rest, rfl, hNameKind, hNameText, -, hTells⟩ := hTells.word
  simp only [List.append_assoc] at hTells
  obtain ⟨brackets, rest, rfl, hBrackets, hTells⟩ := hTells.append
  obtain ⟨contents, hDerived, hMeaning, hSame⟩ := Contents.reads hView hContents hTells.breaks
  obtain ⟨next, more, rfl, -⟩ := hDerived.head
  obtain ⟨parameters, hDerivedParameters, hNames⟩ := parameters_reads hParameters hBrackets name next
  refine ⟨_, .mk (hKeyword.trans hSame.symm) (hTypeKind.trans hType) (hNameKind.trans hName) rfl
    hDerivedParameters hDerived, ?_⟩
  simp [Block.meaning, Token.leaf, hTypeText, hNameText, hNames, hMeaning]

/-- A policy is read again from the tokens of its code. -/
theorem Document.reads (hView : v.Reads gap) {y : Document μ}
    (hCoded : y.Coded v.first gap code) {tokens : List Token} {start : Int}
    (hTells : Tells start code tokens) (line offset : Int) :
    ∃ x, Specification.Derived line offset x tokens ∧ Specification.meaning v x = y := by
  obtain ⟨h⟩ := hCoded
  obtain ⟨inner, rest, rfl, hInner, hRest⟩ := hTells.append
  obtain rfl := hRest.onlyBreaks
  obtain ⟨blocks, hBlocks, hMeaning⟩ := h.readsLines (D := fun _ => Block.Derived)
    (fun _ _ _ _ _ hOwn hTells _ => Block.reads hView hOwn hTells) hInner
    (rfl : (some (default : Token)).isSome)
  rw [List.append_nil]
  exact ⟨_, .mk hBlocks.anywhere, by simp [Specification.meaning, hMeaning]⟩

end PolicyFormat.Abstract
