import PolicyFormat.Proofs.Sentence
import PolicyFormat.Proofs.TokenLines

/-! In the code of a policy every comma and every semicolon directly follows a word. So none of them starts
a line of a text that was laid out. -/
namespace PolicyFormat.Abstract

open Policy Policy.Lexeme

/-- The word is a comma or a semicolon. -/
def Trails (text : String) : Prop :=
  text = "," ∨ text = ";"

instance (text : String) : Decidable (Trails text) :=
  inferInstanceAs (Decidable (_ ∨ _))

theorem not_trails {text : String} {kind : TokenKind} (h : kindOf text = kind) (hComma : kind ≠ .comma)
    (hSemicolon : kind ≠ .semicolon) : ¬ Trails text := by
  rintro (rfl | rfl)
  · exact hComma (h.symm.trans kindOf_comma)
  · exact hSemicolon (h.symm.trans kindOf_semicolon)

@[simp] theorem not_trails_bracket : ¬ Trails "(" ∧ ¬ Trails ")" ∧ ¬ Trails "\x7b" ∧ ¬ Trails "\x7d" := by
  decide

namespace Code

/-- Each comma and each semicolon directly follows a word. The flag tells whether a line break stands before
the code. -/
def Snug : Bool → Code → Prop
  | _, [] => True
  | _, none :: rest => Snug true rest
  | afterBreak, some text :: rest => (Trails text → afterBreak = false) ∧ Snug false rest

/-- Whether a line break stands before what follows the code. -/
def breaksAfter (afterBreak : Bool) (code : Code) : Bool :=
  code.foldl (fun _ s => s.isNone) afterBreak

section

variable (b : Bool)

@[simp] theorem snug_nil : Snug b [] ↔ True := Iff.rfl

@[simp] theorem snug_none (rest : Code) : Snug b (none :: rest) ↔ Snug true rest := Iff.rfl

@[simp] theorem snug_some (text : String) (rest : Code) :
    Snug b (some text :: rest) ↔ (Trails text → b = false) ∧ Snug false rest := Iff.rfl

@[simp] theorem breaksAfter_nil : breaksAfter b [] = b := rfl

@[simp] theorem breaksAfter_some (text : String) (rest : Code) :
    breaksAfter b (some text :: rest) = breaksAfter false rest := rfl

@[simp] theorem breaksAfter_append (x y : Code) : breaksAfter b (x ++ y) = breaksAfter (breaksAfter b x) y :=
  List.foldl_append

@[simp] theorem snug_append (x y : Code) : Snug b (x ++ y) ↔ Snug b x ∧ Snug (breaksAfter b x) y := by
  induction x generalizing b with
  | nil => simp
  | cons s x ih =>
    cases s with
    | none => exact ih true
    | some text => simp [ih, and_assoc]

@[simp] theorem snug_breaks (count : Nat) : Snug b (breaks count) := by
  induction count generalizing b with
  | zero => trivial
  | succ count ih => exact ih true

end

/-- Each comma and each semicolon directly follows a word of the code, which ends with a word. -/
def Neat (code : Code) : Prop :=
  ∀ b, Snug b code ∧ breaksAfter b code = false

theorem Snug.tracked {b : Bool} {code : Code} (h : Snug b code) {line start : Int}
    (hStart : b = false → line = start) {tokens : List Token} (hTells : Tells line code tokens) :
    Tracked (fun line t => Trails t.text → t.line = line) start tokens := by
  induction code generalizing b line start tokens with
  | nil =>
    obtain rfl := hTells.nil
    trivial
  | cons s code ih =>
    cases s with
    | none => exact ih h (by simp) hTells
    | some text =>
      obtain ⟨t, rest, rfl, -, rfl, rfl, hRest⟩ := hTells.word
      exact ⟨fun hTrails => hStart (h.1 hTrails), ih h.2 (fun _ => rfl) hRest⟩

end Code

open Code

/-! ### Sequences -/

section

variable {μ β : Type} {gap : μ → Nat → Prop} {R : β → Code → Prop} {first : μ} {xs : List (μ × β)} {code : Code}

theorem Rest.neat (h : Rest [some ","] gap R xs code)
    (hEach : ∀ x ∈ xs, ∀ own, R x.2 own → own.Neat) : Snug false code ∧ breaksAfter false code = false := by
  induction h with
  | nil => exact ⟨trivial, rfl⟩
  | @cons mark x xs count own more _ hOwn _ ih =>
    have hNeat := hEach (mark, x) (by simp) own hOwn
    obtain ⟨hMore, hEnd⟩ := ih fun x hx => hEach x (by simp [hx])
    simp [(hNeat _).1, (hNeat _).2, hMore, hEnd]

theorem Run.neat (h : Run [some ","] gap R first xs code) (hEach : ∀ x ∈ xs, ∀ own, R x.2 own → own.Neat) (b : Bool) :
    Snug b code ∧ breaksAfter b code = (b && xs.isEmpty) := by
  cases h with
  | nil => simp
  | @cons x xs count own more hOwn hMore =>
    have hNeat := hEach (first, x) (by simp) own hOwn
    obtain ⟨hMore, hEnd⟩ := hMore.neat fun x hx => hEach x (by simp [hx])
    simp [(hNeat _).1, (hNeat _).2, hMore, hEnd]

theorem Rest.snug (h : Rest [] gap R xs code) (hEach : ∀ x ∈ xs, ∀ own, R x.2 own → ∀ b, Snug b own)
    (b : Bool) : Snug b code := by
  induction h generalizing b with
  | nil => trivial
  | @cons mark x xs count own more _ hOwn _ ih =>
    have hSnug := hEach (mark, x) (by simp) own hOwn
    have hMore := ih fun x hx => hEach x (by simp [hx])
    simp [hSnug, hMore]

theorem Run.snug (h : Run [] gap R first xs code) (hEach : ∀ x ∈ xs, ∀ own, R x.2 own → ∀ b, Snug b own)
    (b : Bool) : Snug b code := by
  cases h with
  | nil => trivial
  | @cons x xs count own more hOwn hMore =>
    have hSnug := hEach (first, x) (by simp) own hOwn
    have hMore := hMore.snug fun x hx => hEach x (by simp [hx])
    simp [hSnug, hMore]

end

/-! ### Policies -/

theorem not_trails_of_startsElement {text : String} (h : Parser.startsElement (kindOf text) = true) :
    ¬ Trails text := by
  rintro (rfl | rfl)
  · rw [kindOf_comma] at h
    cases h
  · rw [kindOf_semicolon] at h
    cases h

theorem Term.Coded.neat {t : Term} {code : Code} (h : t.Coded code) : code.Neat := by
  induction t using Term.induction generalizing code with
  | word text =>
    cases h with
    | word h =>
      intro b
      simp [not_trails_of_startsElement h]
  | call name arguments ih =>
    cases h with
    | call hName h =>
      have hText : ¬ Trails name := not_trails_of_startsElement (by simp [Parser.startsElement, hName])
      have hEach : ∀ x ∈ unmarked arguments, ∀ own, x.2.Coded own → own.Neat := by
        simpa [unmarked] using fun t ht own hOwn => ih t ht hOwn
      intro b
      simp [hText, (h.neat hEach _).1]

variable {μ : Type} {first : μ} {gap : μ → Nat → Prop} {code : Code}

theorem Value.Coded.neat {y : Value μ} (h : y.Coded first gap code) : code.Neat := by
  intro b
  cases h with
  | single h => exact h.neat b
  | @list terms inner comma before after h hComma =>
    have hRun := fun b => h.neat (fun _ _ _ hOwn => hOwn.neat) b
    rcases hComma with rfl | ⟨rfl, hTerms⟩
    · simp [(hRun _).1]
    · simp [(hRun _).1, (hRun _).2, hTerms]

theorem Attribute.Coded.neat {y : Attribute μ} (h : y.Coded first gap code) : code.Neat := by
  intro b
  cases h with
  | mk hName hValue =>
    have hText := not_trails hName (by decide) (by decide)
    simp [hText, (hValue.neat _).1, (hValue.neat _).2]

theorem PromiseeCoded.neat {y : Option (Value μ)} (h : PromiseeCoded first gap y code) :
    Snug false code ∧ breaksAfter false code = false := by
  cases h with
  | none => simp
  | some hValue => simp [Trails, (hValue.neat _).1, (hValue.neat _).2]

theorem Promise.Coded.neat {y : Promise μ} (h : y.Coded first gap code) : code.Neat := by
  intro b
  cases h with
  | mk hPromiser hPromisee hBody =>
    have hText := not_trails hPromiser (by decide) (by decide)
    have hRun := fun b => hBody.neat (fun _ _ _ hOwn => hOwn.neat) b
    simp [hText, hPromisee.neat, (hRun _).1, (hRun _).2]

theorem Clause.Coded.snug {y : Clause μ} (h : y.Coded first gap code) (b : Bool) : Snug b code := by
  cases h with
  | guard h => simp [not_trails h (by decide) (by decide)]
  | promise h => exact (h.neat b).1

theorem PromiseType.Coded.snug {y : PromiseType μ} (h : y.Coded first gap code) (b : Bool) : Snug b code := by
  cases h with
  | mk hName hBody =>
    have hRun := hBody.snug fun _ _ _ hOwn => hOwn.snug
    simp [not_trails hName (by decide) (by decide), hRun]

theorem Selection.Coded.snug {y : Selection μ} (h : y.Coded first gap code) (b : Bool) : Snug b code := by
  cases h with
  | guard h => simp [not_trails h (by decide) (by decide)]
  | assignment h => simp [(h.neat b).1, (h.neat b).2]

theorem Contents.Coded.snug {y : Contents μ} (h : y.Coded first gap code) (b : Bool) : Snug b code := by
  cases h with
  | bundle h =>
    have hRun := h.snug fun _ _ _ hOwn => hOwn.snug
    simp [hRun]
  | body _ h =>
    have hRun := h.snug fun _ _ _ hOwn => hOwn.snug
    simp [hRun]

theorem ParametersCoded.snug {names : List String} (h : ParametersCoded names code) (b : Bool) : Snug b code := by
  cases h with
  | none => trivial
  | some h =>
    have hEach : ∀ x ∈ unmarked names, ∀ own, Word (· = .ident) x.2 own → own.Neat := by
      rintro x - own ⟨h⟩ b
      simp [not_trails h (by decide) (by decide)]
    simp [(h.neat hEach _).1]

theorem Block.Coded.snug {y : Block μ} (h : y.Coded first gap code) (b : Bool) : Snug b code := by
  cases h with
  | mk hType hName hParameters hContents =>
    have hKeyword : ¬ Trails y.contents.keyword := by
      cases y.contents <;> simp [Trails, Contents.keyword]
    simp [hKeyword, not_trails hType (by decide) (by decide), not_trails hName (by decide) (by decide),
      hParameters.snug, hContents.snug]

/-- In the code of a policy file every comma and every semicolon directly follows a word. -/
theorem Document.Coded.snug {y : Document μ} (h : y.Coded first gap code) (b : Bool) : Snug b code := by
  cases h with
  | mk h =>
    have hRun := h.snug fun _ _ _ hOwn => hOwn.snug
    simp [hRun]

end PolicyFormat.Abstract
