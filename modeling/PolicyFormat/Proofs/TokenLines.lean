import PolicyFormat.Proofs.CommentRuns
import PolicyFormat.Proofs.Trailing

/-! The lines that the tokens of a text stand on. No token ends on a blank line, and if the text holds no
comments, all lines between two tokens are blank. -/
namespace PolicyFormat.Policy

open Lexeme

/-! ### One token after the other -/

/-- The condition holds of each token and the line that the one before it ends on. The first one comes
after the given line. -/
def Tracked (C : Int → Token → Prop) : Int → List Token → Prop
  | _, [] => True
  | line, t :: rest => C line t ∧ Tracked C t.endLine rest

/-- The line that the last of the tokens ends on, or the given line if there are none. -/
def lineAfter (line : Int) (tokens : List Token) : Int :=
  tokens.foldl (fun _ t => t.endLine) line

@[simp] theorem lineAfter_nil (line : Int) : lineAfter line [] = line := rfl

@[simp] theorem lineAfter_cons (line : Int) (t : Token) (rest : List Token) :
    lineAfter line (t :: rest) = lineAfter t.endLine rest := rfl

@[simp] theorem lineAfter_append (line : Int) (a b : List Token) :
    lineAfter line (a ++ b) = lineAfter (lineAfter line a) b :=
  List.foldl_append

section

variable {C D : Int → Token → Prop} {line : Int}

@[simp] theorem tracked_nil : Tracked C line [] ↔ True :=
  Iff.rfl

@[simp] theorem tracked_cons {t : Token} {rest : List Token} :
    Tracked C line (t :: rest) ↔ C line t ∧ Tracked C t.endLine rest :=
  Iff.rfl

@[simp] theorem tracked_append {a b : List Token} :
    Tracked C line (a ++ b) ↔ Tracked C line a ∧ Tracked C (lineAfter line a) b := by
  induction a generalizing line with
  | nil => simp
  | cons t a ih => simp [ih, and_assoc]

variable {tokens : List Token}

theorem Tracked.and (h : Tracked C line tokens) (hOther : Tracked D line tokens) :
    Tracked (fun line t => C line t ∧ D line t) line tokens := by
  induction tokens generalizing line with
  | nil => trivial
  | cons t tokens ih => exact ⟨⟨h.1, hOther.1⟩, ih h.2 hOther.2⟩

theorem Tracked.imp (h : Tracked C line tokens) (hEach : ∀ t ∈ tokens, ∀ line, C line t → D line t) :
    Tracked D line tokens := by
  induction tokens generalizing line with
  | nil => trivial
  | cons t tokens ih =>
    exact ⟨hEach t (by simp) line h.1, ih h.2 fun u hu => hEach u (by simp [hu])⟩

end

/-! ### Blank lines between tokens -/

/-- Only blank lines stand between the line and the token, and the token does not end on a blank line. -/
structure Token.Follows (isEmpty : Int → Bool) (line : Int) (t : Token) : Prop where
  after : line ≤ t.line
  between : ∀ l, line < l → l < t.line → isEmpty l = true
  inked : isEmpty t.endLine = false

section

variable {isEmpty : Int → Bool}

/-- From within a line, which has been blank so far or not, the text has the given blank lines. -/
def Foretold (isEmpty : Int → Bool) (line : Int) (blank : Bool) (cs : List Char) : Prop :=
  ∀ l, line ≤ l → (isEmpty l = true ↔ l ∈ emptyLines.go line blank cs)

/-- All lines between a line and a place in the text are blank. -/
structure BlankSince (isEmpty : Int → Bool) (start line : Int) (blank : Bool) (cs : List Char) : Prop where
  after : start ≤ line
  between : ∀ l, start < l → l < line → isEmpty l = true
  fresh : start < line → blank = true
  foretold : Foretold isEmpty line blank cs

variable {line : Int} {cs : List Char}

theorem Foretold.lineFeed {blank : Bool} (h : Foretold isEmpty line blank ('\n' :: cs)) :
    Foretold isEmpty (line + 1) true cs := by
  intro l hl
  rw [h l (by omega)]
  have hOther : l ≠ line := by omega
  cases blank <;> simp [emptyLines.go, hOther]

theorem Foretold.other {blank : Bool} {c : Char} (h : Foretold isEmpty line blank (c :: cs)) (hc : c ≠ '\n') :
    Foretold isEmpty line (blank && (c == ' ' || c == '\t' || c == '\r')) cs := by
  intro l hl
  rw [h l hl]
  simp [emptyLines.go, hc]

variable {start : Int}

theorem BlankSince.lineFeed {blank : Bool} (h : BlankSince isEmpty start line blank ('\n' :: cs)) :
    BlankSince isEmpty start (line + 1) true cs := by
  refine ⟨by have := h.after; omega, fun l hStart hLine => ?_, fun _ => rfl, h.foretold.lineFeed⟩
  by_cases hl : l < line
  · exact h.between l hStart hl
  · obtain rfl : l = line := by omega
    obtain rfl := h.fresh hStart
    simp [h.foretold l (Int.le_refl l), emptyLines.go]

theorem BlankSince.blank {start line : Int} {blank : Bool} {c : Char} {cs : List Char}
    (h : BlankSince isEmpty start line blank (c :: cs)) (hc : c = ' ' ∨ c = '\t' ∨ c = '\r') :
    BlankSince isEmpty start line blank cs := by
  refine ⟨h.after, h.between, h.fresh, ?_⟩
  have hRest := h.foretold.other (by rcases hc with rfl | rfl | rfl <;> decide)
  rcases hc with rfl | rfl | rfl <;> simpa using hRest

variable {rest : List Char}

theorem BlankSince.white {blank : Bool} {piece : List Char} (hWhite : White piece)
    (h : BlankSince isEmpty start line blank (piece ++ rest)) :
    ∃ blank, BlankSince isEmpty start (line + piece.count '\n') blank rest := by
  induction hWhite generalizing line blank with
  | nil => exact ⟨blank, by simpa using h⟩
  | @blank c piece hc _ ih =>
    have hCount : (c :: piece).count '\n' = piece.count '\n' := by
      rcases hc with rfl | rfl <;> simp
    rw [hCount]
    exact ih (h.blank (hc.imp_right .inl))
  | @lineFeed piece _ ih =>
    obtain ⟨blank, hRest⟩ := ih h.lineFeed
    refine ⟨blank, ?_⟩
    rwa [List.count_cons_self, Nat.add_comm, Nat.cast_add, Nat.cast_one, ← Int.add_assoc]
  | @carriageReturn piece _ ih =>
    obtain ⟨blank, hRest⟩ := ih (h.blank (.inr (.inr rfl))).lineFeed
    refine ⟨blank, ?_⟩
    rwa [List.count_cons_of_ne (by decide), List.count_cons_self, Nat.add_comm, Nat.cast_add, Nat.cast_one,
      ← Int.add_assoc]

/-- A piece that does not end in white space leaves its last line inked. -/
theorem Foretold.solid {blank : Bool} {body : List Char} {z : Char} (hz : IsSolid z)
    (h : Foretold isEmpty line blank (body ++ z :: rest)) :
    Foretold isEmpty (line + body.count '\n') false rest := by
  induction body generalizing line blank with
  | nil =>
    have hWhite : (z == ' ' || z == '\t' || z == '\r') = false := by
      simp [hz.1, hz.2.1, hz.2.2.2]
    simpa only [hWhite, Bool.and_false, List.count_nil, Nat.cast_zero, Int.add_zero] using h.other hz.2.2.1
  | cons c body ih =>
    by_cases hc : c = '\n'
    · subst hc
      have hRest := ih h.lineFeed
      rwa [List.count_cons_self, Nat.add_comm, Nat.cast_add, Nat.cast_one, ← Int.add_assoc]
    · rw [List.count_cons_of_ne hc]
      exact ih (h.other hc)

theorem Foretold.inked (h : Foretold isEmpty line false cs) : isEmpty line = false := by
  rw [Bool.eq_false_iff, Ne, h line (Int.le_refl line), mem_emptyLines_go]
  rintro ⟨above, hLine, hBlank, -⟩
  have hAbove : above = 0 := by omega
  exact absurd (hBlank hAbove) (by decide)

end

/-- Only blank lines stand between the tokens of a text without comments. -/
theorem Scanned.follows {line offset : Int} {cs : List Char} {scan : Scan} (hScan : Scanned line offset cs scan)
    (hNone : scan.comments = []) {isEmpty : Int → Bool} {start : Int} {blank : Bool}
    (h : BlankSince isEmpty start line blank cs) : Tracked (Token.Follows isEmpty) start scan.tokens := by
  induction hScan generalizing start blank with
  | done | stuck => trivial
  | space hPiece _ ih =>
    obtain ⟨blank, hRest⟩ := h.white hPiece
    exact ih hNone hRest
  | comment => cases hNone
  | @token line offset kind piece rest after hFront hAfter ih =>
    obtain ⟨body, z, rfl, hz⟩ := (spelling_of_front? hFront).1.last_solid
    have hFeeds : (body ++ [z]).count '\n' = body.count '\n' := by
      simp [hz.2.2.1]
    have hForetold : Foretold isEmpty (line + (body ++ [z]).count '\n') false rest := by
      rw [hFeeds]
      exact Foretold.solid hz (by simpa using h.foretold)
    have hEnd : Token.endLine ⟨kind, String.ofList (body ++ [z]), line, offset⟩ =
        line + (body ++ [z]).count '\n' := by
      simp only [Token.endLine, lineFeeds, String.toList_ofList]
    refine ⟨⟨h.after, h.between, ?_⟩, ?_⟩
    · rw [hEnd]
      exact hForetold.inked
    · rw [hEnd]
      refine ih hNone (?_ : BlankSince isEmpty _ _ false rest)
      exact ⟨Int.le_refl _, fun l _ _ => by omega, fun hLess => by omega, hForetold⟩

theorem blankSince_ofText (text : String) : BlankSince (emptyLines text).contains 0 1 true text.toList where
  after := by decide
  between l := by omega
  fresh _ := rfl
  foretold l _ := by rw [List.contains_iff_mem, emptyLines]

theorem not_mem_emptyLines_zero (text : String) : (emptyLines text).contains 0 = false := by
  rw [Bool.eq_false_iff, Ne, List.contains_iff_mem, emptyLines, mem_emptyLines_go]
  rintro ⟨above, hLine, -⟩
  omega

/-- Only quoted tokens go over more than one line. -/
theorem Lexeme.Spelling.endLine_eq {t : Token} (h : Spelling t.kind t.text.toList) (hKind : t.kind ≠ .quoted) :
    t.endLine = t.line := by
  have hNone : '\n' ∉ t.text.toList := fun hMem => (h.solid hKind _ hMem).2.2.1 rfl
  simp [Token.endLine, lineFeeds, List.count_eq_zero.2 hNone]

end PolicyFormat.Policy
