import Mathlib.Algebra.Order.BigOperators.Group.List
import Mathlib.Algebra.Order.Ring.Nat
import PolicyFormat.Proofs.InkCode
import PolicyFormat.Proofs.Tally

/-! The inks of a tree whose bracketed lists are all closed are legal, and their code is one of what
the tree says. -/
namespace PolicyFormat.Policy

open Layout Abstract

/-! ### Lists that are closed -/

variable {α : Type} {f : α → Nat} {g : ItemList α}

/-- Counts the lists of arguments or parameters that a comment ends. -/
def openTally : Tally Nat where
  note _ := 0
  hidden _ := 0
  unclosed := 1

theorem openTally_item (h : g.tally openTally f = 0) {x : α} (hx : .item x ∈ g.entries) : f x = 0 :=
  List.sum_eq_zero_iff.1 h _ (List.mem_map.2 ⟨_, hx, rfl⟩)

theorem openTally_brackets (h : g.bracketTally openTally f = 0) :
    (∀ x, .item x ∈ g.entries → f x = 0) ∧ g.EndsInItem := by
  obtain ⟨hItems, hLast⟩ := Nat.add_eq_zero_iff.1 h
  refine ⟨fun x hx => openTally_item hItems hx, fun c hc => ?_⟩
  simp [unclosedTally, hc, openTally] at hLast

/-! ### Terms -/

end PolicyFormat.Policy

namespace PolicyFormat.Abstract

variable {μ : Type}

/-- Calls without arguments become plain words if it is asked for. -/
def Value.bareIf {μ : Type} (braceless : Bool) (y : Value μ) : Value μ :=
  if braceless then y.bare else y

variable {α β γ : Type}

theorem View.after_comp (v : View μ) (traits : α → Policy.Traits) (f : α → β) (g : β → γ)
    (previous : Policy.Traits) (xs : List α) :
    (v.after traits f previous xs).map (fun (mark, y) => (mark, g y)) =
      v.after traits (fun x => g (f x)) previous xs := by
  induction xs generalizing previous with
  | nil => rfl
  | cons x xs ih => simp [View.after, ih]

theorem View.along_comp (v : View μ) (traits : α → Policy.Traits) (f : α → β) (g : β → γ) (xs : List α) :
    (v.along traits f xs).map (fun (mark, y) => (mark, g y)) = v.along traits (fun x => g (f x)) xs := by
  cases xs with
  | nil => rfl
  | cons x xs => simp [View.along, View.after_comp]

theorem Attribute.bare_eq (a : Attribute μ) :
    a.bare = { a with value := a.value.bareIf (!Layout.functionAttributes.contains a.name) } := by
  unfold Attribute.bare Value.bareIf
  cases Layout.functionAttributes.contains a.name <;> rfl

theorem Value.coded_list {first : μ} {gap : μ → Nat → Prop} {terms : List (μ × Term)} {inner comma code : Code}
    (h : Run [some ","] gap Term.Coded first terms inner) (hComma : comma = [] ∨ comma = [some ","] ∧ terms ≠ [])
    (before after : Nat)
    (hCode : code = some "\x7b" :: (Code.breaks before ++ inner ++ comma ++ Code.breaks after ++ [some "\x7d"])) :
    (Value.list terms).Coded first gap code :=
  hCode ▸ .list h hComma

theorem Value.bareIf_list (v : View μ) (braceless : Bool) (xs : List Policy.Element) :
    (Value.list (v.along Policy.Element.traits Policy.Element.term xs)).bareIf braceless =
      .list (v.along Policy.Element.traits (fun e => e.term.bareIf braceless) xs) := by
  cases braceless with
  | false => rfl
  | true => simp [Value.bareIf, Value.bare, View.along_comp, Term.bareIf]

end PolicyFormat.Abstract

namespace PolicyFormat.Policy

open Layout Lexeme Abstract

variable {ink : Ink}

variable {P : Comment → Prop} (hP : ∀ c, P c → c.Legible)

/-- Elements may start after an opening bracket too. -/
def ElementStart (pen : Pen) : Prop :=
  pen = .free ∨ pen = .bracket

theorem write_element {pen : Pen} (hPen : ElementStart pen) {kind : TokenKind}
    (h : Parser.startsElement kind = true) : pen.write kind = some .word := by
  rcases hPen with rfl | rfl <;> cases kind <;> first | rfl | cases h

section

variable {α β : Type} {R : Option Bool → α → Ink → Prop} {C : β → Code → Prop} {traits : α → Traits}
  {meaning : α → β}

theorem legalStyle_inline (keepsBlank : Bool → Option Bool) :
    LegalStyle (inlineInk keepsBlank) (· = .word) (· = .word) [some ","] [] 0 0 where
  mark pen hPen := by
    subst hPen
    exact Ink.Legal.comma.append (Ink.Legal.space (by decide))
  lastMark pen hPen := ⟨pen, hPen, Ink.Legal.nil pen⟩

theorem legalStyle_arguments : LegalStyle argumentsInk (· = .word) (· = .word) [some ","] [some ")"] 1 0 where
  mark pen hPen := by
    subst hPen
    exact Ink.Legal.comma.append (Ink.Legal.newline .word)
  lastMark pen hPen := by
    subst hPen
    exact ⟨.word, rfl, Ink.Legal.closeParen (.inl rfl)⟩

theorem gapsAgree_blind (style : InkStyle) (spaces : Nat) (t : Traits) : GapsAgree P style spaces blind anyGap t :=
  fun _ _ _ => trivial

include hP in
/-- Arguments with their brackets are legal after a word. -/
theorem legal_arguments {braceless : Bool} {entries : List (Entry α)} (h : ArgumentsInked braceless R entries ink)
    (hItem : ∀ x, .item x ∈ entries → ItemLegal (∀ c, ¬ P c) R C traits meaning ElementStart (· = .word) x)
    (hComment : ∀ c, .comment c ∈ entries → P c) (hEnds : ∀ c, entries.getLast? ≠ some (.comment c)) :
    (braceless = true ∧ entries = [] ∧ ink = []) ∨ (braceless = false ∨ entries ≠ []) ∧ ∃ inner,
        Ink.Legal .word ink .word (some "(" :: (inner ++ [some ")"])) ∧
        Listed C ((entries.filterMap Entry.item?).map meaning) inner := by
  have hNote : ¬ ElementStart .note := by simp [ElementStart]
  cases h with
  | none hBraceless => exact .inl ⟨hBraceless, rfl, rfl⟩
  | empty hBraceless =>
    refine .inr ⟨.inl hBraceless, [], ?_, .nil⟩
    exact Ink.Legal.openParen.append (Ink.Legal.closeParen (.inr rfl))
  | @inline _ inner hItems h =>
    obtain ⟨stop, code, rfl, hLegal, hCoded⟩ := legal_entries (legalStyle_inline _) hP hNote
      (.inl rfl) h hItem (fun x hx => gapsAgree_blind _ _ _) (fun c hc => absurd hc (hItems c))
      (fun c hc => absurd hc (hEnds c)) (.inr rfl)
    obtain ⟨body, rfl, hRun⟩ := hCoded.run_ended h.ne_nil hEnds 0
    refine .inr ⟨.inr h.ne_nil, body, ?_, by simpa [View.along_blind] using hRun⟩
    simpa using (Ink.Legal.openParen.append hLegal).append (Ink.Legal.closeParen (.inl rfl))
  | @lined _ inner h =>
    have hLine : StartsLine argumentsInk 1 := ⟨by decide, rfl⟩
    obtain ⟨stop, code, rfl, hLegal, hCoded⟩ := legal_entries legalStyle_arguments hP hNote
      (.inl rfl) h hItem (fun x hx => gapsAgree_blind _ _ _) (fun c hc => ⟨hComment c hc, hLine⟩)
      (fun c hc => absurd hc (hEnds c)) (.inr rfl)
    obtain ⟨body, rfl, hRun⟩ := hCoded.run_ended h.ne_nil hEnds 0
    refine .inr ⟨.inr h.ne_nil, body, ?_, by simpa [View.along_blind] using hRun⟩
    simpa using Ink.Legal.openParen.append hLegal

end

include hP in
/-- Words and calls are legal where an element may stand. -/
theorem Element.legal {braceless keepsBlank : Bool} {e : Element} (hFormed : e.Formed P keepsBlank)
    (hClosed : e.tally openTally = 0) :
    ItemLegal (e.traits.comments = []) (Element.Inked braceless) Term.Coded Element.traits
      (fun e => e.term.bareIf braceless) ElementStart (· = .word) e := by
  have hNote : ¬ ElementStart .note := by simp [ElementStart]
  induction e using Element.induction generalizing keepsBlank with
  | leaf word =>
    intro keeps own hOwn pen hPen
    cases hFormed with
    | leaf hWord hHolds hKeeps =>
      cases hOwn with
      | leaf =>
        have hLegal : ∀ pen, ElementStart pen →
            Ink.Legal pen [.word word.text] .word [some word.text] := fun pen hPen =>
          Ink.Legal.word (fun hSame => hNote (hSame ▸ hPen)) hWord.1 (write_element hPen hWord.2)
        obtain ⟨count, hNoted, hCount⟩ :=
          legal_node (hHolds.legible hP) keeps hNote (.inl rfl) hLegal hPen
        refine ⟨.word, count, _, rfl, hNoted, ?_, hCount⟩
        change (Term.bareIf braceless (.word word.text)).Coded _
        rw [Term.bareIf_word]
        exact .word hWord.2
  | call traits name arguments ih =>
    intro keeps own hOwn pen hPen
    cases hFormed with
    | call hHolds hKeeps hName hNameSilent hSilent hItems hComments =>
      cases hOwn with
      | @call _ _ _ _ brackets h =>
        rw [Element.tally_call] at hClosed
        obtain ⟨hEach, hEnds⟩ := openTally_brackets (Nat.add_eq_zero_iff.1 hClosed).2
        have hItem : ∀ e, .item e ∈ arguments.entries →
            ItemLegal (∀ c, ¬ P c) (Element.Inked braceless) Term.Coded Element.traits
              (fun e => e.term.bareIf braceless) ElementStart (· = .word) e := by
          intro e he
          have hElement := ih e (ItemList.mem_items.2 he) (hItems e he) (hEach e he)
          exact ItemLegal.mono (hItems e he).holds.comments_nil hElement
        have hNameLegal : ∀ pen, ElementStart pen →
            Ink.Legal pen [.word name.text] .word [some name.text] := fun pen hPen =>
          Ink.Legal.word (fun hSame => hNote (hSame ▸ hPen)) hName.1
            (write_element hPen (by simp [Parser.startsElement, hName.2]))
        rcases legal_arguments hP h hItem hComments hEnds with
          ⟨hBraceless, hEntries, rfl⟩ | ⟨hShown, inner, hBrackets, hInner⟩
        · -- without its brackets the call is read as a word
          obtain ⟨count, hNoted, hCount⟩ :=
            legal_node (hHolds.legible hP) keeps hNote (.inl rfl) hNameLegal hPen
          refine ⟨.word, count, _, rfl, by simpa using hNoted, ?_, hCount⟩
          have hBare : (Element.call traits name arguments).term.bareIf braceless = .word name.text := by
            simp [Term.bareIf, hBraceless, Term.bare, ItemList.items, hEntries]
          change (Term.bareIf braceless (Element.call traits name arguments).term).Coded _
          rw [hBare]
          exact .word (by simp [Parser.startsElement, hName.2])
        · obtain ⟨count, hNoted, hCount⟩ := legal_node (hHolds.legible hP) keeps hNote (.inl rfl)
            (fun pen hPen => (hNameLegal pen hPen).append hBrackets) hPen
          refine ⟨.word, count, _, rfl, hNoted, ?_, hCount⟩
          have hCall : braceless = false ∨ arguments.items.map Element.term ≠ [] := by
            refine hShown.imp_right fun hEntries hItems => ?_
            obtain ⟨c, hc⟩ := exists_comment_of_items_nil hEntries (List.map_eq_nil_iff.1 hItems)
            exact hEnds c hc
          change (Term.bareIf braceless (Element.call traits name arguments).term).Coded _
          rw [Element.term_call, Term.bareIf_call hCall, List.map_map]
          exact .call hName.2 hInner

/-! ### Values -/

section

variable {μ : Type} {v : View μ} {gap : μ → Nat → Prop}

/-- The marks of entries agree with the line breaks of layouts: one, and one more for a blank line.
There is none between entries on one line, which then have no blank lines. With comments, nothing
is known of the line breaks. -/
def Shows (P : Comment → Prop) (v : View μ) (gap : μ → Nat → Prop) : Prop :=
  ∀ previous t count, ((∀ c, ¬ P c) → count = 0 ∧ t.afterBlank = false ∧ t.yields = some 1 ∨
    count = 1 + (t.afterBlank && t.keepsBlank).toNat ∧ t.yields = none) → gap (v.next previous t) count

theorem shows_blind : Shows P blind anyGap :=
  fun _ _ _ _ => trivial

theorem legalStyle_braced : LegalStyle bracedInk (· = .word) (· = .free) [some ","] [some ","] 1 1 where
  mark pen hPen := by
    subst hPen
    exact (Ink.Legal.comma.append (Ink.Legal.newline .word)).append (Ink.Legal.nil .free)
  lastMark pen hPen := by
    subst hPen
    exact ⟨.free, rfl, Ink.Legal.comma.append (Ink.Legal.newline .word)⟩

variable (hShows : Shows P v gap)
include hP hShows

variable {braceless : Bool}

/-- Values are legal and have the code of their meaning. -/
theorem Value.legal {x : Value} (hFormed : x.Formed P) (hClosed : x.tally openTally = 0) (h : x.Inked braceless ink) :
    ∃ code, Ink.Legal .free ink .word code ∧ ((x.meaning v).bareIf braceless).Coded v.first gap code := by
  have hNote : ¬ ElementStart .note := by simp [ElementStart]
  have hItem : ∀ elements : ItemList Element, (Value.list elements).Formed P →
      (Value.list elements).tally openTally = 0 → ∀ e, .item e ∈ elements.entries →
      ItemLegal (∀ c, ¬ P c) (Element.Inked braceless) Term.Coded Element.traits
        (fun e => e.term.bareIf braceless) ElementStart (· = .word) e := by
    intro elements hFormed hClosed e he
    have hEach := openTally_item (Nat.add_eq_zero_iff.1 hClosed).1 he
    exact (Element.legal hP (hFormed.items e he) hEach).mono (hFormed.items e he).holds.comments_nil
  cases h with
  | @single element _ h =>
    obtain ⟨stop, count, code, rfl, hLegal, hCoded, hCount⟩ :=
      Element.legal hP hFormed.1 hClosed none ink h .free (.inl rfl)
    have hNone : count = 0 := by simpa [hFormed.1.keeps] using hCount hFormed.2
    subst hNone
    refine ⟨code, hLegal, ?_⟩
    have hSame : ((Value.single element).meaning v).bareIf braceless =
        .single (element.term.bareIf braceless) := by cases braceless <;> rfl
    rw [hSame]
    exact .single hCoded
  | @empty elements hEntries =>
    refine ⟨_, Ink.Legal.openBrace.append (Ink.Legal.closeBrace (.inl rfl)), ?_⟩
    rw [Value.meaning, Value.bareIf_list, ItemList.items, hEntries]
    exact Value.coded_list .nil (.inl rfl) 0 0 rfl
  | @inline elements inner hItems hMarks _ h =>
    have hEnds : ∀ c, elements.entries.getLast? ≠ some (.comment c) :=
      fun c hc => hItems c (List.mem_of_getLast? hc)
    have hGap : ∀ e, .item e ∈ elements.entries → GapsAgree P (inlineInk fun _ => some false) 0 v gap e.traits := by
      intro e he previous count hCount
      refine hShows previous e.traits count fun hNone => .inl ⟨?_, hMarks e (ItemList.mem_items.2 he)⟩
      simpa [inlineInk] using hCount hNone
    obtain ⟨stop, code, rfl, hLegal, hCoded⟩ := legal_entries (legalStyle_inline _) hP hNote (.inl rfl) h
      (hItem elements hFormed hClosed) hGap (fun c hc => absurd hc (hItems c))
      (fun c hc => absurd hc (hEnds c)) (.inl rfl)
    obtain ⟨body, rfl, hRun⟩ := hCoded.run_ended h.ne_nil hEnds 0
    have hOpening := Ink.Legal.openBrace.append (Ink.Legal.space (by decide))
    have hClosing := (Ink.Legal.space (by decide : Pen.word ≠ .note)).append (Ink.Legal.closeBrace (.inr rfl))
    rw [Value.meaning, Value.bareIf_list]
    refine ⟨_, (hOpening.append hLegal).append hClosing, ?_⟩
    exact Value.coded_list hRun (.inl rfl) 0 0 (by simp)
  | @lined elements inner _ hRanks h =>
    have hGap : ∀ e, .item e ∈ elements.entries → GapsAgree P bracedInk 1 v gap e.traits := by
      intro e he previous count hCount
      refine hShows previous e.traits count fun hNone => .inr ⟨?_, hRanks e (ItemList.mem_items.2 he)⟩
      simpa [bracedInk, (hFormed.items e he).keeps] using hCount hNone
    have hLine : StartsLine bracedInk 1 := ⟨by decide, rfl⟩
    obtain ⟨stop, code, rfl, hLegal, hCoded⟩ := legal_entries legalStyle_braced hP hNote (.inl rfl) h
      (hItem elements hFormed hClosed) hGap (fun c hc => ⟨hFormed.comments c hc, hLine⟩)
      (fun c hc => ⟨.free, 1, rfl, Ink.Legal.newline .note⟩) (.inl rfl)
    obtain ⟨body, tail, count, rfl, hRun, hTail⟩ := hCoded.run 0
    have hOpening := Ink.Legal.openBrace.append (Ink.Legal.newline .word)
    rw [Value.meaning, Value.bareIf_list]
    refine ⟨_, (hOpening.append hLegal).append (Ink.Legal.closeBrace (.inr rfl)), ?_⟩
    -- the last element has a comma as well, whether or not comments follow it
    have hEnd : endCode [some ","] [some ","] elements.entries = [some ","] := by
      unfold endCode
      split <;> rfl
    refine Value.coded_list hRun (hTail.imp_right fun hTail => ?_) 1 count (by simp)
    exact ⟨hTail.1.trans hEnd, v.along_ne_nil _ _ hTail.2⟩

/-! ### Promises -/

variable {t : Traits} {a : Assignment} {style : InkStyle}

omit hP hShows in
theorem legal_ident {l : Leaf} (h : l.Is (· = .ident)) : Ink.Legal .free [.word l.text] .word [some l.text] :=
  Ink.Legal.word (by decide) h.1 (by rw [h.2]; rfl)

/-- Statements start where anything may stand. -/
def FreeStart (pen : Pen) : Prop :=
  pen = .free

omit hP hShows in
theorem not_freeStart_note : ¬ FreeStart .note := by
  simp [FreeStart]

omit hShows in
/-- A statement with its comments is legal if it is legal without them. -/
theorem legal_statement (hHolds : t.Holds P) {own : Ink} {code : Code} {stop : Pen}
    (hOwn : Ink.Legal .free own stop code) (keeps : Option Bool) {pen : Pen} (hPen : FreeStart pen) :
    ∃ count, Ink.Legal pen (t.noted keeps own) stop (Code.breaks count ++ code) ∧
      ((∀ c, ¬ P c) → count = (t.afterBlank && keeps.getD t.keepsBlank).toNat) := by
  obtain ⟨count, hNoted, hCount⟩ := legal_node (hHolds.legible hP) keeps not_freeStart_note rfl
    (fun pen hPen => by obtain rfl := hPen; exact hOwn) hPen
  exact ⟨count, hNoted, fun hNone => hCount (hHolds.comments_nil hNone)⟩

/-- Attributes without their comments are legal. -/
theorem Assignment.legal_body (hFormed : a.Formed P) (hClosed : a.value.tally openTally = 0)
    (h : a.BodyInked braceless ink) :
    ∃ code, Ink.Legal .free ink .word code ∧ Attribute.Coded v.first gap
      { name := a.name.text
        value := (a.value.meaning v).bareIf (braceless && !functionAttributes.contains a.name.text) }
      code := by
  obtain @⟨right, mark, hGap, h⟩ := h
  obtain ⟨code, hLegal, hCoded⟩ := Value.legal hP hShows hFormed.value hClosed h
  obtain ⟨count, hMark⟩ := Ink.Legal.gap (by decide : Pen.word ≠ .note) hGap
  have hHead := ((legal_ident hFormed.name).append (Ink.Legal.space (by decide))).append Ink.Legal.assign
  refine ⟨_, (hHead.append hMark).append hLegal, ?_⟩
  exact .mk hFormed.name.2 hCoded

/-- Attributes of a promise are legal. -/
theorem Assignment.legal (hFormed : a.Constrains P) (hClosed : a.tally openTally = 0) :
    ItemLegal (∀ c, ¬ P c) Assignment.Inked (Attribute.Coded v.first gap) Assignment.traits
      (fun a => (a.meaning v).bare) FreeStart (· = .word) a := by
  rintro keeps own ⟨hOwn⟩ pen hPen
  obtain ⟨code, hLegal, hCoded⟩ :=
    Assignment.legal_body hP hShows hFormed.toFormed (Nat.add_eq_zero_iff.1 hClosed).2 hOwn
  obtain ⟨count, hNoted, hCount⟩ := legal_statement hP hFormed.holds hLegal keeps hPen
  refine ⟨.word, count, code, rfl, hNoted, ?_, hCount⟩
  change (a.meaning v).bare.Coded v.first gap code
  rw [Attribute.bare_eq]
  exact hCoded

omit hP hShows in
theorem legalStyle_constraints : LegalStyle constraintsInk (· = .word) (· = .word) [some ","] [some ";"] 1 0 where
  mark pen hPen := by
    subst hPen
    exact Ink.Legal.comma.append (Ink.Legal.newline .word)
  lastMark pen hPen := by
    subst hPen
    exact ⟨.word, rfl, Ink.Legal.semicolon (.inl rfl)⟩

theorem legal_promisee {promisee : Option Value} (hFormed : ∀ x ∈ promisee, x.Formed P)
    (hClosed : promisee.elim 0 (Value.tally openTally) = 0) (h : PromiseeInked promisee ink) :
    ∃ code, Ink.Legal .word ink .word code ∧
      PromiseeCoded v.first gap ((promisee.map (Value.meaning v)).map Abstract.Value.bare) code := by
  cases h with
  | none => exact ⟨[], Ink.Legal.nil .word, .none⟩
  | @some value right mark hGap h =>
    obtain ⟨code, hLegal, hCoded⟩ := Value.legal hP hShows (hFormed value rfl) hClosed h
    obtain ⟨count, hMark⟩ := Ink.Legal.gap (by decide : Pen.word ≠ .note) hGap
    have hHead := (hMark.append Ink.Legal.arrow).append (Ink.Legal.space (by decide))
    refine ⟨_, hHead.append hLegal, ?_⟩
    rw [List.append_nil, List.append_assoc]
    exact .some hCoded

theorem legal_constraints {constraints : ItemList Assignment}
    (hFormed : constraints.Formed P (Assignment.Constrains P)) (hEnds : constraints.EndsInItem)
    (hClosed : constraints.tally openTally (Assignment.tally openTally) = 0)
    (h : ConstraintsInked constraints.entries ink) :
    ∃ body, Ink.Legal .word ink .word (body ++ [some ";"]) ∧ Listed (Attribute.Coded v.first gap)
        ((constraints.items.map (Assignment.meaning v)).map Attribute.bare) body := by
  have hItem : ∀ a, .item a ∈ constraints.entries →
      ItemLegal (∀ c, ¬ P c) Assignment.Inked (Attribute.Coded v.first gap) Assignment.traits
        (fun a => (a.meaning v).bare) FreeStart (· = .word) a :=
    fun a ha => Assignment.legal hP hShows (hFormed.items a ha) (openTally_item hClosed ha)
  have hComments := hFormed.comments
  unfold ItemList.EndsInItem at hEnds
  unfold ItemList.items
  generalize constraints.entries = entries at h hItem hComments hEnds
  cases h with
  | none => exact ⟨[], Ink.Legal.semicolon (.inl rfl), .nil⟩
  | @some _ body mark hGap h =>
    have hLine : StartsLine constraintsInk 1 := ⟨by decide, rfl⟩
    obtain ⟨count, hMark⟩ := Ink.Legal.gap (by decide : Pen.word ≠ .note) hGap
    obtain ⟨stop, code, rfl, hLegal, hCoded⟩ := legal_entries legalStyle_constraints hP
      not_freeStart_note rfl h hItem (fun a ha => gapsAgree_blind _ _ _) (fun c hc => ⟨hComments c hc, hLine⟩)
      (fun c hc => absurd hc (hEnds c)) rfl
    obtain ⟨body, hCode, hRun⟩ := hCoded.run_ended h.ne_nil hEnds count
    refine ⟨body, ?_, by simpa [View.along_blind, Function.comp_def] using hRun⟩
    have hAll := hMark.append hLegal
    rw [hCode] at hAll
    simpa using hAll

omit hP hShows in
theorem legal_guard {g : Guard} (h : g.Formed P) :
    Ink.Legal .free [.word g.expression.text] .heading [some g.expression.text] :=
  Ink.Legal.word (by decide) h.expression.1 (by rw [h.expression.2]; rfl)

/-- Promises are legal. -/
theorem Promise.legal {p : Promise} (hFormed : p.Formed P) (hClosed : p.tally openTally = 0) :
    ItemLegal (∀ c, ¬ P c) Promise.Inked (Abstract.Promise.Coded v.first gap) Promise.traits
      (fun p => (p.meaning v).bare) FreeStart (· = .word) p := by
  rintro keeps own ⟨hPromisee, hBody⟩ pen hPen
  obtain ⟨hHead, hConstraints⟩ := Nat.add_eq_zero_iff.1 hClosed
  obtain ⟨right, hRight, hPromiseeCoded⟩ := legal_promisee hP hShows hFormed.promisee
    (Nat.add_eq_zero_iff.1 hHead).2 hPromisee
  obtain ⟨body, hBodyLegal, hBodyCoded⟩ :=
    legal_constraints hP hShows hFormed.constraints hFormed.ends hConstraints hBody
  have hPromiser : Ink.Legal .free [.word p.promiser.text] .word [some p.promiser.text] :=
    Ink.Legal.word (by decide) hFormed.promiser.1 (by rw [hFormed.promiser.2]; rfl)
  have hOwn := (hPromiser.append hRight).append hBodyLegal
  obtain ⟨count, hNoted, hCount⟩ := legal_statement hP hFormed.holds hOwn keeps hPen
  refine ⟨.word, count, _, rfl, hNoted, ?_, hCount⟩
  have hCoded : (p.meaning v).bare.Coded v.first gap (some p.promiser.text :: (right ++ body ++ [some ";"])) :=
    .mk hFormed.promiser.2 hPromiseeCoded hBodyCoded
  simpa using hCoded

/-- What stands under a promise type is legal. -/
theorem Clause.legal {c : Clause} (hFormed : c.Formed P) (hClosed : c.tally openTally = 0) :
    ItemLegal (∀ c, ¬ P c) Clause.Inked (Abstract.Clause.Coded v.first gap) Clause.traits
      (fun c => (c.meaning v).bare) FreeStart (fun _ => True) c := by
  intro keeps own hOwn pen hPen
  cases hOwn with
  | @guard g =>
    obtain ⟨count, hLegal, hCount⟩ :=
      legal_statement hP hFormed.holds (legal_guard hFormed) keeps hPen
    exact ⟨.heading, count, _, trivial, hLegal, .guard hFormed.expression.2, hCount⟩
  | @promise p _ h =>
    obtain ⟨stop, count, code, -, hLegal, hCoded, hCount⟩ :=
      Promise.legal hP hShows hFormed hClosed keeps own h pen hPen
    exact ⟨stop, count, code, trivial, hLegal, .promise hCoded, hCount⟩

omit hP hShows in
theorem legalStyle_clauses : LegalStyle clausesInk (fun _ => True) (fun _ => True) [] [] 1 0 where
  mark pen _ := Ink.Legal.newline pen
  lastMark pen _ := ⟨pen, trivial, Ink.Legal.nil pen⟩

omit hP in
theorem gapsAgree_notBeforeFirst (hStyle : style.keepsBlank = notBeforeFirst) (hRank : t.yields = none) :
    GapsAgree P style 1 v gap t := by
  intro previous count hCount
  refine hShows previous t count fun hNone => .inr ⟨?_, hRank⟩
  rw [hCount hNone, hStyle]
  rfl

/-- What stands under a promise type is legal after its name. -/
theorem legal_clauses {clauses : ItemList Clause} (hFormed : clauses.Formed P (Clause.Formed P))
    (hClosed : clauses.tally openTally (Clause.tally openTally) = 0) (h : ClausesInked clauses.entries ink) :
    ∃ stop body count, Ink.Legal .heading ink stop (body ++ Code.breaks count) ∧
      Run [] gap (Abstract.Clause.Coded v.first gap) v.first
        (v.along Clause.traits (fun c => (c.meaning v).bare) clauses.items) body := by
  have hItem : ∀ c, .item c ∈ clauses.entries →
      ItemLegal (∀ c, ¬ P c) Clause.Inked (Abstract.Clause.Coded v.first gap) Clause.traits
        (fun c => (c.meaning v).bare) FreeStart (fun _ => True) c :=
    fun c hc => Clause.legal hP hShows (hFormed.items c hc) (openTally_item hClosed hc)
  have hComments := hFormed.comments
  have hRanks : ∀ c, .item c ∈ clauses.entries → c.traits.yields = none :=
    fun c hc => (hFormed.items c hc).unranked
  unfold ItemList.items
  generalize clauses.entries = entries at h hItem hComments hRanks
  cases h with
  | none => exact ⟨.heading, [], 0, Ink.Legal.nil .heading, .nil⟩
  | @some _ body h =>
    have hLine : StartsLine clausesInk 1 := ⟨by decide, rfl⟩
    obtain ⟨stop, code, -, hLegal, hCoded⟩ := legal_entries legalStyle_clauses hP not_freeStart_note
      rfl h hItem (fun c hc => gapsAgree_notBeforeFirst hShows rfl (hRanks c hc))
      (fun c hc => ⟨hComments c hc, hLine⟩) (fun c hc => ⟨.note, 0, trivial, Ink.Legal.nil .note⟩) rfl
    obtain ⟨body, count, hCode, hRun⟩ := hCoded.run_plain 1
    refine ⟨stop, body, count, ?_, hRun⟩
    have hAll := (Ink.Legal.newline .heading).append hLegal
    rwa [hCode] at hAll

/-- Promise types are legal. -/
theorem PromiseType.legal {p : PromiseType} (hFormed : p.Formed P) (hClosed : p.tally openTally = 0) :
    ItemLegal (∀ c, ¬ P c) PromiseType.Inked (Abstract.PromiseType.Coded v.first gap)
      PromiseType.traits (fun p => (p.meaning v).bare) FreeStart (fun _ => True) p := by
  rintro keeps own ⟨hBody⟩ pen hPen
  obtain ⟨hHead, hClauses⟩ := Nat.add_eq_zero_iff.1 hClosed
  obtain ⟨stop, body, count, hBodyLegal, hRun⟩ :=
    legal_clauses hP hShows hFormed.clauses hClauses hBody
  have hWord : Ink.Legal .free [.word p.name.text] .heading [some p.name.text] :=
    Ink.Legal.word (by decide) hFormed.name.1 (by rw [hFormed.name.2]; rfl)
  obtain ⟨below, hName, hBelow⟩ := legal_statement hP hFormed.nameKeeps.1 hWord none rfl
  obtain ⟨above, hNoted, hAbove⟩ :=
    legal_statement hP hFormed.keeps.1 (hName.append hBodyLegal) keeps hPen
  have hCoded : (p.meaning v).bare.Coded v.first gap (some p.name.text :: (body ++ Code.breaks count)) := by
    refine .mk hFormed.name.2 ?_
    simpa [PromiseType.meaning, Abstract.PromiseType.bare, View.along_comp] using hRun
  refine ⟨stop, above + below, _, trivial, ?_, hCoded, fun hNone => ?_⟩
  · simpa [Code.breaks_add, Leaf.ink] using hNoted
  · have hZero : below = 0 := by simpa [hFormed.nameKeeps.2] using hBelow hNone
    rw [hAbove hNone, hZero, Nat.add_zero]

/-! ### Blocks -/

variable {brace : Option Leaf}

/-- What stands in a body is legal. -/
theorem Selection.legal {s : Selection} (hFormed : s.Formed P) (hClosed : s.tally openTally = 0) :
    ItemLegal (∀ c, ¬ P c) Selection.Inked (Abstract.Selection.Coded v.first gap) Selection.traits
      (Selection.meaning v) FreeStart (fun _ => True) s := by
  intro keeps own hOwn pen hPen
  cases hOwn with
  | @guard g =>
    obtain ⟨count, hLegal, hCount⟩ :=
      legal_statement hP hFormed.holds (legal_guard hFormed) keeps hPen
    exact ⟨.heading, count, _, trivial, hLegal, .guard hFormed.expression.2, hCount⟩
  | @assignment a own h =>
    obtain ⟨code, hBody, hCoded⟩ :=
      Assignment.legal_body hP hShows hFormed (Nat.add_eq_zero_iff.1 hClosed).2 h
    obtain ⟨count, hLegal, hCount⟩ := legal_statement hP hFormed.holds
      (hBody.append (Ink.Legal.semicolon (.inl rfl))) keeps hPen
    exact ⟨.word, count, _, trivial, hLegal, .assignment hCoded, hCount⟩

omit hP hShows in
theorem legalStyle_spaced : LegalStyle spacedInk (fun _ => True) FreeStart [] [] 2 1 where
  mark pen _ := (Ink.Legal.newline pen).append (Ink.Legal.newline .free)
  lastMark pen _ := ⟨.free, rfl, Ink.Legal.newline pen⟩

omit hP hShows in
theorem legalStyle_selections : LegalStyle selectionsInk (fun _ => True) FreeStart [] [] 1 1 where
  mark pen _ := Ink.Legal.newline pen
  lastMark pen _ := ⟨.free, rfl, Ink.Legal.newline pen⟩

omit hShows in
/-- The opening brace of a block is legal after a word. -/
theorem legal_openingInk (h : BraceFormed P "\x7b" brace) :
    ∃ count, Ink.Legal .word (openingInk brace) .word (Code.breaks count ++ [some "\x7b"]) := by
  obtain ⟨l, gap, -, hText, hKeeps, hInk, ⟨rfl, hNil⟩ | rfl⟩ := openingInk_cases h <;> rw [hInk, Leaf.ink, hText]
  · refine ⟨0, ?_⟩
    rw [noted_of_silent ⟨hNil, hKeeps.2⟩]
    exact (Ink.Legal.space (by decide : Pen.word ≠ .note)).append Ink.Legal.openBrace
  · obtain ⟨count, hLegal, -⟩ := legal_statement hP hKeeps.1 Ink.Legal.openBrace none rfl
    refine ⟨1 + count, ?_⟩
    simpa [Code.breaks_add] using (Ink.Legal.newline .word).append hLegal

omit hShows in
/-- The closing brace of a block is legal at the start of a line. -/
theorem legal_closingInk (h : BraceFormed P "\x7d" brace) :
    ∃ count, Ink.Legal .free (closingInk brace) .word (Code.breaks count ++ [some "\x7d"]) := by
  obtain ⟨l, -, hText, hKeeps, hInk⟩ := closingInk_eq h
  obtain ⟨count, hLegal, -⟩ := legal_statement hP hKeeps.1 (Ink.Legal.closeBrace (.inr rfl)) none rfl
  exact ⟨count, by rwa [hInk, Leaf.ink, hText]⟩

omit hShows in
/-- Lists in the braces of a block are legal. -/
theorem legal_block {α β ν : Type} {R : Option Bool → α → Ink → Prop} {F : α → Prop} {C : β → Code → Prop}
    {traits : α → Traits} {meaning : α → β} {w : View ν} {gaps : ν → Nat → Prop} {spaces : Nat} {g : ItemList α}
    (hFormed : g.Braced P F) (hStyle : LegalStyle style (fun _ => True) FreeStart [] [] spaces 1)
    (hAfter : style.after = [.newline]) (hLine : StartsLine style spaces)
    (hItem : ∀ x, .item x ∈ g.entries → ItemLegal (∀ c, ¬ P c) R C traits meaning FreeStart (fun _ => True) x)
    (hGap : ∀ x, .item x ∈ g.entries → GapsAgree P style spaces w gaps (traits x)) (h : BlockInked style R g ink) :
    ∃ before inner after, Ink.Legal .word ink .word (Code.breaks before ++
        some "\x7b" :: (inner ++ Code.breaks after ++ [some "\x7d"])) ∧
      Run [] gaps C w.first (w.along traits meaning g.items) inner := by
  obtain ⟨before, hOpening⟩ := legal_openingInk hP hFormed.opening
  obtain ⟨after, hClosing⟩ := legal_closingInk hP hFormed.closing
  cases h with
  | empty hEntries =>
    refine ⟨before, [], 1 + after, ?_, ?_⟩
    · simpa [Code.breaks_add] using (hOpening.append (Ink.Legal.newline .word)).append hClosing
    · rw [ItemList.items, hEntries]
      exact .nil
  | @some inner h =>
    obtain ⟨stop, code, rfl, hLegal, hCoded⟩ := legal_entries hStyle hP not_freeStart_note rfl h
      hItem hGap (fun c hc => ⟨hFormed.comments c hc, hLine⟩)
      (fun c hc => ⟨.free, 1, rfl, hAfter ▸ Ink.Legal.newline .note⟩) rfl
    obtain ⟨body, count, hCode, hRun⟩ := hCoded.run_plain 1
    refine ⟨before, body, count + after, ?_, hRun⟩
    have hInner := (Ink.Legal.newline .word).append hLegal
    rw [hCode] at hInner
    simpa [Code.breaks_add] using (hOpening.append hInner).append hClosing

/-- What stands between the braces of a block is legal. -/
theorem Contents.legal {c : Contents} (hFormed : c.Formed P) (hClosed : c.tally openTally = 0) (h : c.Inked ink) :
    ∃ before code, Ink.Legal .word ink .word (Code.breaks before ++ code) ∧
      (c.meaning v).bare.Coded v.first gap code := by
  cases h with
  | @bundle statements _ h =>
    obtain ⟨hHead, -⟩ := Nat.add_eq_zero_iff.1 hClosed
    have hItem : ∀ p, .item p ∈ statements.entries →
        ItemLegal (∀ c, ¬ P c) PromiseType.Inked (Abstract.PromiseType.Coded v.first gap)
          PromiseType.traits (fun p => (p.meaning v).bare) FreeStart (fun _ => True) p :=
      fun p hp => PromiseType.legal hP hShows (hFormed.items p hp) (openTally_item (Nat.add_eq_zero_iff.1 hHead).2 hp)
    obtain ⟨before, inner, after, hLegal, hRun⟩ := legal_block hP hFormed legalStyle_spaced rfl
      ⟨by decide, rfl⟩ hItem (fun p hp => gapsAgree_blind _ _ _) h
    refine ⟨before, _, hLegal, ?_⟩
    rw [View.along_blind] at hRun
    refine .bundle ?_
    simpa [Function.comp_def] using hRun
  | @body selections _ h =>
    obtain ⟨hHead, -⟩ := Nat.add_eq_zero_iff.1 hClosed
    have hItem : ∀ s, .item s ∈ selections.entries →
        ItemLegal (∀ c, ¬ P c) Selection.Inked (Abstract.Selection.Coded v.first gap)
          Selection.traits (Selection.meaning v) FreeStart (fun _ => True) s :=
      fun s hs => Selection.legal hP hShows (hFormed.1.items s hs) (openTally_item (Nat.add_eq_zero_iff.1 hHead).2 hs)
    obtain ⟨before, inner, after, hLegal, hRun⟩ := legal_block hP hFormed.1 legalStyle_selections rfl
      ⟨by decide, rfl⟩ hItem (fun s hs => gapsAgree_notBeforeFirst hShows rfl (hFormed.1.items s hs).unranked) h
    refine ⟨before, _, hLegal, .body ?_ hRun⟩
    obtain ⟨first, rest, hItems⟩ := List.exists_cons_of_ne_nil hFormed.2
    simp [hItems, View.along]

omit hShows in
/-- The parameters of a block are legal after its name. -/
theorem legal_parameters {parameters : ItemList Leaf} (hFormed : parameters.Formed P (Leaf.IsParameter P))
    (hEnds : parameters.EndsInItem)
    (h : ArgumentsInked true (fun keeps l own => own = Leaf.ink keeps l) parameters.entries ink) :
    ∃ code, Ink.Legal .word ink .word code ∧ ParametersCoded (parameters.items.map Leaf.text) code := by
  have hNote : ¬ ElementStart .note := by simp [ElementStart]
  have hItem : ∀ l, .item l ∈ parameters.entries →
      ItemLegal (∀ c, ¬ P c) (fun keeps l own => own = Leaf.ink keeps l) (Word (· = .ident))
        Leaf.traits Leaf.text ElementStart (· = .word) l := by
    rintro l hl keeps own rfl pen hPen
    obtain ⟨hWord, hKeeps⟩ := hFormed.items l hl
    have hLegal : ∀ pen, ElementStart pen → Ink.Legal pen [.word l.text] .word [some l.text] :=
      fun pen hPen => Ink.Legal.word (fun hSame => hNote (hSame ▸ hPen)) hWord.1
        (write_element hPen (by rw [hWord.2]; rfl))
    obtain ⟨count, hNoted, hCount⟩ :=
      legal_node (hKeeps.1.legible hP) keeps hNote (.inl rfl) hLegal hPen
    exact ⟨.word, count, _, rfl, hNoted, .mk hWord.2, fun hNone => hCount (hKeeps.1.comments_nil hNone)⟩
  rcases legal_arguments hP h hItem hFormed.comments hEnds with
    ⟨-, hEntries, rfl⟩ | ⟨-, inner, hLegal, hInner⟩
  · refine ⟨[], Ink.Legal.nil .word, ?_⟩
    rw [ItemList.items, hEntries]
    exact .none
  · exact ⟨_, hLegal, .some hInner⟩

/-- Blocks are legal. -/
theorem Block.legal {b : Block} (hFormed : b.Formed P) (hClosed : b.tally openTally = 0) :
    ItemLegal (∀ c, ¬ P c) Block.Inked (Abstract.Block.Coded v.first gap) Block.traits
      (fun b => { b.meaning v with contents := (b.contents.meaning v).bare }) FreeStart
      (fun _ => True) b := by
  rintro keeps own ⟨hParameters, hContents⟩ pen hPen
  obtain ⟨hHead, hContentsClosed⟩ := Nat.add_eq_zero_iff.1 hClosed
  obtain ⟨-, hEnds⟩ := openTally_brackets (Nat.add_eq_zero_iff.1 hHead).2
  obtain ⟨brackets, hBrackets, hBracketsCoded⟩ :=
    legal_parameters hP hFormed.parameters hEnds hParameters
  obtain ⟨before, inner, hInner, hInnerCoded⟩ :=
    Contents.legal hP hShows hFormed.contents hContentsClosed hContents
  have hKeyword : Ink.Legal .free [.word b.keyword.text] .word [some (b.contents.meaning v).bare.keyword] := by
    rw [hFormed.keyword]
    cases b.contents with
    | bundle statements => exact Ink.Legal.bundle
    | body selections => exact Ink.Legal.body
  have hSpace : Ink.Legal .word [.space] .free [] := Ink.Legal.space (by decide)
  have hNames := (((hKeyword.append hSpace).append (legal_ident hFormed.type)).append hSpace).append
    (legal_ident hFormed.name)
  obtain ⟨count, hNoted, hCount⟩ := legal_statement hP hFormed.keeps.1
    ((hNames.append hBrackets).append hInner) keeps hPen
  have hCoded : Abstract.Block.Coded v.first gap
      { b.meaning v with contents := (b.contents.meaning v).bare }
      (some (b.contents.meaning v).bare.keyword :: some b.type.text :: some b.name.text ::
        (brackets ++ Code.breaks before ++ inner)) :=
    .mk hFormed.type.2 hFormed.name.2 hBracketsCoded hInnerCoded
  exact ⟨.word, count, _, trivial, by simpa using hNoted, hCoded, hCount⟩

/-- The inks of a policy file whose bracketed lists are closed are legal, and have the code of what
the file says. -/
theorem Specification.legal {s : Specification} (hFormed : Specification.Formed P s)
    (hClosed : Specification.tally openTally s = 0) (h : Specification.Inked s ink) :
    ∃ stop code, Ink.Legal .free ink stop code ∧ (Specification.meaning v s).bare.Coded v.first gap code := by
  have hItem : ∀ b, .item b ∈ ItemList.entries s →
      ItemLegal (∀ c, ¬ P c) Block.Inked (Abstract.Block.Coded v.first gap) Block.traits
        (fun b => { b.meaning v with contents := (b.contents.meaning v).bare }) FreeStart
        (fun _ => True) b :=
    fun b hb => Block.legal hP hShows (hFormed.items b hb) (openTally_item hClosed hb)
  have hMeaning : (Specification.meaning v s).bare =
      (ItemList.items s).map (fun b => { b.meaning v with contents := (b.contents.meaning v).bare }) := by
    simp [Specification.meaning, Document.bare, Block.meaning]
  rw [hMeaning]
  cases h with
  | empty hEntries =>
    refine ⟨.free, [], Ink.Legal.nil .free, ?_⟩
    rw [ItemList.items, hEntries]
    have hNil : Abstract.Lines (Abstract.Block.Coded v.first gap) [] [] := .nil
    exact (.mk hNil : Document.Coded v.first gap [] ([] ++ Code.breaks 0))
  | some h =>
    obtain ⟨stop, code, -, hLegal, hCoded⟩ := legal_entries legalStyle_spaced hP not_freeStart_note
      rfl h hItem (fun b hb => gapsAgree_blind _ _ _)
      (fun c hc => ⟨hFormed.comments c hc, by decide, rfl⟩)
      (fun c hc => ⟨.free, 1, rfl, Ink.Legal.newline .note⟩) rfl
    obtain ⟨body, count, rfl, hRun⟩ := hCoded.run_plain 0
    refine ⟨stop, _, hLegal, .mk ?_⟩
    rwa [View.along_blind] at hRun

end

end PolicyFormat.Policy
