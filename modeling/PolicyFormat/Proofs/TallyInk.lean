import PolicyFormat.Proofs.ListLayout
import PolicyFormat.Proofs.Tally

/-! The inks of a tree add up to what the tree adds up to. -/
namespace PolicyFormat.Policy

open Layout

variable {ink : Ink} {keeps : Option Bool}

variable {M : Type} [AddCommMonoid M] (t : Tally M)

/-! ### Sums over inks -/

/-- The sum of an ink. -/
def inkTally (weight : Mark → M) (ink : Ink) : M :=
  (ink.map weight).sum

/-- The two sums of an ink differ by the given amount. -/
def Differs (φ ψ : Mark → M) (ink : Ink) (amount : M) : Prop :=
  inkTally φ ink = inkTally ψ ink + amount

/-- The two weights of a mark differ by what the mark counts. They may only differ for comment lines
and for round brackets, and a pair of brackets makes no difference. -/
structure Tally.Weighs (t : Tally M) (φ ψ : Mark → M) : Prop where
  space : φ .space = ψ .space
  newline : φ .newline = ψ .newline
  word : ∀ text, text ≠ "(" → text ≠ ")" → φ (.word text) = ψ (.word text)
  pair : φ (.word "(") + φ (.word ")") = ψ (.word "(") + ψ (.word ")")
  opening : φ (.word "(") = ψ (.word "(") + t.unclosed
  note : ∀ line, φ (.note (normalNote line)) = ψ (.note (normalNote line)) + t.note line
  tail : ∀ spaced line, φ (.tail spaced (normalNote line)) = ψ (.tail spaced (normalNote line)) + t.note line
  hidden : ∀ line, t.hidden line = 0

@[simp] theorem inkTally_nil (weight : Mark → M) : inkTally weight [] = 0 := rfl

@[simp] theorem inkTally_cons (weight : Mark → M) (mark : Mark) (ink : Ink) :
    inkTally weight (mark :: ink) = weight mark + inkTally weight ink := by
  simp [inkTally]

@[simp] theorem inkTally_append (weight : Mark → M) (a b : Ink) :
    inkTally weight (a ++ b) = inkTally weight a + inkTally weight b := by
  simp [inkTally]

theorem filterMap_getElem?_range {α : Type} (xs : List α) :
    (List.range xs.length).filterMap (fun i => xs[i]?) = xs := by
  induction xs with
  | nil => rfl
  | cons x xs ih =>
    rw [List.length_cons, List.range_succ_eq_map, List.filterMap_cons, List.filterMap_map]
    simpa [Function.comp_def] using ih

/-- The comments of a node are those above it and the one at its end. -/
theorem Traits.leading_append_tail_perm (x : Traits) : (x.leading ++ (x.tail?.map (·.2)).toList).Perm x.comments := by
  have hAll := filterMap_getElem?_range x.comments
  unfold Traits.leading Traits.leadingIndices
  cases hTail : x.tail? with
  | none =>
    have hKept : (List.range x.comments.length).filter (fun i => none != some i) = List.range x.comments.length :=
      List.filter_eq_self.2 fun _ _ => rfl
    simp [hKept, hAll]
  | some found =>
    obtain ⟨i, c⟩ := found
    have hGet := getElem?_of_tail? hTail
    have hMem : i ∈ List.range x.comments.length :=
      List.mem_range.2 (List.getElem?_eq_some_iff.1 hGet).1
    have hKept : (List.range x.comments.length).filter (fun j => some i != some j) =
        (List.range x.comments.length).erase i := by
      rw [List.nodup_range.erase_eq_filter]
      apply List.filter_congr
      intro j _
      simp [bne, Bool.beq_comm]
    have hPerm := (List.perm_cons_erase hMem).filterMap (fun i => x.comments[i]?)
    rw [hAll, List.filterMap_cons, hGet] at hPerm
    simpa [hKept] using (List.perm_append_singleton _ _).trans hPerm.symm

section

variable {t} {φ ψ : Mark → M}

namespace Differs

theorem nil : Differs φ ψ [] 0 := by
  simp [Differs]

theorem append {a b : Ink} {m n : M} (ha : Differs φ ψ a m) (hb : Differs φ ψ b n) :
    Differs φ ψ (a ++ b) (m + n) := by
  unfold Differs at *
  rw [inkTally_append, inkTally_append, ha, hb]
  abel

theorem cons {mark : Mark} {ink : Ink} {m : M} (hMark : φ mark = ψ mark) (h : Differs φ ψ ink m) :
    Differs φ ψ (mark :: ink) m := by
  unfold Differs at *
  rw [inkTally_cons, inkTally_cons, h, hMark]
  abel

theorem flatMap {β : Type} {f : β → Ink} {g : β → M} (h : ∀ x, Differs φ ψ (f x) (g x)) (xs : List β) :
    Differs φ ψ (xs.flatMap f) (xs.map g).sum := by
  induction xs with
  | nil => exact nil
  | cons x xs ih =>
    rw [List.flatMap_cons, List.map_cons, List.sum_cons]
    exact (h x).append ih

end Differs

variable (hWeighs : t.Weighs φ ψ)
include hWeighs

theorem Comment.differs_aboveInk (c : Comment) : Differs φ ψ c.aboveInk (c.tally t) := by
  refine Differs.flatMap (fun line => ?_) c.lines
  simp [Differs, hWeighs.note, hWeighs.newline]
  abel

theorem Comment.differs_ownInk (c : Comment) : Differs φ ψ c.ownInk (c.tally t) := by
  unfold Comment.ownInk Comment.tally
  induction c.lines with
  | nil => exact Differs.nil
  | cons line lines ih =>
    cases lines with
    | nil => simp [Differs, hWeighs.note]
    | cons next lines =>
      simp only [List.map_cons, List.intersperse_cons_cons, List.sum_cons] at ih ⊢
      have hLine : Differs φ ψ [.note (normalNote line), .newline] (t.note line) := by
        simp [Differs, hWeighs.note, hWeighs.newline]
        abel
      exact hLine.append ih

theorem Comment.differs_tailInk (c : Comment) : Differs φ ψ c.tailInk (c.tally t) := by
  unfold Comment.tailInk Comment.tally
  cases c.lines with
  | nil => exact Differs.nil
  | cons line lines =>
    have hFirst : Differs φ ψ [.tail true (normalNote line)] (t.note line) := by
      simp [Differs, hWeighs.tail]
    have hEach : ∀ line, Differs φ ψ [.tail false (normalNote line)] (t.note line) := by
      simp [Differs, hWeighs.tail]
    have hRest := Differs.flatMap hEach lines
    rw [← List.map_eq_flatMap] at hRest
    exact hFirst.append hRest

theorem differs_blankInk (kept : Bool) : Differs φ ψ (blankInk kept) 0 := by
  cases kept <;> simp [blankInk, Differs, hWeighs.newline]

theorem Comment.differs_noted (keeps : Option Bool) (c : Comment) : Differs φ ψ (c.noted keeps) (c.tally t) := by
  have h : Differs φ ψ (c.noted keeps) (0 + c.tally t) :=
    (differs_blankInk hWeighs _).append (c.differs_ownInk hWeighs)
  rwa [zero_add] at h

theorem Traits.differs_noted (x : Traits) (keeps : Option Bool) {own : Ink} {m : M}
    (h : Differs φ ψ own m) : Differs φ ψ (x.noted keeps own) (x.tally t + m) := by
  have hTail : Differs φ ψ (x.tail?.elim [] (·.2.tailInk))
      ((x.tail?.map (·.2)).toList.map (Comment.tally t)).sum := by
    cases x.tail? with
    | none => exact Differs.nil
    | some found => simpa using found.2.differs_tailInk hWeighs
  have hAbove := Differs.flatMap (fun c : Comment => c.differs_aboveInk hWeighs) x.leading
  have hSum : x.tally t = (x.leading.map (Comment.tally t)).sum +
      ((x.tail?.map (·.2)).toList.map (Comment.tally t)).sum := by
    rw [Traits.tally, ← (x.leading_append_tail_perm.map (Comment.tally t)).sum_eq]
    simp
  have hAll : Differs φ ψ (x.noted keeps own) _ :=
    (((differs_blankInk hWeighs _).append hAbove).append h).append hTail
  rw [zero_add] at hAll
  rw [hSum, add_right_comm]
  exact hAll

theorem Leaf.differs_ink {l : Leaf} (hWord : φ (.word l.text) = ψ (.word l.text)) (keeps : Option Bool) :
    Differs φ ψ (l.ink keeps) (l.tally t) := by
  have h : Differs φ ψ (l.ink keeps) _ := l.traits.differs_noted hWeighs keeps (Differs.nil.cons hWord)
  rwa [add_zero] at h

namespace Tally.Weighs

theorem gap {gap : Mark} (hGap : gap = .space ∨ gap = .newline) : φ gap = ψ gap := by
  rcases hGap with rfl | rfl
  · exact hWeighs.space
  · exact hWeighs.newline

theorem differs_word (text : String) (hOpening : text ≠ "(") (hClosing : text ≠ ")") : Differs φ ψ [.word text] 0 :=
  Differs.nil.cons (hWeighs.word _ hOpening hClosing)

theorem differs_space : Differs φ ψ [.space] 0 :=
  Differs.nil.cons hWeighs.space

theorem differs_newline : Differs φ ψ [.newline] 0 :=
  Differs.nil.cons hWeighs.newline

theorem differs_comma : Differs φ ψ [.word ","] 0 :=
  hWeighs.differs_word _ (by decide) (by decide)

theorem leaf {kinds : TokenKind → Prop} {l : Leaf} (h : l.Is kinds) (hOpening : ¬ kinds .openParen)
    (hClosing : ¬ kinds .closeParen) : φ (.word l.text) = ψ (.word l.text) :=
  hWeighs.word _ (fun hText => hOpening (Lexeme.kindOf_openParen ▸ hText ▸ h.2))
    fun hText => hClosing (Lexeme.kindOf_closeParen ▸ hText ▸ h.2)

end Tally.Weighs

end

/-! ### Lists -/

/-- What stands after the last entry of a list. -/
def InkStyle.ends {α : Type} (style : InkStyle) (entries : List (Entry α)) : Ink :=
  match entries.getLast? with
  | some (.item _) => style.lastMark
  | _ => []

section

variable {α : Type} {style : InkStyle} {R : Option Bool → α → Ink → Prop} {f : α → M} {isFirst : Bool}
  {entries : List (Entry α)} {ink : Ink} {t} {φ ψ : Mark → M}

theorem InkStyle.ends_cons (style : InkStyle) (entry : Entry α) (hEntries : entries ≠ []) :
    style.ends (entry :: entries) = style.ends entries := by
  obtain ⟨next, rest, rfl⟩ := List.exists_cons_of_ne_nil hEntries
  simp [InkStyle.ends]

/-- The ink of a list adds up to the inks of its entries and what stands after the last of them. -/
theorem EntriesInked.differs (hWeighs : t.Weighs φ ψ) (hMark : Differs φ ψ style.mark 0)
    (hBetween : Differs φ ψ style.between 0) (hAfter : Differs φ ψ style.after 0)
    (hItem : ∀ x, .item x ∈ entries → ∀ keeps own, R keeps x own → Differs φ ψ own (f x))
    (h : EntriesInked style R isFirst entries ink) :
    ∃ body, Differs φ ψ body (entries.map (Entry.tally t f)).sum ∧
      ∀ weight : Mark → M, inkTally weight ink = inkTally weight body + inkTally weight (style.ends entries) := by
  induction h with
  | @lastItem isFirst x own hOwn =>
    refine ⟨own ++ style.after, ?_, fun weight => ?_⟩
    · simpa [Entry.tally] using (hItem x (by simp) _ _ hOwn).append hAfter
    · simp only [inkTally_append, InkStyle.ends, List.getLast?_singleton]
      abel
  | @lastComment isFirst c =>
    refine ⟨c.noted (style.keepsBlank isFirst) ++ style.after, ?_, fun weight => ?_⟩
    · simpa [Entry.tally] using (c.differs_noted hWeighs _).append hAfter
    · simp [InkStyle.ends]
  | @item isFirst x rest own more hOwn hMore ih =>
    obtain ⟨body, hBody, hSum⟩ := ih (fun y hy => hItem y (by simp [hy]))
    refine ⟨own ++ style.mark ++ style.after ++ style.between ++ body, ?_, fun weight => ?_⟩
    · simpa [Entry.tally] using
        ((((hItem x (by simp) _ _ hOwn).append hMark).append hAfter).append hBetween).append hBody
    · simp only [inkTally_append, hSum, InkStyle.ends_cons style _ hMore.ne_nil, add_assoc]
  | @comment isFirst c rest more hMore ih =>
    obtain ⟨body, hBody, hSum⟩ := ih (fun y hy => hItem y (by simp [hy]))
    refine ⟨c.noted (style.keepsBlank isFirst) ++ style.after ++ style.between ++ body, ?_, fun weight => ?_⟩
    · simpa [Entry.tally] using (((c.differs_noted hWeighs _).append hAfter).append hBetween).append hBody
    · simp only [inkTally_append, hSum, InkStyle.ends_cons style _ hMore.ne_nil, add_assoc]

/-- The ink of a list adds up to the inks of its entries if what stands after the last makes no
difference. -/
theorem EntriesInked.differs_even (hWeighs : t.Weighs φ ψ) (hMark : Differs φ ψ style.mark 0)
    (hBetween : Differs φ ψ style.between 0) (hAfter : Differs φ ψ style.after 0)
    (hLast : Differs φ ψ style.lastMark 0)
    (hItem : ∀ x, .item x ∈ entries → ∀ keeps own, R keeps x own → Differs φ ψ own (f x))
    (h : EntriesInked style R isFirst entries ink) :
    Differs φ ψ ink (entries.map (Entry.tally t f)).sum := by
  obtain ⟨body, hBody, hSum⟩ := h.differs hWeighs hMark hBetween hAfter hItem
  have hEnds : Differs φ ψ (style.ends entries) 0 := by
    unfold InkStyle.ends
    split
    · exact hLast
    · exact Differs.nil
  have hAll := hBody.append hEnds
  rw [add_zero] at hAll
  unfold Differs at *
  rwa [hSum, hSum, ← inkTally_append, ← inkTally_append]

/-- The ink of arguments with their brackets. -/
theorem ArgumentsInked.differs {braceless : Bool} (hWeighs : t.Weighs φ ψ)
    (hItem : ∀ x, .item x ∈ entries → ∀ keeps own, R keeps x own → Differs φ ψ own (f x))
    (h : ArgumentsInked braceless R entries ink) :
    Differs φ ψ ink ((entries.map (Entry.tally t f)).sum + unclosedTally t entries) := by
  have hPair : ∀ body m, Differs φ ψ body m → Differs φ ψ ([.word "("] ++ body ++ [.word ")"]) m := by
    intro body m hBody
    unfold Differs at *
    simp only [inkTally_append, inkTally_cons, inkTally_nil, hBody, add_zero]
    rw [add_right_comm, hWeighs.pair]
    abel
  cases h with
  | none => simpa [unclosedTally] using Differs.nil
  | empty => simpa [unclosedTally] using hPair [] 0 Differs.nil
  | @inline _ inner hItems h =>
    have hClosed : unclosedTally t entries = 0 := by
      unfold unclosedTally
      split
      · next c hLast => exact absurd (List.mem_of_getLast? hLast) (hItems c)
      · rfl
    rw [hClosed, add_zero]
    exact hPair _ _ (h.differs_even hWeighs hWeighs.differs_comma hWeighs.differs_space Differs.nil Differs.nil hItem)
  | @lined _ inner h =>
    obtain ⟨body, hBody, hSum⟩ := h.differs hWeighs hWeighs.differs_comma hWeighs.differs_newline Differs.nil hItem
    obtain ⟨init, last, hEntries⟩ := (List.eq_nil_or_concat entries).resolve_left h.ne_nil
    cases last with
    | item x =>
      have hEnds : argumentsInk.ends entries = [.word ")"] := by
        simp [InkStyle.ends, hEntries, argumentsInk]
      have hClosed : unclosedTally t entries = 0 := by simp [unclosedTally, hEntries]
      rw [hClosed, add_zero]
      simpa only [Differs, inkTally_append, hSum, hEnds, add_assoc] using hPair _ _ hBody
    | comment c =>
      have hEnds : argumentsInk.ends entries = [] := by simp [InkStyle.ends, hEntries]
      have hClosed : unclosedTally t entries = t.unclosed := by simp [unclosedTally, hEntries]
      unfold Differs at *
      simp only [inkTally_append, inkTally_cons, inkTally_nil, hSum, hEnds, hClosed, hBody, hWeighs.opening, add_zero]
      abel

end

/-! ### The constructs of a policy -/

theorem Value.tally_list {t : Tally M} {φ ψ : Mark → M} (hWeighs : t.Weighs φ ψ) (elements : ItemList Element) :
    (Value.list elements).tally t = elements.tally t (Element.tally t) := by
  have hLine : t.hidden = fun _ => 0 := funext hWeighs.hidden
  have hComment : Comment.hiddenTally t = fun _ => 0 := by
    funext c
    simp [Comment.hiddenTally, hLine]
  cases hClosing : elements.closing <;> simp [Value.tally, hClosing, hComment]

section

variable {t} {φ ψ : Mark → M} {P : Comment → Prop}

variable (hWeighs : t.Weighs φ ψ)
include hWeighs

theorem Element.differs {braceless keepsBlank : Bool} {e : Element} (hFormed : e.Formed P keepsBlank)
    (h : e.Inked braceless keeps ink) :
    Differs φ ψ ink (e.tally t) := by
  induction e using Element.induction generalizing keepsBlank keeps ink with
  | leaf word =>
    cases hFormed with
    | leaf hWord hHolds hKeeps =>
      cases h with
      | leaf =>
        rw [Element.tally_leaf]
        exact Leaf.differs_ink hWeighs (hWeighs.leaf hWord (by decide) (by decide)) _
  | call traits name arguments ih =>
    cases hFormed with
    | call hHolds hKeeps hName hNameSilent hSilent hItems hComments =>
      cases h with
      | @call _ _ _ _ brackets h =>
        rw [Element.tally_call]
        have hBrackets := h.differs hWeighs (f := Element.tally t) fun e he keeps own hOwn =>
          ih e (ItemList.mem_items.2 he) (hItems e he) hOwn
        exact traits.differs_noted hWeighs _ (hBrackets.cons (hWeighs.leaf hName (by decide) (by decide)))

theorem Value.differs {braceless : Bool} {v : Value} (hFormed : v.Formed P) (h : v.Inked braceless ink) :
    Differs φ ψ ink (v.tally t) := by
  have hBrace : ∀ body m, Differs φ ψ body m → Differs φ ψ (.word "\x7b" :: (body ++ [.word "\x7d"])) m := by
    intro body m hBody
    have hAll := hBody.append (hWeighs.differs_word "\x7d" (by decide) (by decide))
    rw [add_zero] at hAll
    exact hAll.cons (hWeighs.word "\x7b" (by decide) (by decide))
  cases h with
  | single h => exact Element.differs hWeighs hFormed.1 h
  | @empty elements hEntries =>
    rw [Value.tally_list hWeighs, ItemList.tally, hEntries]
    exact hBrace [] 0 Differs.nil
  | @inline elements inner hItems hMarks _ h =>
    rw [Value.tally_list hWeighs]
    have hInner := h.differs_even hWeighs hWeighs.differs_comma hWeighs.differs_space Differs.nil Differs.nil
      fun e he keeps own hOwn => Element.differs hWeighs (hFormed.items e he) hOwn
    have hBody := (hWeighs.differs_space.append hInner).append hWeighs.differs_space
    rw [zero_add, add_zero] at hBody
    simpa [ItemList.tally] using hBrace _ _ hBody
  | @lined elements inner _ _ h =>
    rw [Value.tally_list hWeighs]
    have hInner := h.differs_even hWeighs hWeighs.differs_comma Differs.nil hWeighs.differs_newline
      hWeighs.differs_comma fun e he keeps own hOwn => Element.differs hWeighs (hFormed.items e he) hOwn
    have hBody := hWeighs.differs_newline.append hInner
    rw [zero_add] at hBody
    simpa [ItemList.tally] using hBrace _ _ hBody

theorem Assignment.differs_body {braceless : Bool} {a : Assignment} (hFormed : a.Formed P)
    (h : a.BodyInked braceless ink) : Differs φ ψ ink (a.value.tally t) := by
  cases h with
  | mk hGap h =>
    have hValue := Value.differs hWeighs hFormed.value h
    exact (((hValue.cons (hWeighs.gap hGap)).cons (hWeighs.word _ (by decide) (by decide))).cons
      hWeighs.space).cons (hWeighs.leaf hFormed.name (by decide) (by decide))

theorem Assignment.differs {a : Assignment} (hFormed : a.Formed P) (h : a.Inked keeps ink) :
    Differs φ ψ ink (a.tally t) := by
  cases h with
  | mk h => exact a.traits.differs_noted hWeighs _ (a.differs_body hWeighs hFormed h)

theorem Promise.differs {p : Promise} (hFormed : p.Formed P) (h : p.Inked keeps ink) :
    Differs φ ψ ink (p.tally t) := by
  obtain @⟨right, body, hPromisee, hBody⟩ := h
  have hRight : Differs φ ψ right (p.promisee.elim 0 (Value.tally t)) := by
    have hValue := hFormed.promisee
    generalize p.promisee = promisee at hPromisee hValue
    cases hPromisee with
    | none => exact Differs.nil
    | some hGap h =>
      have hDiffers := Value.differs hWeighs (hValue _ rfl) h
      exact ((hDiffers.cons hWeighs.space).cons (hWeighs.word _ (by decide) (by decide))).cons (hWeighs.gap hGap)
  have hConstraints : Differs φ ψ body (p.constraints.tally t (Assignment.tally t)) := by
    have hItems := hFormed.constraints.items
    unfold ItemList.tally
    generalize p.constraints.entries = entries at hBody hItems
    have hSemicolon : Differs φ ψ [.word ";"] 0 := hWeighs.differs_word _ (by decide) (by decide)
    cases hBody with
    | none => exact hSemicolon
    | some hGap h =>
      have hDiffers := h.differs_even hWeighs hWeighs.differs_comma hWeighs.differs_newline Differs.nil hSemicolon
        fun a ha keeps own hOwn => Assignment.differs hWeighs (hItems a ha).toFormed hOwn
      exact hDiffers.cons (hWeighs.gap hGap)
  have hOwn := (hRight.append hConstraints).cons (hWeighs.leaf hFormed.promiser (by decide) (by decide))
  have hAll := p.traits.differs_noted hWeighs keeps hOwn
  rw [← add_assoc] at hAll
  exact hAll

theorem Guard.differs {g : Guard} (hFormed : g.Formed P) (keeps : Option Bool) :
    Differs φ ψ (g.ink keeps) (g.traits.tally t) := by
  have h : Differs φ ψ (g.ink keeps) _ :=
    g.traits.differs_noted hWeighs keeps (Differs.nil.cons (hWeighs.leaf hFormed.expression (by decide) (by decide)))
  rwa [add_zero] at h

theorem Clause.differs {c : Clause} (hFormed : c.Formed P) (h : c.Inked keeps ink) : Differs φ ψ ink (c.tally t) := by
  cases h with
  | guard => exact Guard.differs hWeighs hFormed keeps
  | promise h => exact Promise.differs hWeighs hFormed h

theorem PromiseType.differs {p : PromiseType} (hFormed : p.Formed P) (h : p.Inked keeps ink) :
    Differs φ ψ ink (p.tally t) := by
  obtain @⟨body, h⟩ := h
  have hBody : Differs φ ψ body (p.clauses.tally t (Clause.tally t)) := by
    have hItems := hFormed.clauses.items
    unfold ItemList.tally
    generalize p.clauses.entries = entries at h hItems
    cases h with
    | none => exact Differs.nil
    | some h =>
      have hClauses := h.differs_even hWeighs Differs.nil hWeighs.differs_newline Differs.nil Differs.nil
        fun c hc keeps own hOwn => Clause.differs hWeighs (hItems c hc) hOwn
      exact hClauses.cons hWeighs.newline
  have hAll := p.traits.differs_noted hWeighs keeps
    ((Leaf.differs_ink hWeighs (hWeighs.leaf hFormed.name (by decide) (by decide)) none).append hBody)
  rw [← add_assoc] at hAll
  exact hAll

theorem Selection.differs {s : Selection} (hFormed : s.Formed P) (h : s.Inked keeps ink) :
    Differs φ ψ ink (s.tally t) := by
  cases h with
  | guard => exact Guard.differs hWeighs hFormed keeps
  | @assignment a own h =>
    have hOwn := (a.differs_body hWeighs hFormed h).append (hWeighs.differs_word ";" (by decide) (by decide))
    rw [add_zero] at hOwn
    exact a.traits.differs_noted hWeighs keeps hOwn

theorem differs_openingInk {brace : Option Leaf} (h : BraceFormed P "\x7b" brace) :
    Differs φ ψ (openingInk brace) (brace.elim 0 (Leaf.tally t)) := by
  obtain ⟨l, gap, rfl, hText, -, hInk, hGap⟩ := openingInk_cases h
  rw [hInk]
  exact (Leaf.differs_ink hWeighs (hWeighs.word _ (by simp [hText]) (by simp [hText])) none).cons
    (hWeighs.gap (hGap.imp_left And.left))

theorem differs_closingInk {brace : Option Leaf} (h : BraceFormed P "\x7d" brace) :
    Differs φ ψ (closingInk brace) (brace.elim 0 (Leaf.tally t)) := by
  obtain ⟨l, rfl, hText, -, hInk⟩ := closingInk_eq h
  rw [hInk]
  exact Leaf.differs_ink hWeighs (hWeighs.word _ (by simp [hText]) (by simp [hText])) none

theorem BlockInked.differs {α : Type} {style : InkStyle} {R : Option Bool → α → Ink → Prop} {F : α → Prop}
    {f : α → M} {g : ItemList α} (hFormed : g.Braced P F) (hMark : Differs φ ψ style.mark 0)
    (hBetween : Differs φ ψ style.between 0) (hAfter : Differs φ ψ style.after 0)
    (hLast : Differs φ ψ style.lastMark 0)
    (hItem : ∀ x, F x → ∀ keeps own, R keeps x own → Differs φ ψ own (f x)) (h : BlockInked style R g ink) :
    Differs φ ψ ink (g.blockTally t f) := by
  have hOpening := differs_openingInk hWeighs hFormed.opening
  have hClosing := differs_closingInk hWeighs hFormed.closing
  cases h with
  | empty hEntries =>
    simpa [ItemList.blockTally, ItemList.tally, hEntries] using
      (hOpening.append hWeighs.differs_newline).append hClosing
  | some h =>
    have hInner := h.differs_even hWeighs hMark hBetween hAfter hLast fun x hx => hItem x (hFormed.items x hx)
    simpa [ItemList.blockTally, ItemList.tally] using
      ((hOpening.append hWeighs.differs_newline).append hInner).append hClosing

theorem Contents.differs {c : Contents} (hFormed : c.Formed P) (h : c.Inked ink) : Differs φ ψ ink (c.tally t) := by
  cases h with
  | bundle h =>
    exact h.differs hWeighs hFormed Differs.nil hWeighs.differs_newline hWeighs.differs_newline Differs.nil
      fun p hp keeps own hOwn => PromiseType.differs hWeighs hp hOwn
  | body h =>
    exact h.differs hWeighs hFormed.1 Differs.nil Differs.nil hWeighs.differs_newline Differs.nil
      fun s hs keeps own hOwn => Selection.differs hWeighs hs hOwn

theorem Block.differs {b : Block} (hFormed : b.Formed P) (h : b.Inked keeps ink) : Differs φ ψ ink (b.tally t) := by
  have hKeyword : b.keyword.text ≠ "(" ∧ b.keyword.text ≠ ")" := by
    rw [hFormed.keyword]
    cases b.contents <;> simp [Contents.word]
  obtain @⟨brackets, inner, hParameters, hContents⟩ := h
  have hBrackets := hParameters.differs hWeighs (f := Leaf.tally t) fun l hl keeps own hOwn => by
    rw [hOwn]
    exact Leaf.differs_ink hWeighs (hWeighs.leaf (hFormed.parameters.items l hl).1 (by decide) (by decide)) keeps
  have hInner := Contents.differs hWeighs hFormed.contents hContents
  have hHead := ((((Differs.nil.cons (hWeighs.leaf hFormed.name (by decide) (by decide))).cons hWeighs.space).cons
    (hWeighs.leaf hFormed.type (by decide) (by decide))).cons hWeighs.space).cons (hWeighs.word _ hKeyword.1 hKeyword.2)
  have hAll := b.traits.differs_noted hWeighs keeps ((hHead.append hBrackets).append hInner)
  simpa [Block.tally, ItemList.bracketTally, ItemList.tally, add_assoc] using hAll

/-- An ink of a policy file adds up to what the file adds up to. -/
theorem Specification.differs {s : Specification} (hFormed : Specification.Formed P s)
    (h : Specification.Inked s ink) : Differs φ ψ ink (Specification.tally t s) := by
  cases h with
  | empty hEntries =>
    rw [Specification.tally, ItemList.tally, hEntries]
    exact Differs.nil
  | some h =>
    exact h.differs_even hWeighs Differs.nil hWeighs.differs_newline hWeighs.differs_newline Differs.nil
      fun b hb keeps own hOwn => Block.differs hWeighs (hFormed.items b hb) hOwn

end

end PolicyFormat.Policy
