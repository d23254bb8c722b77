import PolicyFormat.Proofs.Placing

/-! Every comment that is given to a tree ends up in it, or is handed on, and the tree is then as it
should be to be laid out. -/
namespace PolicyFormat.Policy

open Lexeme

variable {tokens : List Token}

/-! ### What is known of tokens and comments -/

variable {own : List Token} {P : Comment → Prop}

theorem Comment.Apart.sublist {c : Comment} (h : c.Apart tokens) (hOwn : own.Sublist tokens) : c.Apart own :=
  ⟨h.ordered, h.apart.imp_right fun hEach t ht => hEach t (hOwn.subset ht)⟩

/-- Tokens as they were read, among comments that stand apart from them. -/
structure Setting (P : Comment → Prop) (tokens : List Token) : Prop where
  spelled : ∀ t ∈ tokens, Spelling t.kind t.text.toList
  ordered : tokens.Pairwise (fun a b => a.endLine ≤ b.line)
  apart : ∀ c, P c → c.Apart tokens
  steady : Steady P

theorem Setting.sublist (h : Setting P tokens) (hOwn : own.Sublist tokens) : Setting P own :=
  ⟨fun t ht => h.spelled t (hOwn.subset ht), h.ordered.sublist hOwn,
    fun c hc => (h.apart c hc).sublist hOwn, h.steady⟩

/-- The word of a token is of its kind. -/
theorem Setting.is (h : Setting P tokens) {t : Token} (ht : t ∈ tokens) {l : Leaf} (hText : l.text = t.text)
    {kinds : TokenKind → Prop} (hKind : kinds t.kind) : l.Is kinds := by
  have hSpelling := h.spelled t ht
  rw [← hText] at hSpelling
  exact ⟨hSpelling.isToken, hSpelling.kindOf_eq ▸ hKind⟩

/-! ### The tokens of the parts -/

section

variable {α : Type} {R : α → List Token → Prop}

variable {xs : List α} {x : α}

theorem ManyBefore.mem {R : Option Token → α → List Token → Prop} {next : Option Token}
    (h : ManyBefore R next xs tokens) (hx : x ∈ xs) : ∃ after own, R after x own ∧ own.Sublist tokens := by
  induction h with
  | nil => cases hx
  | cons hOwn hMore ih =>
    rcases List.mem_cons.1 hx with rfl | hx
    · exact ⟨_, _, hOwn, List.sublist_append_left _ _⟩
    · obtain ⟨after, own, hR, hSub⟩ := ih hx
      exact ⟨after, own, hR, hSub.trans (List.sublist_append_right _ _)⟩

theorem AfterCommas.mem (h : AfterCommas R xs tokens) (hx : x ∈ xs) : ∃ own, R x own ∧ own.Sublist tokens := by
  induction h with
  | nil => cases hx
  | cons hComma hOwn hMore ih =>
    rcases List.mem_cons.1 hx with rfl | hx
    · exact ⟨_, hOwn, (List.sublist_append_left _ _).cons _⟩
    · obtain ⟨own, hR, hSub⟩ := ih hx
      exact ⟨own, hR, (hSub.trans (List.sublist_append_right _ _)).cons _⟩

theorem Separated.mem (h : Separated R xs tokens) (hx : x ∈ xs) : ∃ own, R x own ∧ own.Sublist tokens := by
  cases h with
  | later h => exact h.mem hx
  | first hOwn hMore =>
    rcases List.mem_cons.1 hx with rfl | hx
    · exact ⟨_, hOwn, List.sublist_append_left _ _⟩
    · obtain ⟨own, hR, hSub⟩ := hMore.mem hx
      exact ⟨own, hR, hSub.trans (List.sublist_append_right _ _)⟩

end

/-! ### Brackets -/

section

variable {P : Comment → Prop} {cs : List Comment}

variable {t : Token} {result : Option Leaf}

/-- A bracket that hands on its comments stays as it is. -/
theorem silent_receiveOptional {rank : Int} (hRank : rank ≠ 0)
    (h : ∃ share, Fair P share ∧ result = (receiveOptional (some (t.leaf (some rank))) share).1) :
    ∀ l ∈ result, l.traits.Silent := by
  obtain ⟨share, -, rfl⟩ := h
  simpa [receiveOptional, hRank] using t.silent_leaf (some rank)

/-- A brace keeps its comments. -/
theorem keeps_receiveOptional (h : ∃ share, Fair P share ∧ result = (receiveOptional (some (t.leaf none)) share).1) :
    ∃ l, result = some l ∧ l.text = t.text ∧ l.traits.Keeps P := by
  obtain ⟨share, hShare, rfl⟩ := h
  exact ⟨_, rfl, rfl, hShare.sort, rfl⟩

theorem none_receiveOptional (h : ∃ share, Fair P share ∧ result = (receiveOptional none share).1) :
    ∀ l ∈ result, l.traits.Silent := by
  obtain ⟨share, -, rfl⟩ := h
  simp [receiveOptional]

end

/-! ### Values -/

variable {yields : Option Int} {e : Element}

theorem Element.receiveEach_eq (entries : List (Entry Element)) (shares : List (List Comment × List Comment)) :
    Element.receiveEach entries shares = ItemList.receiveEach Element.receive entries shares := by
  induction entries generalizing shares with
  | nil => simp [Element.receiveEach, ItemList.receiveEach]
  | cons entry rest ih =>
    cases entry with
    | comment c => simp [Element.receiveEach, ItemList.receiveEach, ih]
    | item value => cases shares <;> simp [Element.receiveEach, ItemList.receiveEach, ih]

theorem Element.receive_call (traits : Traits) (name : Leaf) (arguments : ItemList Element) (cs : List Comment) :
    (Element.call traits name arguments).receive cs =
      let share := shareAmongParts [(0, name.traits.span), (1, arguments.traits.span)] cs
      let fromName := name.receive (share 0)
      let fromArguments := arguments.receive {} (fun e => e.traits.span) Element.receive (share 1)
      let adopted := traits.adopt (fromName.2 ++ fromArguments.2)
      (.call adopted.1 fromName.1 fromArguments.1, adopted.2) := by
  obtain ⟨argTraits, opening, entries, closing⟩ := arguments
  simp only [Element.receive, Element.receiveEach_eq, ItemList.receive]

/-- The word with its mark for keeping the blank line before it set. -/
def Leaf.keeping (keepsBlank : Bool) (l : Leaf) : Leaf :=
  { l with traits := { l.traits with keepsBlank } }

/-- The element with its mark for keeping the blank line before it set. -/
def Element.keeping (keepsBlank : Bool) (e : Element) : Element :=
  e.withTraits (fun t => { t with keepsBlank })

theorem Element.Derived.keeping_false (h : e.Derived yields tokens) : e.keeping false = e := by
  cases h <;> rfl

theorem Element.Derived.traits_eq (h : e.Derived yields tokens) : e.traits = { span := spanOf tokens, yields } := by
  cases h <;> rfl

/-- A word or a call that hands on its comments holds none. -/
theorem Element.comments_receive {rank : Int} (hHands : e.traits.handsOn? = some rank)
    (hNone : e.traits.comments = []) (cs : List Comment) : (e.receive cs).1.traits.comments = [] := by
  cases e with
  | leaf word =>
    have hWord : word.traits.handsOn? = some rank := hHands
    simpa [Element.receive, Leaf.receive, hWord, Element.traits] using hNone
  | call traits name arguments =>
    have hTraits : traits.handsOn? = some rank := hHands
    simpa [Element.receive_call, Traits.adopt_of_handsOn hTraits, Element.traits] using hNone

section

variable {P : Comment → Prop} {tokens : List Token} {cs : List Comment}

variable {α : Type} {R : α → List Token → Prop} {F : α → Prop}

theorem Parenthesised.placed {g : ItemList α} (held : α → List Comment)
    (give : α → List Comment → α × List Comment) (span : α → Span) (hSteady : Steady P)
    (h : Parenthesised R g tokens)
    (hGive : ∀ x own, R x own → own.Sublist tokens → x ∈ g.items → ∀ cs, Fair P cs → Placed F held cs (give x cs))
    (hFair : Fair P cs) :
    Placed (fun g => g.Formed P F ∧ g.SilentBrackets) (ItemList.comments held) cs (g.receive {} span give cs) := by
  obtain @⟨opening, closing, items, inner, hOpening, hInner, hClosing⟩ := h
  have hEach : ∀ x ∈ items, ∀ cs, Fair P cs → Placed F held cs (give x cs) := by
    intro x hx
    obtain ⟨own, hR, hOwn⟩ := hInner.mem hx
    exact hGive x own hR ((hOwn.trans (List.sublist_append_left _ _)).cons _) (by simpa using hx)
  have hList := listPlaced_receive hSteady (spanOf (opening :: (inner ++ [closing])))
    (some opening.leaf) (some (closing.leaf (some 2))) {} span
    (by simpa using (opening.silent_leaf _).1) (by simpa using (closing.silent_leaf _).1) hEach hFair
  exact ⟨⟨hList.formed, silent_receiveOptional (by decide) hList.opening,
    silent_receiveOptional (by decide) hList.closing⟩, hList.passed⟩

theorem Element.placed {yields : Option Int} {e : Element} (hSetting : Setting P tokens)
    (h : e.Derived yields tokens) (keepsBlank : Bool) (hFair : Fair P cs) :
    Placed (Element.Formed P keepsBlank) Element.comments cs ((e.keeping keepsBlank).receive cs) := by
  induction e using Element.induction generalizing yields tokens keepsBlank cs with
  | leaf word =>
    cases h with
    | @word _ t hKind =>
      have hPassed := Leaf.receive_passed (l := (t.leaf yields).keeping keepsBlank) rfl cs
      have hReceive : ((Element.leaf (t.leaf yields)).keeping keepsBlank).receive cs =
          (.leaf (((t.leaf yields).keeping keepsBlank).receive cs).1,
            (((t.leaf yields).keeping keepsBlank).receive cs).2) := rfl
      rw [hReceive]
      refine ⟨?_, by simpa [Element.comments_leaf] using hPassed⟩
      rw [Leaf.receive_eq rfl]
      exact .leaf (hSetting.is (List.mem_singleton_self t) rfl hKind)
        (Traits.holds_adopt hSetting.steady rfl hFair.sort true) (Traits.keepsBlank_adopt true)
  | call traits name arguments ih =>
    cases h with
    | @call _ name arguments brackets hName hArguments =>
      set parts := [(0, name.span), (1, arguments.traits.span)] with hParts
      have hNodup : (parts.map Prod.fst).Nodup := by simp [hParts]
      have hShare := census_shareAmongParts 2 cs hNodup (by simp [hParts]) (by simp [hParts])
      have hInner := hArguments.placed (F := Element.Formed P false) Element.comments Element.receive
        (fun e => e.traits.span) hSetting.steady
        (fun x own hx hOwn hMem cs hFair => by
          have hPlaced := ih x hMem (hSetting.sublist (hOwn.cons _)) hx false hFair
          rwa [hx.keeping_false] at hPlaced)
        (hFair.sublist (sublist_shareAmongParts cs hNodup 1))
      have hFirst := Leaf.receive_passed (l := name.leaf) rfl (shareAmongParts parts cs 0)
      obtain ⟨hHolds, hKeeps, hPassed⟩ := Traits.placed_adopt hSetting.steady (hFirst.append hInner.passed)
        (by simpa [List.range_succ] using hShare) hFair.sort
        (show ({ span := spanOf (name :: brackets), yields, keepsBlank } : Traits).comments = [] from rfl) true
      rw [Element.keeping, Element.withTraits, Element.receive_call]
      refine ⟨.call hHolds hKeeps (hSetting.is (by simp) (name.silent_receive _).2 hName) (name.silent_receive _).1
        hInner.formed.1.silent hInner.formed.1.items hInner.formed.1.comments hInner.formed.2, ?_⟩
      rw [Element.comments_call]
      exact hPassed

theorem BracedDerived.placed {g : ItemList Element} (hSetting : Setting P tokens)
    (h : BracedDerived g tokens) (hFair : Fair P cs) :
    Placed (fun g => g.ListsValues P) (ItemList.comments Element.comments) cs
      (g.receive {} (fun e => e.traits.span) Element.receive cs) := by
  obtain @⟨opening, closing, items, inner, comma, after, hOpening, hInner, hComma, hClosing⟩ := h
  have hEach : ∀ x ∈ items.map (Element.keeping true), ∀ cs, Fair P cs →
      Placed (Element.Formed P true) Element.comments cs (x.receive cs) := by
    intro x hx cs hFair
    obtain ⟨y, hy, rfl⟩ := List.mem_map.1 hx
    obtain ⟨own, hDerived, hOwn⟩ := hInner.mem hy
    have hSub : own.Sublist (opening :: (inner ++ after) ++ [closing]) :=
      ((hOwn.trans (List.sublist_append_left _ _)).trans (List.sublist_append_left _ _)).cons _
    exact Element.placed (hSetting.sublist hSub) hDerived true hFair
  have hList := listPlaced_receive hSetting.steady (spanOf (opening :: (inner ++ after) ++ [closing]))
    (some opening.leaf) (some (closing.leaf none)) {} (fun e => e.traits.span)
    (by simpa using (opening.silent_leaf _).1) (by simpa using (closing.silent_leaf _).1) hEach hFair
  obtain ⟨brace, hBrace, -, hKeeps⟩ := keeps_receiveOptional hList.closing
  refine ⟨⟨hList.formed, silent_receiveOptional (by decide) hList.opening, ?_⟩, hList.passed⟩
  intro l hl
  obtain rfl : brace = l := Option.some.inj (hBrace.symm.trans hl)
  exact hKeeps

variable {v : Value}

theorem Value.placed (hSetting : Setting P tokens) (h : v.Derived tokens) (hFair : Fair P cs) :
    Placed (Value.Formed P) Value.comments cs (v.receive cs) := by
  cases h with
  | @single element _ h =>
    have hPlaced := Element.placed hSetting h false hFair
    rw [h.keeping_false] at hPlaced
    have hTraits := h.traits_eq
    exact ⟨⟨hPlaced.formed, Element.comments_receive (by rw [hTraits]; rfl) (by rw [hTraits]) cs⟩, hPlaced.passed⟩
  | list h =>
    have hPlaced := h.placed hSetting hFair
    exact ⟨hPlaced.formed, hPlaced.passed⟩

/-! ### Promises -/

variable {keepsBlank : Bool} {a : Assignment} {last : Token} {next : Option Token}

/-- A token that may be missing hands on its comments. -/
theorem placed_optionally {kind : TokenKind} {leaf : Option Leaf} {own : List Token}
    (h : Optionally kind leaf own) (hMissing : leaf = none → cs = []) :
    Placed (fun leaf => ∀ l ∈ leaf, l.traits.Silent) optionalComments cs (receiveOptional leaf cs) := by
  refine ⟨?_, passed_receiveOptional ?_ hMissing⟩
  · cases h with
    | none => simp [receiveOptional]
    | @some t hKind => simpa [receiveOptional] using t.silent_leaf (some 1)
  · cases h with
    | none => simp
    | @some t hKind => simpa using (t.silent_leaf (some 1)).1

theorem Assignment.placed (hSetting : Setting P tokens) (h : a.Derived keepsBlank tokens) (hFair : Fair P cs) :
    Placed (fun a => a.Formed P ∧ a.traits.keepsBlank = keepsBlank) Assignment.comments cs (a.receive cs) := by
  obtain @⟨name, arrow, value, right, comma, after, hName, hArrow, hValue, hComma⟩ := h
  set parts := [(0, name.span), (1, arrow.span), (2, value.traits.span)] ++
    optionalPart 3 (comma.map (·.traits)) with hParts
  have hNodup : (parts.map Prod.fst).Nodup := by
    cases comma <;> simp [hParts, optionalPart]
  have hMissing : comma = none → shareAmongParts parts cs 3 = [] := by
    rintro rfl
    exact shareAmongParts_missing (by simp [hParts, optionalPart]) cs
  have hShare := census_shareAmongParts 4 cs hNodup (by simp [hParts])
    (by cases comma <;> simp [hParts, optionalPart])
  have hRight : right.Sublist (name :: arrow :: (right ++ after)) :=
    ((List.sublist_append_left _ _).cons _).cons _
  have hInner := Value.placed (hSetting.sublist hRight) hValue (hFair.sublist (sublist_shareAmongParts cs hNodup 2))
  have hEnd := placed_optionally hComma hMissing
  obtain ⟨hHolds, hKeeps, hPassed⟩ := Traits.placed_adopt hSetting.steady
    ((((Leaf.receive_passed (l := name.leaf) rfl _).append
      (Leaf.receive_passed (l := arrow.leaf) rfl _)).append hInner.passed).append hEnd.passed)
    (by simpa [List.range_succ, add_assoc] using hShare) hFair.sort
    (show ({ span := spanOf (name :: arrow :: (right ++ after)), keepsBlank } : Traits).comments = [] from rfl)
    true
  have hFirst := name.silent_receive (shareAmongParts parts cs 0)
  have hSecond := arrow.silent_receive (shareAmongParts parts cs 1)
  exact ⟨⟨⟨hHolds, rfl, hSetting.is (by simp) hFirst.2 hName, hFirst.1, hSecond.1, hInner.formed,
    hEnd.formed⟩, hKeeps⟩, hPassed⟩

theorem Guard.placed {g : Guard} (hSetting : Setting P tokens) (h : g.Derived tokens) (hFair : Fair P cs) :
    Placed (Guard.Formed P) Guard.comments cs (g.receive cs) := by
  obtain @⟨t, hKind⟩ := h
  obtain ⟨hHolds, hKeeps, hPassed⟩ := Traits.placed_adopt hSetting.steady
    (Leaf.receive_passed (l := t.leaf) rfl cs) rfl hFair.sort
    (show ({ span := t.span, keepsBlank := true } : Traits).comments = [] from rfl) true
  have hSilent := t.silent_receive cs
  exact ⟨⟨hHolds, rfl, hSetting.is (List.mem_singleton_self t) hSilent.2 hKind, hSilent.1⟩, hPassed⟩

theorem Value.Derived.tokens_ne_nil (h : v.Derived tokens) : tokens ≠ [] := by
  cases h with
  | single h =>
    obtain ⟨t, more, rfl, -⟩ := h.head
    simp
  | list h =>
    cases h
    simp

theorem Value.Derived.span (h : v.Derived tokens) : v.traits.span = spanOf tokens := by
  cases h with
  | single h => exact h.span
  | list h =>
    cases h
    rfl

theorem Assignment.Derived.span (h : a.Derived keepsBlank tokens) : a.traits.span = spanOf tokens := by
  cases h
  rfl

theorem endLine_spanOf (h : tokens.getLast? = some last) : (spanOf tokens).endLine = last.endLine := by
  obtain ⟨first, hFirst⟩ : ∃ first, tokens.head? = some first := by
    cases tokens with
    | nil => cases h
    | cons first rest => exact ⟨first, rfl⟩
  simp [spanOf, h, hFirst]

theorem Token.line_le_endLine (t : Token) : t.line ≤ t.endLine := by
  simp only [Token.endLine]
  omega

theorem startLine_spanOf_le (h : tokens.getLast? = some last)
    (hOrdered : tokens.Pairwise (fun a b => a.endLine ≤ b.line)) : (spanOf tokens).startLine ≤ last.endLine := by
  cases tokens with
  | nil => cases h
  | cons first rest =>
    have hLast : last ∈ first :: rest := List.mem_of_getLast? h
    have hFirst : (spanOf (first :: rest)).startLine = first.line := by simp [spanOf, h]
    rw [hFirst]
    rcases List.mem_cons.1 hLast with rfl | hLast
    · exact last.line_le_endLine
    · have hLe := List.rel_of_pairwise_cons hOrdered hLast
      have := first.line_le_endLine
      have := last.line_le_endLine
      omega

/-- The last attribute of a promise ends where its attributes end. -/
theorem ManyBefore.getLast {xs : List α} (h : ManyBefore (fun _ => R) next xs tokens) {x : α}
    (hx : xs.getLast? = some x) (hOwn : ∀ own, R x own → own ≠ []) :
    ∃ own, R x own ∧ own.Sublist tokens ∧ own.getLast? = tokens.getLast? := by
  induction h with
  | nil => cases hx
  | @cons y ys own more hR hMore ih =>
    cases ys with
    | nil =>
      obtain rfl : y = x := by simpa using hx
      cases hMore
      exact ⟨own, hR, by simp, by simp⟩
    | cons z zs =>
      obtain ⟨last, hLast, hSub, hEq⟩ := ih (by simpa using hx)
      refine ⟨last, hLast, hSub.trans (List.sublist_append_right _ _), ?_⟩
      have hMoreNe : more ≠ [] := by
        rintro rfl
        exact hOwn last hLast (List.sublist_nil.1 hSub)
      rw [hEq, List.getLast?_append_of_ne_nil _ hMoreNe]

/-- The parts of a promise before its attributes. -/
def Promise.frontParts (promiser : Token) (promisee : Option Value) (comma : Option Leaf) : List (Nat × Span) :=
  [(0, promiser.span)] ++ optionalPart 1 (promisee.map (·.traits)) ++ optionalPart 2 (comma.map (·.traits))

section

variable {promiser semicolon next last : Token} {promisee : Option Value} {right : List Token}
  {comma : Option Leaf} {after : List Token} {constraints : List Assignment} {body : List Token}

/-- Without attributes, what stands before them ends with one of its parts. -/
theorem Promise.frontParts_last (hPromisee : PromiseeDerived promisee right) (hComma : Optionally .comma comma after)
    (hLast : (promiser :: (right ++ after)).getLast? = some last) :
    ∃ part ∈ frontParts promiser promisee comma, part.2.endLine = last.endLine := by
  cases hComma with
  | @some t hKind =>
    obtain rfl : t = last := by
      rw [← List.cons_append, List.getLast?_concat] at hLast
      exact Option.some.inj hLast
    exact ⟨(2, t.span), by simp [frontParts, optionalPart, Token.leaf], rfl⟩
  | none =>
    rw [List.append_nil] at hLast
    cases hPromisee with
    | none =>
      obtain rfl : promiser = last := by simpa using hLast
      exact ⟨(0, promiser.span), by simp [frontParts], rfl⟩
    | @some arrow value own hArrow hValue =>
      have hOwn : own.getLast? = some last := by
        simpa [List.getLast?_cons, List.getLast?_eq_some_getLast hValue.tokens_ne_nil] using hLast
      refine ⟨(1, value.traits.span), by simp [frontParts, optionalPart], ?_⟩
      rw [hValue.span]
      exact endLine_spanOf hOwn

theorem Promise.nodup_parts (promiser : Token) (promisee : Option Value) (comma : Option Leaf)
    (a b : Span) : ((frontParts promiser promisee comma ++ [(3, a), (4, b)]).map Prod.fst).Nodup := by
  cases promisee <;> cases comma <;> simp [frontParts, optionalPart]

/-- The attributes of a promise do not end in a comment. -/
theorem Promise.ends_receive (hSetting : Setting P (promiser :: (right ++ after ++ body) ++ [semicolon]))
    (hPromisee : PromiseeDerived promisee right) (hComma : Optionally .comma comma after)
    (hBody : Many (Assignment.Derived false) constraints body)
    (hNext : (body ++ [semicolon]).head? = some next)
    (hLast : (promiser :: (right ++ after ++ body)).getLast? = some last) (hFair : Fair P cs) :
    ((listOf (openSpan next last) none constraints none).receive {} (fun a => a.traits.span)
      Assignment.receive (shareAmongParts (frontParts promiser promisee comma ++
        [(3, openSpan next last), (4, semicolon.span)]) cs 3)).1.EndsInItem := by
  have hWanted : ∀ c ∈ shareAmongParts (frontParts promiser promisee comma ++
      [(3, openSpan next last), (4, semicolon.span)]) cs 3, _ := fun c hc =>
    wants_of_mem_shareAmongParts (nodup_parts promiser promisee comma (openSpan next last) semicolon.span)
      hFair.ordered hc
  have hBefore : last.endLine ≤ semicolon.line :=
    (List.pairwise_append.1 hSetting.ordered).2.2 last (List.mem_of_getLast? hLast) semicolon (by simp)
  refine endsInItem_receive _ _ ?_ ?_
  · -- without attributes a comment would stand on the line of the semicolon, which takes it
    rintro rfl
    cases hBody
    obtain rfl : semicolon = next := by simpa using hNext
    refine List.eq_nil_iff_forall_not_mem.2 fun c hc => ?_
    obtain ⟨hFront, hTakes⟩ := hWanted c hc
    obtain ⟨part, hPart, hEnd⟩ := frontParts_last hPromisee hComma (by simpa using hLast)
    have hLe := hFront part hPart
    have hLine := semicolon.line_le_endLine
    simp only [Comment.trails, Span.covers, Bool.and_eq_true, decide_eq_true_eq,
      List.any_cons, List.any_nil, Bool.or_false, Bool.not_eq_true', Bool.and_eq_false_iff,
      decide_eq_false_iff_not] at hTakes
    simp only [openSpan, Token.span] at hTakes
    omega
  · intro z hz c hc
    obtain ⟨own, hDerived, hSub, hOwn⟩ := hBody.getLast hz fun own h => by
      obtain ⟨t, more, rfl, -⟩ := h.head
      simp
    have hOwnLast : own.getLast? = some last := by
      have hNe : body ≠ [] := by
        rintro rfl
        obtain ⟨t, more, rfl, -⟩ := hDerived.head
        cases hSub
      rw [hOwn, ← hLast, ← List.cons_append, List.getLast?_append_of_ne_nil _ hNe]
    have hAll : own.Sublist (promiser :: (right ++ after ++ body) ++ [semicolon]) :=
      ((hSub.trans (List.sublist_append_right _ _)).cons _).trans (List.sublist_append_left _ _)
    have hStart := startLine_spanOf_le hOwnLast (hSetting.ordered.sublist hAll)
    have hApart := hSetting.apart c (hFair.sort c ((sublist_shareAmongParts cs
      (nodup_parts promiser promisee comma (openSpan next last) semicolon.span) 3).subset hc)).1
    have hTouches := hApart.apart.imp_right fun h => h last (hAll.subset (List.mem_of_getLast? hOwnLast))
    have hOrdered := hApart.ordered
    have hLine := last.line_le_endLine
    obtain ⟨-, hTakes⟩ := hWanted c hc
    rw [hDerived.span, endLine_spanOf hOwnLast]
    simp only [Comment.trails, Span.covers, Bool.and_eq_true, decide_eq_true_eq, List.any_nil,
      Bool.not_false] at hTakes ⊢
    simp only [openSpan, endLine_spanOf hOwnLast, and_true] at hTakes ⊢
    by_cases hEnd : c.span.endLine < last.endLine
    · exact .inl hEnd
    · exact .inr (by omega)

end

/-- The promisee of a promise, which may be missing. -/
def receivePromisee (promisee : Option Value) (cs : List Comment) : Option Value × List Comment :=
  match promisee with
  | some value => (some (value.receive cs).1, (value.receive cs).2)
  | none => (none, [])

theorem placed_promisee {promisee : Option Value} {right : List Token} (hSetting : Setting P right)
    (h : PromiseeDerived promisee right) (hMissing : promisee = none → cs = []) (hFair : Fair P cs) :
    Placed (fun promisee => ∀ v ∈ promisee, v.Formed P) (fun promisee => promisee.elim [] Value.comments) cs
      (receivePromisee promisee cs) := by
  cases h with
  | none =>
    obtain rfl := hMissing rfl
    exact ⟨by simp [receivePromisee], rfl⟩
  | @some arrow value own hArrow hValue =>
    have hPlaced := Value.placed (hSetting.sublist (List.sublist_cons_self arrow own)) hValue hFair
    exact ⟨by simpa [receivePromisee] using hPlaced.formed, hPlaced.passed⟩

theorem Promise.placed {p : Promise} (hSetting : Setting P tokens) (h : p.Derived tokens)
    (hFair : Fair P cs) : Placed (Promise.Formed P) Promise.comments cs (p.receive cs) := by
  obtain @⟨promiser, semicolon, next, last, promisee, right, comma, after, constraints, body, hPromiser,
    hPromisee, hComma, hBody, hSemicolon, hNext, hLast⟩ := h
  set parts := frontParts promiser promisee comma ++ [(3, openSpan next last), (4, semicolon.span)] with hParts
  have hNodup : (parts.map Prod.fst).Nodup :=
    nodup_parts promiser promisee comma (openSpan next last) semicolon.span
  have hNoPromisee : promisee = none → shareAmongParts parts cs 1 = [] := by
    rintro rfl
    exact shareAmongParts_missing (by cases comma <;> simp [hParts, frontParts, optionalPart]) cs
  have hNoComma : comma = none → shareAmongParts parts cs 2 = [] := by
    rintro rfl
    exact shareAmongParts_missing (by cases promisee <;> simp [hParts, frontParts, optionalPart]) cs
  have hShare := census_shareAmongParts 5 cs hNodup (by simp [hParts])
    (by cases promisee <;> cases comma <;> simp [hParts, frontParts, optionalPart])
  have hFairPart : ∀ part, Fair P (shareAmongParts parts cs part) :=
    fun part => hFair.sublist (sublist_shareAmongParts cs hNodup part)
  have hSub : ∀ own, own.Sublist (right ++ after ++ body) → Setting P own := fun own h =>
    hSetting.sublist ((h.cons promiser).trans (List.sublist_append_left _ _))
  have hTo := placed_promisee (hSub right ((List.sublist_append_left _ _).trans
    (List.sublist_append_left _ _))) hPromisee hNoPromisee (hFairPart 1)
  have hEnd := placed_optionally hComma hNoComma
  have hEach : ∀ x ∈ constraints, ∀ cs, Fair P cs →
      Placed (Assignment.Constrains P) Assignment.comments cs (x.receive cs) := by
    intro x hx cs hFair
    obtain ⟨-, own, hDerived, hOwn⟩ := hBody.mem hx
    have hPlaced := Assignment.placed (hSub own (hOwn.trans (List.sublist_append_right _ _))) hDerived hFair
    exact ⟨⟨hPlaced.formed.1, hPlaced.formed.2⟩, hPlaced.passed⟩
  have hList := listPlaced_receive hSetting.steady (openSpan next last) none none {}
    (fun a : Assignment => a.traits.span) (by simp) (by simp) hEach (hFairPart 3)
  obtain ⟨hHolds, hKeeps, hPassed⟩ := Traits.placed_adopt hSetting.steady
    (((((Leaf.receive_passed (l := promiser.leaf) rfl _).append hTo.passed).append
      hEnd.passed).append hList.passed).append
      (Leaf.receive_passed (l := semicolon.leaf (some 2)) rfl (shareAmongParts parts cs 4)))
    (by simpa [List.range_succ, add_assoc] using hShare) hFair.sort
    (show (Traits.mk (spanOf (promiser :: (right ++ after ++ body) ++ [semicolon])) none false true
      []).comments = [] from rfl) true
  have hWho := promiser.silent_receive (shareAmongParts parts cs 0)
  have hEnds := ends_receive hSetting hPromisee hComma hBody hNext hLast hFair
  exact ⟨⟨hHolds, rfl, hSetting.is (by simp) hWho.2 hPromiser, hWho.1, rfl, hTo.formed, hEnd.formed,
    hList.formed, ⟨none_receiveOptional hList.opening, none_receiveOptional hList.closing⟩, hEnds,
    ⟨rfl, rfl⟩⟩, hPassed⟩

theorem Clause.placed {c : Clause} (hSetting : Setting P tokens) (h : c.Derived tokens)
    (hFair : Fair P cs) : Placed (Clause.Formed P) Clause.comments cs (c.receive cs) := by
  cases h with
  | guard h =>
    have hPlaced := Guard.placed hSetting h hFair
    exact ⟨hPlaced.formed, hPlaced.passed⟩
  | promise h =>
    have hPlaced := Promise.placed hSetting h hFair
    exact ⟨hPlaced.formed, hPlaced.passed⟩

theorem PromiseType.placed {p : PromiseType} (hSetting : Setting P tokens) (h : p.Derived next tokens)
    (hFair : Fair P cs) : Placed (PromiseType.Formed P) PromiseType.comments cs (p.receive cs) := by
  obtain @⟨name, first, last, clauses, body, hName, hBody, hFirst, hLast⟩ := h
  set parts := [(0, name.span), (1, openSpan first last)] with hParts
  have hNodup : (parts.map Prod.fst).Nodup := by simp [hParts]
  have hShare := census_shareAmongParts 2 cs hNodup (by simp [hParts]) (by simp [hParts])
  have hEach : ∀ x ∈ clauses, ∀ cs, Fair P cs → Placed (Clause.Formed P) Clause.comments cs (x.receive cs) := by
    intro x hx cs hFair
    obtain ⟨-, own, hDerived, hOwn⟩ := hBody.mem hx
    exact Clause.placed (hSetting.sublist (hOwn.cons _)) hDerived hFair
  have hList := listPlaced_receive hSetting.steady (openSpan first last) none none {}
    (fun c : Clause => c.traits.span) (by simp) (by simp) hEach
    (hFair.sublist (sublist_shareAmongParts cs hNodup 1))
  obtain ⟨hHolds, hKeeps, hPassed⟩ := Traits.placed_adopt hSetting.steady
    ((Leaf.receive_passed (l := name.leaf none) rfl (shareAmongParts parts cs 0)).append hList.passed)
    (by simpa [List.range_succ] using hShare) hFair.sort
    (show ({ span := spanOf (name :: body) } : Traits).comments = [] from rfl) true
  exact ⟨⟨⟨hHolds, hKeeps⟩, hSetting.is (List.mem_cons_self) rfl hName,
    ⟨(hFair.sublist (sublist_shareAmongParts cs hNodup 0)).sort, rfl⟩, hList.formed,
    none_receiveOptional hList.opening, none_receiveOptional hList.closing⟩, hPassed⟩

/-! ### Blocks -/

variable {b : Block} {s : Specification} {line offset : Int}

theorem Selection.placed {s : Selection} (hSetting : Setting P tokens) (h : s.Derived tokens)
    (hFair : Fair P cs) : Placed (Selection.Formed P) Selection.comments cs (s.receive cs) := by
  cases h with
  | guard h =>
    have hPlaced := Guard.placed hSetting h hFair
    exact ⟨hPlaced.formed, hPlaced.passed⟩
  | assignment h hSemicolon =>
    have hPlaced := Assignment.placed (hSetting.sublist (List.sublist_append_left _ _)) h hFair
    exact ⟨hPlaced.formed.1, hPlaced.passed⟩

/-- A list in the braces of a block keeps its comments. -/
theorem placed_braces (held : α → List Comment) (give : α → List Comment → α × List Comment)
    {opening closing : Token} (items : List α) {inner : List Token}
    (hSetting : Setting P (opening :: inner ++ [closing])) (hOpening : opening.kind = .openBrace)
    (hClosing : closing.kind = .closeBrace) (rule : ListRule) (span : α → Span)
    (hEach : ∀ x ∈ items, ∀ cs, Fair P cs → Placed F held cs (give x cs)) (hFair : Fair P cs) :
    Placed (fun g => g.Braced P F ∧ (g.items = [] ↔ items = [])) (ItemList.comments held) cs
      ((listOf (spanOf (opening :: inner ++ [closing])) (some (opening.leaf none)) items
        (some (closing.leaf none))).receive rule span give cs) := by
  have hList := listPlaced_receive hSetting.steady (spanOf (opening :: inner ++ [closing]))
    (some (opening.leaf none)) (some (closing.leaf none)) rule span
    (by simpa using (opening.silent_leaf _).1) (by simpa using (closing.silent_leaf _).1) hEach hFair
  obtain ⟨first, hFirst, hFirstText, hFirstKeeps⟩ := keeps_receiveOptional hList.opening
  obtain ⟨last, hLast, hLastText, hLastKeeps⟩ := keeps_receiveOptional hList.closing
  have hOpen : opening.text = "\x7b" :=
    (hSetting.spelled opening (by simp)).eq_of_fixedText (by rw [hOpening]; rfl)
  have hClose : closing.text = "\x7d" :=
    (hSetting.spelled closing (by simp)).eq_of_fixedText (by rw [hClosing]; rfl)
  exact ⟨⟨⟨hList.formed, ⟨first, hFirst, hFirstText.trans hOpen, hFirstKeeps⟩,
    ⟨last, hLast, hLastText.trans hClose, hLastKeeps⟩⟩, hList.items⟩, hList.passed⟩

theorem Contents.placed {c : Contents} (hSetting : Setting P tokens) (h : c.Derived tokens)
    (hFair : Fair P cs) : Placed (Contents.Formed P) Contents.comments cs (c.receive cs) := by
  cases h with
  | @bundle opening closing items inner hOpening hInner hClosing =>
    have hPlaced := placed_braces (F := PromiseType.Formed P) PromiseType.comments PromiseType.receive items
      hSetting hOpening hClosing bundleRule (fun p => p.traits.span) (fun x hx cs hFair => by
        obtain ⟨after, own, hDerived, hOwn⟩ := hInner.mem hx
        exact PromiseType.placed (hSetting.sublist
          ((hOwn.cons _).trans (List.sublist_append_left _ _))) hDerived hFair) hFair
    exact ⟨hPlaced.formed.1, hPlaced.passed⟩
  | @body opening closing items inner hOpening hInner hItems hClosing =>
    have hPlaced := placed_braces (F := Selection.Formed P) Selection.comments Selection.receive items
      hSetting hOpening hClosing bodyRule (fun s => s.traits.span) (fun x hx cs hFair => by
        obtain ⟨after, own, hDerived, hOwn⟩ := hInner.mem hx
        exact Selection.placed (hSetting.sublist
          ((hOwn.cons _).trans (List.sublist_append_left _ _))) hDerived hFair) hFair
    exact ⟨⟨hPlaced.formed.1, fun hNone => hItems (hPlaced.formed.2.1 hNone)⟩, hPlaced.passed⟩

theorem placed_parameters {next : Token} {g : ItemList Leaf} (hSetting : Setting P tokens)
    (h : ParametersDerived last next g tokens) (hFair : Fair P cs) :
    Placed (fun g => g.Formed P (Leaf.IsParameter P) ∧ g.SilentBrackets)
      (ItemList.comments (fun l => l.traits.comments)) cs
      (g.receive {} (fun l => l.traits.span) Leaf.receive cs) := by
  cases h with
  | none =>
    have hList : ListPlaced P (Leaf.IsParameter P) (fun l => l.traits.comments) none none [] cs
        ((listOf (openSpan next last) none [] none).receive {} (fun l => l.traits.span) Leaf.receive cs) :=
      listPlaced_receive hSetting.steady _ none none {} _ (by simp) (by simp) (by simp) hFair
    exact ⟨⟨hList.formed, none_receiveOptional hList.opening, none_receiveOptional hList.closing⟩, hList.passed⟩
  | some h =>
    refine h.placed _ _ _ hSetting.steady (fun x own hx hOwn _ cs hFair => ?_) hFair
    cases hx with
    | @mk t hKind =>
      exact ⟨⟨hSetting.is (hOwn.subset (List.mem_singleton_self t)) rfl hKind, hFair.sort, rfl⟩,
        Leaf.receive_passed rfl cs⟩

theorem Contents.word_receive (c : Contents) (cs : List Comment) : (c.receive cs).1.word = c.word := by
  cases c <;> rfl

theorem Block.placed (hSetting : Setting P tokens) (h : b.Derived tokens) (hFair : Fair P cs) :
    Placed (Block.Formed P) Block.comments cs (b.receive cs) := by
  obtain @⟨keyword, type, name, next, parameters, contents, brackets, inner, hKeyword, hType, hName, hNext,
    hParameters, hContents⟩ := h
  set parts := [(0, keyword.span), (1, type.span), (2, name.span), (3, parameters.traits.span),
    (4, contents.traits.span)] with hParts
  have hNodup : (parts.map Prod.fst).Nodup := by simp [hParts]
  have hShare := census_shareAmongParts 5 cs hNodup (by simp [hParts]) (by simp [hParts])
  have hFairPart : ∀ part, Fair P (shareAmongParts parts cs part) :=
    fun part => hFair.sublist (sublist_shareAmongParts cs hNodup part)
  have hSub : ∀ own, own.Sublist (brackets ++ inner) → Setting P own :=
    fun own h => hSetting.sublist (((h.cons name).cons type).cons keyword)
  have hNames := placed_parameters (hSub _ (List.sublist_append_left _ _)) hParameters (hFairPart 3)
  have hInner := Contents.placed (hSub _ (List.sublist_append_right _ _)) hContents (hFairPart 4)
  obtain ⟨hHolds, hKeeps, hPassed⟩ := Traits.placed_adopt hSetting.steady
    (((((Leaf.receive_passed (l := keyword.leaf) rfl (shareAmongParts parts cs 0)).append
      (Leaf.receive_passed (l := type.leaf) rfl (shareAmongParts parts cs 1))).append
      (Leaf.receive_passed (l := name.leaf) rfl (shareAmongParts parts cs 2))).append
      hNames.passed).append hInner.passed)
    (by simpa [List.range_succ, add_assoc] using hShare) hFair.sort
    (show ({ span := spanOf (keyword :: type :: name :: (brackets ++ inner)) } : Traits).comments = [] from rfl) false
  have hFirst := keyword.silent_receive (shareAmongParts parts cs 0)
  have hSecond := type.silent_receive (shareAmongParts parts cs 1)
  have hThird := name.silent_receive (shareAmongParts parts cs 2)
  have hWord : keyword.text = contents.word := by
    refine (hSetting.spelled keyword (by simp)).eq_of_fixedText ?_
    rw [hKeyword]
    cases contents <;> rfl
  exact ⟨⟨⟨hHolds, hKeeps⟩, (hFirst.2.trans hWord).trans (contents.word_receive _).symm, hFirst.1,
    hSetting.is (by simp) hSecond.2 hType, hSecond.1, hSetting.is (by simp) hThird.2 hName, hThird.1,
    hNames.formed.1, hNames.formed.2, hInner.formed⟩, hPassed⟩

/-- A block keeps what its parts hand up. -/
theorem Block.Derived.handed_nil (h : b.Derived tokens) (cs : List Comment) : (b.receive cs).2 = [] := by
  have hKeeps : b.traits.handsOn? = none := by
    cases h
    rfl
  exact congrArg Prod.snd (Traits.adopt_of_keeps hKeeps false)

theorem Specification.placed (hSetting : Setting P tokens) (h : s.Derived line offset tokens) (hFair : Fair P cs) :
    Placed (Specification.Formed P) Specification.comments cs (s.receive cs) := by
  obtain @⟨blocks, tokens, hBlocks⟩ := h
  have hEach : ∀ x ∈ blocks, ∀ cs, Fair P cs → Placed (Block.Formed P) Block.comments cs (x.receive cs) := by
    intro x hx cs hFair
    obtain ⟨-, own, hDerived, hOwn⟩ := hBlocks.mem hx
    exact Block.placed (hSetting.sublist hOwn) hDerived hFair
  have hList := listPlaced_receive hSetting.steady
    ⟨(tokens.head?.map Token.endLine).getD line, (tokens.getLast?.map Token.endLine).getD 0,
      (tokens.head?.map Token.stop).getD offset, (tokens.getLast?.map Token.stop).getD 0⟩
    none none {} (fun b : Block => b.traits.span) (by simp) (by simp) hEach hFair
  exact ⟨⟨hList.formed, none_receiveOptional hList.opening, none_receiveOptional hList.closing⟩, hList.passed⟩

/-- No comment is left over once a file has got its comments. -/
theorem Specification.Derived.handed_nil (h : s.Derived line offset tokens) (cs : List Comment) :
    (s.receive cs).2 = [] := by
  cases h with
  | @mk blocks tokens hBlocks =>
    refine handed_nil_of_listOf _ {} _ (fun b hb given => ?_) cs
    obtain ⟨-, own, hDerived, -⟩ := hBlocks.mem hb
    exact hDerived.handed_nil given

end

end PolicyFormat.Policy
