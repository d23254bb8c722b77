import PolicyFormat.Proofs.TreePlacing

/-! A tree that gets no comments stays as it was read. -/
namespace PolicyFormat.Policy

/-! ### Sharing nothing -/

theorem Sharing.share_nil {α : Type} (s : Sharing α) (nodes : List α) :
    s.share nodes [] = ⟨nodes.map (fun node => ⟨[], node, []⟩), []⟩ := by
  induction nodes with
  | nil => rfl
  | cons node later ih => simp [share, collect, ih]

@[simp] theorem shareAmongParts_nil (parts : List (Nat × Span)) (part : Nat) :
    shareAmongParts parts [] part = [] := by
  simp [shareAmongParts, Sharing.share_nil, List.filter_map, List.flatMap_map]

@[simp] theorem Traits.adopt_nil (t : Traits) (allowsTail : Bool) : t.adopt [] allowsTail = (t, []) := by
  simp only [Traits.adopt]
  split
  · rfl
  · cases allowsTail <;> simp [Keeper.settle]

theorem Leaf.receive_nil {l : Leaf} (h : l.traits.comments = []) : l.receive [] = (l, []) := by
  unfold Leaf.receive
  split
  · rfl
  · rw [← h]

@[simp] theorem Token.receive_nil (t : Token) (yields : Option Int) :
    (t.leaf yields).receive [] = (t.leaf yields, []) :=
  Leaf.receive_nil rfl

theorem receiveOptional_nil {leaf : Option Leaf} (h : ∀ l ∈ leaf, l.traits.comments = []) :
    receiveOptional leaf [] = (leaf, []) := by
  cases leaf with
  | none => rfl
  | some l => simp [receiveOptional, Leaf.receive_nil (h l rfl)]

theorem Optionally.receive_nil {kind : TokenKind} {leaf : Option Leaf} {own : List Token}
    (h : Optionally kind leaf own) : receiveOptional leaf [] = (leaf, []) := by
  cases h <;> rfl

/-! ### Lists -/

section

variable {α : Type} {give : α → List Comment → α × List Comment}

theorem ItemList.plan_nil (g : ItemList α) (rule : ListRule) (span : α → Span) :
    g.plan rule span [] = ⟨[], g.items.map (fun _ => ([], [])), [], []⟩ := by
  unfold ItemList.plan
  cases g.opening <;> cases g.closing <;> simp [detachFirst, Sharing.share_nil, Function.comp_def]

theorem ItemList.receiveEach_nil {items : List α} (hEach : ∀ x ∈ items, give x [] = (x, [])) :
    ItemList.receiveEach give (items.map .item) (items.map (fun _ => ([], []))) = (items.map .item, []) := by
  induction items with
  | nil => rfl
  | cons x items ih =>
    have hRest := ih fun y hy => hEach y (List.mem_cons_of_mem x hy)
    simp only [List.map_cons, ItemList.receiveEach, hEach x List.mem_cons_self, hRest, List.map_nil,
      List.nil_append, List.append_nil]

theorem receive_listOf_nil (opening closing : Option Leaf) {items : List α}
    (hOpening : ∀ l ∈ opening, l.traits.comments = []) (hClosing : ∀ l ∈ closing, l.traits.comments = [])
    (hEach : ∀ x ∈ items, give x [] = (x, [])) (place : Span) (rule : ListRule) (span : α → Span) :
    (listOf place opening items closing).receive rule span give [] = (listOf place opening items closing, []) := by
  have hEntries := ItemList.receiveEach_nil hEach
  rw [ItemList.receive, ItemList.plan_nil, items_listOf]
  simp only [listOf, hEntries, ItemList.complete, receiveOptional_nil hOpening, receiveOptional_nil hClosing,
    List.append_nil, Traits.adopt_nil, List.map_nil]

theorem ManyBefore.forall_mem {R : Option Token → α → List Token → Prop} {next : Option Token} {xs : List α}
    {tokens : List Token} {Q : α → Prop} (h : ManyBefore R next xs tokens)
    (hEach : ∀ next x own, R next x own → Q x) : ∀ x ∈ xs, Q x := by
  intro x hx
  obtain ⟨after, own, hOwn, -⟩ := h.mem hx
  exact hEach after x own hOwn

theorem Parenthesised.receive_nil (give : α → List Comment → α × List Comment) {R : α → List Token → Prop}
    {g : ItemList α} {tokens : List Token}
    (h : Parenthesised R g tokens) (hEach : ∀ x ∈ g.items, ∀ own, R x own → give x [] = (x, []))
    (rule : ListRule) (span : α → Span) : g.receive rule span give [] = (g, []) := by
  cases h with
  | mk hOpening hInner hClosing =>
    refine receive_listOf_nil _ _ (by simp [Token.leaf]) (by simp [Token.leaf]) (fun x hx => ?_) _ rule span
    obtain ⟨own, hOwn, -⟩ := hInner.mem hx
    exact hEach x (by simpa using hx) own hOwn

end

/-! ### The constructs of a policy -/

section

variable {tokens : List Token}

theorem Element.Derived.receive_nil {yields : Option Int} {e : Element} (h : e.Derived yields tokens)
    (keepsBlank : Bool) : (e.keeping keepsBlank).receive [] = (e.keeping keepsBlank, []) := by
  induction e using Element.induction generalizing yields tokens keepsBlank with
  | leaf word =>
    cases h with
    | @word _ t hKind =>
      simp [Element.keeping, Element.withTraits, Element.receive, Leaf.receive_nil, Token.leaf]
  | call traits name arguments ih =>
    cases h with
    | @call _ name arguments brackets hName hArguments =>
      have hInner := hArguments.receive_nil Element.receive
        (fun x hx own hOwn => by simpa [hOwn.keeping_false] using ih x hx hOwn false) {} (fun e => e.traits.span)
      simp only [Element.keeping, Element.withTraits, Element.receive_call, shareAmongParts_nil,
        Token.receive_nil, hInner, List.append_nil, Traits.adopt_nil]

theorem Value.Derived.receive_nil {v : Value} (h : v.Derived tokens) : v.receive [] = (v, []) := by
  cases h with
  | single h =>
    have hElement := h.receive_nil false
    rw [h.keeping_false] at hElement
    simp [Value.receive, hElement]
  | list h =>
    obtain @⟨opening, closing, items, inner, comma, after, hOpening, hInner, hComma, hClosing⟩ := h
    have hEach : ∀ x ∈ items.map (Element.keeping true), x.receive [] = (x, []) := by
      intro x hx
      obtain ⟨y, hy, rfl⟩ := List.mem_map.1 hx
      obtain ⟨own, hOwn, -⟩ := hInner.mem hy
      exact hOwn.receive_nil true
    have hList := receive_listOf_nil (some opening.leaf) (some (closing.leaf none))
      (by simp [Token.leaf]) (by simp [Token.leaf]) hEach
      (spanOf (opening :: (inner ++ after) ++ [closing])) {} (fun e => e.traits.span)
    exact congrArg (fun r => (Value.list r.1, r.2)) hList

theorem Assignment.Derived.receive_nil {keepsBlank : Bool} {a : Assignment} (h : a.Derived keepsBlank tokens) :
    a.receive [] = (a, []) := by
  cases h with
  | mk hName hArrow hValue hComma =>
    simp only [Assignment.receive, shareAmongParts_nil, Token.receive_nil, hValue.receive_nil,
      hComma.receive_nil, List.append_nil, Traits.adopt_nil]

theorem Guard.Derived.receive_nil {g : Guard} (h : g.Derived tokens) : g.receive [] = (g, []) := by
  cases h with
  | mk hKind => simp only [Guard.receive, Token.receive_nil, Traits.adopt_nil]

theorem Promise.Derived.receive_nil {p : Promise} (h : p.Derived tokens) : p.receive [] = (p, []) := by
  cases h with
  | @mk promiser semicolon next last promisee right comma after constraints body hPromiser hPromisee hComma hBody =>
    have hConstraints := receive_listOf_nil none none (by simp) (by simp)
      (hBody.forall_mem fun _ _ _ h => h.receive_nil) (openSpan next last) {} (fun a => a.traits.span)
    cases hPromisee with
    | none =>
      simp only [Promise.receive, shareAmongParts_nil, Token.receive_nil, hComma.receive_nil, hConstraints,
        List.append_nil, Traits.adopt_nil]
    | some hArrow hValue =>
      simp only [Promise.receive, shareAmongParts_nil, Token.receive_nil, hValue.receive_nil,
        hComma.receive_nil, hConstraints, List.append_nil, Traits.adopt_nil]

theorem Clause.Derived.receive_nil {c : Clause} (h : c.Derived tokens) : c.receive [] = (c, []) := by
  cases h with
  | guard h => simp [Clause.receive, h.receive_nil]
  | promise h => simp [Clause.receive, h.receive_nil]

theorem PromiseType.Derived.receive_nil {next : Option Token} {p : PromiseType} (h : p.Derived next tokens) :
    p.receive [] = (p, []) := by
  cases h with
  | @mk name first last clauses body hName hBody =>
    have hClauses := receive_listOf_nil none none (by simp) (by simp)
      (hBody.forall_mem fun _ _ _ h => h.receive_nil) (openSpan first last) {} (fun c => c.traits.span)
    simp only [PromiseType.receive, shareAmongParts_nil, Token.receive_nil, hClauses, List.append_nil,
      Traits.adopt_nil]

theorem Selection.Derived.receive_nil {s : Selection} (h : s.Derived tokens) : s.receive [] = (s, []) := by
  cases h with
  | guard h => simp [Selection.receive, h.receive_nil]
  | assignment h => simp [Selection.receive, h.receive_nil]

theorem Contents.Derived.receive_nil {c : Contents} (h : c.Derived tokens) : c.receive [] = (c, []) := by
  cases h with
  | bundle hOpening hInner hClosing =>
    rw [Contents.receive, receive_listOf_nil _ _ (by simp [Token.leaf]) (by simp [Token.leaf])
      (hInner.forall_mem fun _ _ _ h => h.receive_nil)]
  | body hOpening hInner hItems hClosing =>
    rw [Contents.receive, receive_listOf_nil _ _ (by simp [Token.leaf]) (by simp [Token.leaf])
      (hInner.forall_mem fun _ _ _ h => h.receive_nil)]

theorem ParametersDerived.receive_nil {last next : Token} {g : ItemList Leaf}
    (h : ParametersDerived last next g tokens) (span : Leaf → Span) (rule : ListRule) :
    g.receive rule span Leaf.receive [] = (g, []) := by
  cases h with
  | none => exact receive_listOf_nil _ _ (by simp) (by simp) (by simp) _ rule span
  | some h =>
    refine h.receive_nil Leaf.receive (fun x hx own hOwn => ?_) rule span
    cases hOwn with
    | mk hKind => exact Leaf.receive_nil rfl

theorem Block.Derived.receive_nil {b : Block} (h : b.Derived tokens) : b.receive [] = (b, []) := by
  cases h with
  | mk hKeyword hType hName hNext hParameters hContents =>
    simp only [Block.receive, shareAmongParts_nil, Token.receive_nil, hParameters.receive_nil,
      hContents.receive_nil, List.append_nil, Traits.adopt_nil]

/-- A tree that gets no comments stays as it was read. -/
theorem Specification.Derived.receive_nil {line offset : Int} {s : Specification}
    (h : s.Derived line offset tokens) : s.receive [] = (s, []) := by
  cases h with
  | mk hBlocks =>
    exact receive_listOf_nil _ _ (by simp) (by simp) (hBlocks.forall_mem fun _ _ _ h => h.receive_nil) _ {} _

end

end PolicyFormat.Policy
