import PolicyFormat.Proofs.Distribution
import PolicyFormat.Proofs.TreePlacing

/-! A comment behind the semicolon of a promise goes down to the promise. At every level the node with
the semicolon covers the line, those before it end there at the latest and those after it start below. So
the comment passes the nodes before that one and is given to it. -/
namespace PolicyFormat.Policy

variable {line : Int} {c : Comment} {cs : List Comment} {tokens own : List Token}

/-! ### Promises of a file -/

variable {t : PromiseType} {p : Promise}

/-- The promise, if the clause is one. -/
def Clause.promise? : Clause → Option Promise
  | .guard _ => none
  | .promise p => some p

def PromiseType.promises (p : PromiseType) : List Promise :=
  p.clauses.items.filterMap Clause.promise?

/-- The promise types of a bundle. A body has none. -/
def Contents.promiseTypes : Contents → List PromiseType
  | .bundle statements => statements.items
  | .body _ => []

def Specification.promiseTypes (s : Specification) : List PromiseType :=
  (ItemList.items s).flatMap (·.contents.promiseTypes)

def Specification.promises (s : Specification) : List Promise :=
  s.promiseTypes.flatMap PromiseType.promises

theorem PromiseType.mem_promises : p ∈ t.promises ↔ .promise p ∈ t.clauses.items := by
  simp only [promises, List.mem_filterMap]
  constructor
  · rintro ⟨g | q, hClause, hSome⟩
    · cases hSome
    · cases hSome
      exact hClause
  · exact fun h => ⟨_, h, rfl⟩

/-! ### One level -/

/-- The comment stands at the end of the line. -/
structure Comment.EndsAt (line : Int) (c : Comment) : Prop where
  startLine : c.span.startLine = line
  endLine : c.span.endLine = line
  affinity : c.affinity = some .endOfLine

/-- Where the line runs through nodes: `x` is the last that it touches. -/
structure Around {α : Type} (span : α → Span) (line : Int) (first : List α) (x : α) (rest : List α) : Prop where
  first : ∀ a ∈ first, (span a).endLine ≤ line
  covers : (span x).covers line = true
  rest : ∀ b ∈ rest, line < (span b).startLine

section

variable {α : Type} {s : Sharing α} {first rest : List α} {x : α} {slots : List (Slot α)} {trailing : List Comment}

/-- The comment stands before no node by itself. -/
theorem Sharing.Collected.not_mem_before {later : List α} {before given left : List Comment}
    (h : s.Collected x later cs before given left) (hEnds : c.EndsAt line) : c ∉ before := by
  intro hc
  simpa [Sharing.precedes, Comment.isStandalone, hEnds.affinity] using h.precedes_of_mem hc

/-- The comment passes the nodes before the last that touches its line, and that one takes it. -/
theorem Sharing.Shared.reaches (h : s.Shared (first ++ x :: rest) cs slots trailing)
    (hAround : Around s.span line first x rest) (hOrder : Comment.InOrder cs) (hEnds : c.EndsAt line) (hc : c ∈ cs) :
    ∃ slot ∈ slots, slot.node = x ∧ c ∈ slot.given ∧ ∀ d ∈ slot.given, s.wants x rest d = true := by
  induction first generalizing cs slots with
  | nil =>
    cases h with
    | @cons _ _ _ before given left _ _ hNode hLater =>
      refine ⟨_, List.mem_cons_self, rfl, ?_, fun d hd => hNode.wants_of_mem hd⟩
      obtain ⟨hFrom, hTo⟩ := Span.covers_iff.1 hAround.covers
      have hWants : s.wants x rest c = true := by
        have hNone : ((rest.map s.span).any fun b => b.covers line) = false := by
          simp only [List.any_map, List.any_eq_false, Function.comp_apply, Span.covers_iff]
          intro b hb hCovers
          have := hAround.rest b hb
          omega
        simp [Sharing.wants, Comment.trails, hEnds.startLine, hEnds.endLine, hAround.covers, hNone, hTo]
      have hLeft : c ∉ left := hNode.not_mem_left hOrder (.inr hWants) (hEnds.startLine ▸ hTo)
      simpa [hLeft, hNode.not_mem_before hEnds] using hNode.perm.mem_iff.2 hc
  | cons a first ih =>
    cases h with
    | @cons _ _ _ before given left _ _ hNode hLater =>
      have hWants : s.wants a (first ++ x :: rest) c = false := by
        have hLe := hAround.first a List.mem_cons_self
        have hLater : (first ++ x :: rest).isEmpty = false := by simp
        have hNext : s.isBeforeNext (first ++ x :: rest) c = false := by
          cases first <;> simp [Sharing.isBeforeNext, Comment.isStandalone, hEnds.affinity]
        simp only [Sharing.wants, Comment.trails, hEnds.startLine, hEnds.endLine, hLater, hNext, List.map_append,
          List.map_cons, List.any_append, List.any_cons, hAround.covers]
        simp [hLe]
      have hGiven : c ∉ given := fun hMem => Bool.false_ne_true (hWants.symm.trans (hNode.wants_of_mem hMem))
      have hLeft : c ∈ left := by simpa [hGiven, hNode.not_mem_before hEnds] using hNode.perm.mem_iff.2 hc
      obtain ⟨slot, hSlot, hFound⟩ := ih hLater
        ⟨fun b hb => hAround.first b (List.mem_cons_of_mem _ hb), hAround.covers, hAround.rest⟩
        (hOrder.sublist hNode.sublist.2.2) hLeft
      exact ⟨slot, List.mem_cons_of_mem _ hSlot, hFound⟩

/-- The last part of a node gets the comment if it covers the line. -/
theorem mem_shareAmongParts {front : List (Nat × Span)} {last : Nat × Span}
    (hNodup : ((front ++ [last]).map Prod.fst).Nodup) (hAround : Around (·.2) line front last [])
    (hOrder : Comment.InOrder cs) (hEnds : c.EndsAt line) (hc : c ∈ cs) :
    Comment.InOrder (shareAmongParts (front ++ [last]) cs last.1) ∧
      c ∈ shareAmongParts (front ++ [last]) cs last.1 := by
  obtain ⟨slot, hSlot, rfl, hGiven, -⟩ :=
    (partSharing.shared_share (front ++ [last]) cs).reaches hAround hOrder hEnds hc
  exact ⟨hOrder.sublist (sublist_shareAmongParts cs hNodup _), shareAmongParts_eq hNodup hSlot ▸ hGiven⟩

/-! ### Lists -/

variable {g : ItemList α} {rule : ListRule} {span : α → Span}

theorem ItemList.mem_plan_opening (h : c ∈ (g.plan rule span cs).opening) :
    ∃ l ∈ g.opening, c.span.start < l.traits.span.start := by
  simp only [ItemList.plan] at h
  cases hOpening : g.opening with
  | none => simp [hOpening] at h
  | some l =>
    rw [hOpening] at h
    by_cases hBlock : rule.opensBlock <;> simp [hBlock] at h
    exact ⟨l, rfl, h.2⟩

theorem ItemList.mem_plan_closing (h : c ∈ (g.plan rule span cs).closing) :
    ∃ l ∈ g.closing, l.traits.span.start < c.span.start := by
  simp only [ItemList.plan] at h
  cases hClosing : g.closing with
  | none => simp [hClosing] at h
  | some l =>
    simp only [hClosing, List.partition_eq_filter_filter, List.mem_filter, decide_eq_true_eq] at h
    exact ⟨l, rfl, h.2⟩

theorem mem_detachFirst {firstLine : Option Int} (hFirst : ∀ n ∈ firstLine, n ≤ c.span.startLine) (hc : c ∈ cs) :
    c ∈ detachFirst firstLine cs := by
  cases cs with
  | nil => cases hc
  | cons d more =>
    rw [detachFirst]
    split
    · rename_i hDetach
      rcases List.mem_cons.1 hc with rfl | hMore
      · obtain ⟨n, hn, hLt⟩ : ∃ n ∈ firstLine, c.span.startLine < n := by
          simpa [Option.any_eq_true] using (Bool.and_eq_true_iff.1 hDetach).2
        exact absurd (hFirst n hn) (by omega)
      · exact List.mem_cons_of_mem _ hMore
    · exact hc

theorem Comment.InOrder.detachFirst (h : Comment.InOrder cs) (firstLine : Option Int) :
    Comment.InOrder (detachFirst firstLine cs) := by
  rcases detachFirst_cases firstLine cs with hSame | ⟨d, more, rfl, hSame⟩ <;> rw [hSame]
  · exact h
  · exact ⟨by simpa using h.proper, by simpa [Comment.Before] using h.ordered⟩

/-- A list gives the comment to its last element on the line, and nothing that ends after that element but
what the element owns. -/
theorem ItemList.reaches_receive {opening closing : Option Leaf} (place : Span)
    (give : α → List Comment → α × List Comment) (hAround : Around span line first x rest)
    (hStarts : ∀ a ∈ first, (span a).startLine ≤ line) (hOrder : Comment.InOrder cs) (hEnds : c.EndsAt line)
    (hc : c ∈ cs) (hOpening : ∀ l ∈ opening, l.traits.span.start ≤ c.span.start)
    (hClosing : ∀ l ∈ closing, c.span.start ≤ l.traits.span.start) :
    ∃ given, Comment.InOrder given ∧ c ∈ given ∧
      (∀ d ∈ given, rule.owns d = false → d.span.endLine ≤ (span x).endLine) ∧
      (give x given).1 ∈ ((listOf place opening (first ++ x :: rest) closing).receive rule span give cs).1.items := by
  obtain ⟨inner, slots, hPlanned⟩ := (listOf place opening (first ++ x :: rest) closing).planned_plan rule span cs
  have hNotOpening : c ∉ ((listOf place opening (first ++ x :: rest) closing).plan rule span cs).opening := by
    intro hMem
    obtain ⟨l, hl, hLt⟩ := mem_plan_opening hMem
    exact absurd (hOpening l hl) (by omega)
  have hNotClosing : c ∉ ((listOf place opening (first ++ x :: rest) closing).plan rule span cs).closing := by
    intro hMem
    obtain ⟨l, hl, hLt⟩ := mem_plan_closing hMem
    exact absurd (hClosing l hl) (by omega)
  have hInner : c ∈ inner := by simpa [hNotOpening, hNotClosing] using hPlanned.perm.mem_iff.2 hc
  have hInnerOrder := hOrder.sublist hPlanned.inner_sublist
  have hShared := hPlanned.shared
  rw [items_listOf] at hShared
  have hHead : ∀ n ∈ (first ++ x :: rest).head?.map (fun item => (span item).startLine), n ≤ c.span.startLine := by
    rw [hEnds.startLine]
    cases first with
    | nil => simpa using (Span.covers_iff.1 hAround.covers).1
    | cons a first => simpa using hStarts a List.mem_cons_self
  obtain ⟨slot, hSlot, rfl, hGiven, hWants⟩ := hShared.reaches hAround (hInnerOrder.detachFirst _) hEnds
    (mem_detachFirst hHead hInner)
  refine ⟨slot.given, (hInnerOrder.detachFirst _).sublist (hShared.sublist.1 slot hSlot).2, hGiven, ?_, ?_⟩
  · intro d hd hOwns
    have hWanted := hWants d hd
    simp only [Sharing.wants, Comment.trails, hOwns, Bool.not_true, Bool.false_and, Bool.and_false, Bool.or_false,
      Bool.false_or, Bool.or_eq_true, Bool.and_eq_true, decide_eq_true_eq] at hWanted
    omega
  · rw [receive_listOf rfl hPlanned]
    simp only [ItemList.items, List.filterMap_append, items_placedEntries]
    exact List.mem_append_left _ (List.mem_map.2 ⟨slot, hSlot, rfl⟩)

end

/-! ### Tokens on the line -/

/-- One of the tokens stands at the place. -/
def Among (place : Span) (tokens : List Token) : Prop :=
  ∃ t ∈ tokens, t.span = place

theorem Among.sublist {place : Span} (h : Among place own) (hOwn : own.Sublist tokens) : Among place tokens :=
  h.imp fun _ ht => ⟨hOwn.subset ht.1, ht.2⟩

/-- The comment stands behind the token at the place, which is the last token on its line. -/
structure Comment.Follows (place : Span) (tokens : List Token) (c : Comment) : Prop
    extends c.EndsAt place.endLine where
  start : place.start < c.span.start
  ordered : tokens.Pairwise (fun a b => a.endLine ≤ b.line ∧ a.offset < b.offset)
  later : ∀ t ∈ tokens, place.start < t.offset → place.endLine < t.line ∧ c.span.start < t.offset

namespace Comment.Follows

variable {place : Span}

theorem sublist (h : c.Follows place tokens) (hOwn : own.Sublist tokens) : c.Follows place own :=
  { h with
    ordered := h.ordered.sublist hOwn
    later := fun t ht => h.later t (hOwn.subset ht) }

theorem before (h : c.Follows place (tokens ++ own)) (hFound : Among place own) :
    ∀ a ∈ tokens, a.endLine ≤ place.endLine ∧ a.offset < c.span.start := by
  intro a ha
  obtain ⟨t, ht, rfl⟩ := hFound
  obtain ⟨hLine, hOffset⟩ := (List.pairwise_append.1 h.ordered).2.2 a ha t ht
  exact ⟨hLine.trans t.line_le_endLine, hOffset.trans h.start⟩

theorem after (h : c.Follows place (own ++ tokens)) (hFound : Among place own) :
    ∀ b ∈ tokens, place.endLine < b.line ∧ c.span.start < b.offset := by
  intro b hb
  obtain ⟨t, ht, rfl⟩ := hFound
  exact h.later b (List.mem_append_right _ hb) ((List.pairwise_append.1 h.ordered).2.2 t ht b hb).2

theorem head_le (h : c.Follows place own) (hFound : Among place own) {first : Token}
    (hFirst : own.head? = some first) : first.endLine ≤ place.endLine := by
  obtain ⟨more, rfl⟩ := List.head?_eq_some_iff.1 hFirst
  obtain ⟨t, ht, rfl⟩ := hFound
  rcases List.mem_cons.1 ht with rfl | hMore
  · exact Int.le_refl _
  · exact (@before c [first] more _ h ⟨t, hMore, rfl⟩ first List.mem_cons_self).1

theorem le_last (h : c.Follows place own) (hFound : Among place own) {last : Token}
    (hLast : own.getLast? = some last) : place.endLine ≤ last.endLine := by
  obtain ⟨more, rfl⟩ := List.getLast?_eq_some_iff.1 hLast
  obtain ⟨t, ht, rfl⟩ := hFound
  rcases List.mem_append.1 ht with hMore | hSame
  · exact (h.after ⟨t, hMore, rfl⟩ last List.mem_cons_self).1.le.trans last.line_le_endLine
  · rw [List.mem_singleton.1 hSame]
    exact Int.le_refl _

end Comment.Follows

section

variable {place : Span}

theorem spanOf_of_ne_nil (h : own ≠ []) :
    ∃ first last, own.head? = some first ∧ own.getLast? = some last ∧ (spanOf own).startLine = first.line ∧
      (spanOf own).endLine = last.endLine := by
  have hLast := List.getLast?_eq_some_getLast h
  obtain ⟨first, more, rfl⟩ := List.exists_cons_of_ne_nil h
  exact ⟨first, _, rfl, hLast, by simp [spanOf, hLast], endLine_spanOf hLast⟩

theorem Comment.Follows.covers (h : c.Follows place own) (hFound : Among place own) :
    (spanOf own).covers place.endLine = true := by
  obtain ⟨t, ht, -⟩ := id hFound
  obtain ⟨first, last, hFirst, hLast, hStart, hEnd⟩ := spanOf_of_ne_nil (List.ne_nil_of_mem ht)
  rw [Span.covers_iff, hStart, hEnd]
  exact ⟨first.line_le_endLine.trans (h.head_le hFound hFirst), h.le_last hFound hLast⟩

/-- Tokens that end on the line at the latest make nodes that do. -/
theorem spanOf_le {front : List Token} (hFront : ∀ a ∈ front, a.endLine ≤ line) (hOwn : own.Sublist front)
    (hNe : own ≠ []) : (spanOf own).startLine ≤ line ∧ (spanOf own).endLine ≤ line := by
  obtain ⟨first, last, hFirst, hLast, hStart, hEnd⟩ := spanOf_of_ne_nil hNe
  rw [hStart, hEnd]
  exact ⟨first.line_le_endLine.trans (hFront _ (hOwn.subset (List.mem_of_head? hFirst))),
    hFront _ (hOwn.subset (List.mem_of_getLast? hLast))⟩

variable {α : Type} {R : Option Token → α → List Token → Prop} {next : Option Token} {xs : List α} {x : α}

/-- A construct among others, with the tokens before it, its own and those after it. -/
theorem ManyBefore.split (h : ManyBefore R next xs tokens) (hx : x ∈ xs) :
    ∃ first rest front own back after, xs = first ++ x :: rest ∧ tokens = front ++ (own ++ back) ∧ R after x own ∧
      (∀ a ∈ first, ∃ after own, R after a own ∧ own.Sublist front) ∧
      ∀ b ∈ rest, ∃ after own, R after b own ∧ own.Sublist back := by
  induction h with
  | nil => cases hx
  | @cons y ys own more hOwn hMore ih =>
    rcases List.mem_cons.1 hx with rfl | hx
    · exact ⟨[], ys, [], own, more, _, rfl, rfl, hOwn, by simp, fun b hb => hMore.mem hb⟩
    · obtain ⟨first, rest, front, inner, back, after, rfl, rfl, hInner, hFirst, hRest⟩ := ih hx
      refine ⟨y :: first, rest, own ++ front, inner, back, after, rfl, by simp, hInner, ?_, hRest⟩
      simp only [List.mem_cons, forall_eq_or_imp]
      refine ⟨⟨_, own, hOwn, List.sublist_append_left _ _⟩, fun a ha => ?_⟩
      obtain ⟨after, inner, hInner, hSub⟩ := hFirst a ha
      exact ⟨after, inner, hInner, hSub.trans (List.sublist_append_right _ _)⟩

/-- The token at the place is one of the given tokens. What is made of these, if it is given the comment
behind that token among others, is as it should be. -/
structure Reaches (place : Span) (c : Comment) (own : List Token) (Q : List Comment → Prop) : Prop where
  found : Among place own
  reaches : c.Follows place own → ∀ given, Comment.InOrder given → c ∈ given → Q given

theorem Reaches.imp {Q Q' : List Comment → Prop} (h : Reaches place c own Q) (hQ : ∀ given, Q given → Q' given) :
    Reaches place c own Q' :=
  ⟨h.found, fun hFollows given hOrder hc => hQ given (h.reaches hFollows given hOrder hc)⟩

/-- What holds of an element of a list holds once the list has been given the comment. -/
theorem ManyBefore.reaches {rule : ListRule} {span : α → Span} {give : α → List Comment → α × List Comment}
    {Q : α → Prop} (h : ManyBefore R next xs tokens)
    (hSpan : ∀ after y own, R after y own → own ≠ [] ∧ span y = spanOf own) (hx : x ∈ xs)
    (hEach : ∀ after own, R after x own → Reaches place c own fun given =>
      (∀ d ∈ given, rule.owns d = false → d.span.endLine ≤ (span x).endLine) → Q (give x given).1) (whole : Span)
    (opening closing : Option Leaf) :
    Reaches place c tokens fun given => (∀ l ∈ opening, l.traits.span.start ≤ c.span.start) →
      (∀ l ∈ closing, c.span.start ≤ l.traits.span.start) →
      ∃ y ∈ ((listOf whole opening xs closing).receive rule span give given).1.items, Q y := by
  obtain ⟨first, rest, front, own, back, after, rfl, rfl, hOwn, hFirst, hRest⟩ := h.split hx
  obtain ⟨hFound, hReaches⟩ := hEach after own hOwn
  have hFoundLater := hFound.sublist (List.sublist_append_left own back)
  refine ⟨hFoundLater.sublist (List.sublist_append_right _ _),
    fun hFollows given hOrder hc hOpening hClosing => ?_⟩
  have hBehind := hFollows.sublist (List.sublist_append_right front (own ++ back))
  have hHere := hBehind.sublist (List.sublist_append_left own back)
  have hFront : ∀ a ∈ first, (span a).startLine ≤ place.endLine ∧ (span a).endLine ≤ place.endLine := by
    intro a ha
    obtain ⟨after, inner, hInner, hSub⟩ := hFirst a ha
    rw [(hSpan _ _ _ hInner).2]
    exact spanOf_le (fun t ht => (hFollows.before hFoundLater t ht).1) hSub (hSpan _ _ _ hInner).1
  have hAround : Around span place.endLine first x rest := by
    refine ⟨fun a ha => (hFront a ha).2, ?_, fun b hb => ?_⟩
    · rw [(hSpan _ _ _ hOwn).2]
      exact hHere.covers hFound
    · obtain ⟨after, inner, hInner, hSub⟩ := hRest b hb
      obtain ⟨t, last, hHead, -, hStart, -⟩ := spanOf_of_ne_nil (hSpan _ _ _ hInner).1
      rw [(hSpan _ _ _ hInner).2, hStart]
      exact (hBehind.after hFound t (hSub.subset (List.mem_of_head? hHead))).1
  obtain ⟨share, hShareOrder, hShare, hEnds, hMem⟩ := ItemList.reaches_receive whole give hAround
    (fun a ha => (hFront a ha).1) hOrder hFollows.toEndsAt hc hOpening hClosing
  exact ⟨_, hMem, hReaches hHere share hShareOrder hShare hEnds⟩

end

/-! ### Promises -/

theorem Comment.InOrder.eq_concat (h : Comment.InOrder cs) (hc : c ∈ cs)
    (hLast : ∀ d ∈ cs, d.span.endLine ≤ c.span.endLine) : ∃ others, cs = others ++ [c] := by
  obtain ⟨others, more, rfl⟩ := List.append_of_mem hc
  cases more with
  | nil => exact ⟨others, rfl⟩
  | cons d more =>
    have hBefore : c.span.endLine < d.span.startLine :=
      List.rel_of_pairwise_cons (List.pairwise_append.1 h.ordered).2.1 List.mem_cons_self
    have hProper := h.proper d (by simp)
    have hEnd := hLast d (by simp)
    omega

theorem rank_of_mem_handOn {rank : Int} (hc : c ∈ handOn rank cs) : c.rank = rank := by
  obtain ⟨d, -, rfl⟩ := List.mem_map.1 hc
  rfl

theorem rank_of_mem_receive_listOf {α : Type} {whole : Span} {opening closing : Option Leaf} {items : List α}
    {rule : ListRule} {span : α → Span} {give : α → List Comment → α × List Comment}
    (hc : c ∈ ((listOf whole opening items closing).receive rule span give cs).2) : c.rank = 1 := by
  obtain ⟨inner, slots, hPlanned⟩ := (listOf whole opening items closing).planned_plan rule span cs
  rw [receive_listOf rfl hPlanned] at hc
  exact rank_of_mem_handOn hc

theorem Value.Derived.rank_of_mem {v : Value} (h : v.Derived own) (hc : c ∈ (v.receive cs).2) : c.rank = 1 := by
  cases h with
  | single h =>
    cases h with
    | @word _ t hKind =>
      have hLeaf : c ∈ (t.leaf.receive cs).2 := by simpa [Value.receive, Element.receive] using hc
      rw [t.receive_leaf_handsOn (by decide)] at hLeaf
      exact rank_of_mem_handOn hLeaf
    | @call _ name arguments brackets hName hArguments =>
      simp only [Value.receive, Element.receive_call] at hc
      rw [Traits.adopt_of_handsOn rfl] at hc
      exact rank_of_mem_handOn hc
  | list h =>
    cases h with
    | mk =>
      simp only [Value.receive] at hc
      exact rank_of_mem_receive_listOf hc

section

variable {promiser : Token} {promisee : Option Value} {right : List Token} {comma : Option Leaf} {after : List Token}
  (hPromisee : PromiseeDerived promisee right) (hComma : Optionally .comma comma after)
include hPromisee hComma

theorem Promise.frontParts_endLine_le (hFront : ∀ a ∈ promiser :: (right ++ after), a.endLine ≤ line) :
    ∀ part ∈ frontParts promiser promisee comma, part.2.endLine ≤ line := by
  intro part hPart
  rcases List.mem_append.1 hPart with hPart | hPart
  · rcases List.mem_append.1 hPart with hPart | hPart
    · rw [List.mem_singleton.1 hPart]
      exact hFront promiser List.mem_cons_self
    · cases hPromisee with
      | none => cases hPart
      | some hArrow hValue =>
        rw [List.mem_singleton.1 hPart]
        refine (congrArg Span.endLine hValue.span).trans_le ?_
        exact (spanOf_le (fun a ha => hFront a (by simp [ha])) (.refl _) hValue.tokens_ne_nil).2
  · cases hComma with
    | none => cases hPart
    | some hKind =>
      rw [List.mem_singleton.1 hPart]
      exact hFront _ (by simp)

/-- The comments of a promise come from its parts, those of the semicolon last and with the highest rank. -/
theorem Promise.comments_receive (promiser next last semicolon : Token) (constraints : List Assignment) (place : Span)
    (cs : List Comment) :
    ∃ front, (∀ d ∈ front, d.rank = 1) ∧
      (Promise.receive { traits := { span := place, keepsBlank := true }, promiser := promiser.leaf, promisee, comma
                         constraints := listOf (openSpan next last) none constraints none
                         semicolon := semicolon.leaf (some 2) } cs).1.traits.comments =
        front ++ handOn 2 (shareAmongParts
          (frontParts promiser promisee comma ++ [(3, openSpan next last), (4, semicolon.span)]) cs 4) := by
  set share := shareAmongParts (frontParts promiser promisee comma ++ [(3, openSpan next last), (4, semicolon.span)]) cs
    with hShares
  have hWho : ∀ d ∈ (promiser.leaf.receive (share 0)).2, d.rank = 1 := fun d hd => by
    rw [promiser.receive_leaf_handsOn (by decide)] at hd
    exact rank_of_mem_handOn hd
  have hTo : ∀ d ∈ (receivePromisee promisee (share 1)).2, d.rank = 1 := fun d hd => by
    cases hPromisee with
    | none => cases hd
    | some hArrow hValue => exact hValue.rank_of_mem hd
  have hEnd : ∀ d ∈ (receiveOptional comma (share 2)).2, d.rank = 1 := fun d hd => by
    cases hComma with
    | none => cases hd
    | @some t hKind =>
      simp only [receiveOptional, Token.receive_leaf_handsOn t one_ne_zero] at hd
      exact rank_of_mem_handOn hd
  refine ⟨(promiser.leaf.receive (share 0)).2 ++ (receivePromisee promisee (share 1)).2 ++
    (receiveOptional comma (share 2)).2 ++ ((listOf (openSpan next last) none constraints none).receive {}
      (fun a => a.traits.span) Assignment.receive (share 3)).2, ?_, ?_⟩
  · simp only [List.mem_append]
    rintro d (((hd | hd) | hd) | hd)
    · exact hWho d hd
    · exact hTo d hd
    · exact hEnd d hd
    · exact rank_of_mem_receive_listOf hd
  · cases promisee <;> rfl

end

/-- The promise after it has been given comments: the one behind its semicolon comes last among them and has
the highest rank. -/
structure Promise.Noted (p : Promise) (c : Comment) (q : Promise) : Prop where
  span : q.traits.span = p.traits.span
  promiser : q.promiser.text = p.promiser.text
  covers : p.traits.span.covers c.span.startLine = true
  comments : ∃ others, q.traits.comments = others ++ [{ c with rank := 2 }] ∧ ∀ d ∈ others, d.rank ≤ 2

/-- A promise type that holds no comments and a promise with the given property. -/
structure PromiseType.Lists (Q : Promise → Prop) (t : PromiseType) : Prop where
  comments : t.traits.comments = []
  promise : ∃ q ∈ t.promises, Q q

theorem Promise.Derived.reaches (h : p.Derived own) : Reaches p.semicolon.traits.span c own fun given =>
      (∀ d ∈ given, d.span.endLine ≤ p.traits.span.endLine) → p.Noted c (p.receive given).1 := by
  cases h with
  | @mk promiser semicolon next last promisee right comma after constraints body hPromiser hPromisee hComma hBody
      hSemicolon hNext hLast =>
    refine ⟨⟨semicolon, by simp, rfl⟩, fun hFollows given hOrder hc hAll => ?_⟩
    have hFront := fun a ha => (hFollows.before ⟨semicolon, List.mem_singleton_self _, rfl⟩ a ha).1
    have hAround : Around (·.2) semicolon.endLine (frontParts promiser promisee comma ++ [(3, openSpan next last)])
        (4, semicolon.span) [] := by
      refine ⟨fun part hPart => ?_, Span.covers_iff.2 ⟨semicolon.line_le_endLine, Int.le_refl _⟩, by simp⟩
      rcases List.mem_append.1 hPart with hPart | hPart
      · exact frontParts_endLine_le hPromisee hComma (fun a ha => hFront a (by grind)) part hPart
      · rw [List.mem_singleton.1 hPart]
        exact hFront last (List.mem_of_getLast? hLast)
    have hNodup := nodup_parts promiser promisee comma (openSpan next last) semicolon.span
    obtain ⟨hShareOrder, hShare⟩ := mem_shareAmongParts (by simpa using hNodup) hAround hOrder hFollows.toEndsAt hc
    rw [List.append_assoc] at hShareOrder hShare
    have hSub := sublist_shareAmongParts given hNodup 4
    have hEnd : (spanOf (promiser :: (right ++ after ++ body) ++ [semicolon])).endLine = c.span.endLine :=
      (endLine_spanOf List.getLast?_concat).trans hFollows.endLine.symm
    obtain ⟨others, hOthers⟩ := hShareOrder.eq_concat hShare fun d hd =>
      (hAll d (hSub.subset hd)).trans hEnd.le
    obtain ⟨front, hRanks, hComments⟩ := comments_receive hPromisee hComma promiser next last semicolon constraints
      (spanOf (promiser :: (right ++ after ++ body) ++ [semicolon])) given
    refine ⟨by cases promisee <;> rfl, by cases promisee <;> rfl, ?_, front ++ handOn 2 others, ?_, fun d hd => ?_⟩
    · rw [hFollows.startLine]
      exact hFollows.covers ⟨semicolon, by simp, rfl⟩
    · refine (hComments.trans (congrArg (front ++ handOn 2 ·) hOthers)).trans ?_
      simp [handOn]
    · rcases List.mem_append.1 hd with hd | hd
      · rw [hRanks d hd]
        decide
      · exact (rank_of_mem_handOn hd).le

/-! ### Files -/

variable {x : Clause}

variable {p : Promise}

theorem Clause.Derived.span (h : x.Derived own) : own ≠ [] ∧ x.traits.span = spanOf own := by
  cases h with
  | guard h =>
    cases h
    exact ⟨by simp, rfl⟩
  | promise h =>
    cases h
    exact ⟨by simp, rfl⟩

theorem Clause.Derived.handed_nil (h : x.Derived own) (cs : List Comment) : (x.receive cs).2 = [] := by
  cases h with
  | guard h =>
    cases h
    rfl
  | @promise p own h =>
    cases h
    rfl

theorem PromiseType.Derived.reaches {next : Option Token} (h : t.Derived next own) (hp : p ∈ t.promises) :
    Reaches p.semicolon.traits.span c own fun given => (t.receive given).1.Lists (p.Noted c) := by
  cases h with
  | @mk name first last clauses body hName hBody hFirst hLast =>
    have hMem : .promise p ∈ clauses := by simpa using PromiseType.mem_promises.1 hp
    obtain ⟨hFound, hReaches⟩ : Reaches p.semicolon.traits.span c body fun given => _ → _ →
        ∃ x ∈ ((listOf (openSpan first last) none clauses none).receive {} (fun x => x.traits.span) Clause.receive
          given).1.items, ∃ q, x = .promise q ∧ p.Noted c q := by
      refine hBody.reaches (fun _ _ _ h => h.span) hMem (fun _ own h => ?_) _ none none
      cases h with
      | promise h => exact h.reaches.imp fun given h hAll => ⟨_, rfl, h fun d hd => hAll d hd rfl⟩
    have hBehind := hFound.sublist (List.sublist_cons_self name body)
    refine ⟨hBehind, fun hFollows given hOrder hc => ⟨?_, ?_⟩⟩
    · refine handed_nil_of_listOf (openSpan first last) {} (fun x : Clause => x.traits.span) (fun x hx cs => ?_)
        (shareAmongParts [(0, name.span), (1, openSpan first last)] given 1)
      obtain ⟨-, own, hDerived, -⟩ := hBody.mem hx
      exact hDerived.handed_nil cs
    · have hHere := hFollows.sublist (List.sublist_cons_self name body)
      have hHead : body.head? = some first := by
        obtain ⟨t, ht, -⟩ := hFound
        cases body with
        | nil => cases ht
        | cons a more => exact hFirst
      have hName := (@Comment.Follows.before c [name] body _ hFollows hFound name List.mem_cons_self).1
      have hAround : Around (·.2) p.semicolon.traits.span.endLine [(0, name.span)] (1, openSpan first last) [] :=
        ⟨List.forall_mem_singleton.2 hName,
          Span.covers_iff.2 ⟨hHere.head_le hFound hHead, hFollows.le_last hBehind hLast⟩, by simp⟩
      obtain ⟨hShareOrder, hShare⟩ := mem_shareAmongParts (by simp) hAround hOrder hFollows.toEndsAt hc
      obtain ⟨x, hx, q, rfl, hNoted⟩ := hReaches hHere _ hShareOrder hShare (by simp) (by simp)
      exact ⟨q, PromiseType.mem_promises.2 hx, hNoted⟩

theorem Contents.Derived.reaches {x : Contents} (h : x.Derived own) (ht : t ∈ x.promiseTypes) (hp : p ∈ t.promises) :
    Reaches p.semicolon.traits.span c own fun given =>
      ∃ u ∈ (x.receive given).1.promiseTypes, u.Lists (p.Noted c) := by
  cases h with
  | body => cases ht
  | @bundle opening closing items inner hOpening hInner hClosing =>
    have hMem : t ∈ items := by simpa [Contents.promiseTypes] using ht
    have hSpan : ∀ (after : Option Token) (y : PromiseType) own, y.Derived after own →
        own ≠ [] ∧ y.traits.span = spanOf own := by
      rintro after y own ⟨⟩
      exact ⟨by simp, rfl⟩
    obtain ⟨hFound, hReaches⟩ := hInner.reaches hSpan hMem (fun _ own h => (h.reaches hp).imp fun given h _ => h)
      (spanOf (opening :: inner ++ [closing])) (some (opening.leaf none)) (some (closing.leaf none))
    have hBehind := hFound.sublist (List.sublist_cons_self opening inner)
    refine ⟨hBehind.sublist (List.sublist_append_left _ _), fun hFollows given hOrder hc => ?_⟩
    have hFront := hFollows.sublist (List.sublist_append_left (opening :: inner) [closing])
    refine hReaches (hFront.sublist (List.sublist_cons_self _ _)) given hOrder hc ?_ ?_
    · rintro l ⟨⟩
      exact (@Comment.Follows.before c [opening] inner _ hFront hFound opening List.mem_cons_self).2.le
    · rintro l ⟨⟩
      exact (hFollows.after hBehind closing List.mem_cons_self).2.le

theorem Block.Derived.reaches {b : Block} (h : b.Derived own) (ht : t ∈ b.contents.promiseTypes)
    (hp : p ∈ t.promises) :
    Reaches p.semicolon.traits.span c own fun given =>
      ∃ u ∈ (b.receive given).1.contents.promiseTypes, u.Lists (p.Noted c) := by
  cases h with
  | @mk keyword type name next parameters contents brackets inner hKeyword hType hName hNext hParameters hContents =>
    obtain ⟨hFound, hReaches⟩ := hContents.reaches ht hp
    have hSpan : contents.traits.span = spanOf inner := by
      cases hContents <;> rfl
    have hOwn := List.sublist_append_right (keyword :: type :: name :: brackets) inner
    refine ⟨hFound.sublist hOwn, fun hFollows given hOrder hc => ?_⟩
    have hHere := hFollows.sublist hOwn
    have hFront := fun a ha =>
      (@Comment.Follows.before c (keyword :: type :: name :: brackets) inner _ hFollows hFound a ha).1
    have hBrackets : parameters.traits.span.endLine ≤ p.semicolon.traits.span.endLine := by
      cases hParameters with
      | none => exact hFront name (by simp)
      | some h =>
        cases h with
        | mk => exact (spanOf_le (fun a ha => hFront a (by simp [ha])) (.refl _) (by simp)).2
    have hAround : Around (·.2) p.semicolon.traits.span.endLine [(0, keyword.span), (1, type.span), (2, name.span),
        (3, parameters.traits.span)] (4, contents.traits.span) [] := by
      refine ⟨?_, hSpan ▸ hHere.covers hFound, by simp⟩
      simp only [List.mem_cons, List.not_mem_nil, or_false, forall_eq_or_imp, forall_eq]
      exact ⟨hFront keyword (by simp), hFront type (by simp), hFront name (by simp), hBrackets⟩
    obtain ⟨hShareOrder, hShare⟩ := mem_shareAmongParts (by simp) hAround hOrder hFollows.toEndsAt hc
    exact hReaches hHere _ hShareOrder hShare

/-- A comment behind the semicolon of a promise goes to the promise. -/
theorem Specification.Derived.reaches {line offset : Int} {s : Specification} (h : s.Derived line offset own)
    (hp : p ∈ s.promises) :
    Reaches p.semicolon.traits.span c own fun given =>
      ∃ u ∈ (s.receive given).1.promiseTypes, u.Lists (p.Noted c) := by
  obtain ⟨place, blocks, rfl, hBlocks⟩ : ∃ place blocks, s = listOf place none blocks none ∧
      Many Block.Derived blocks own := by
    cases h with
    | mk hBlocks => exact ⟨_, _, rfl, hBlocks⟩
  obtain ⟨t, ht, hp⟩ := List.mem_flatMap.1 hp
  obtain ⟨b, hb, ht⟩ := List.mem_flatMap.1 ht
  have hSpan : ∀ (after : Option Token) (y : Block) own, y.Derived own → own ≠ [] ∧ y.traits.span = spanOf own := by
    rintro after y own ⟨⟩
    exact ⟨by simp, rfl⟩
  have hList : Reaches p.semicolon.traits.span c own fun given => _ → _ →
      ∃ x ∈ ((listOf place none blocks none).receive {} (fun b => b.traits.span) Block.receive given).1.items,
        ∃ u ∈ x.contents.promiseTypes, u.Lists (p.Noted c) :=
    hBlocks.reaches hSpan (by simpa using hb) (fun _ own h => (h.reaches ht hp).imp fun given h _ => h) _ none none
  refine hList.imp fun given h => ?_
  obtain ⟨x, hx, u, hu, hLists⟩ := h (by simp) (by simp)
  exact ⟨u, List.mem_flatMap.2 ⟨x, hx, hu⟩, hLists⟩

end PolicyFormat.Policy
