import Mathlib.Algebra.BigOperators.Group.Finset.Basic
import Mathlib.Algebra.Order.Group.Multiset
import Mathlib.Tactic.Abel
import PolicyFormat.Policy.Placement

/-! What becomes of comments that are shared out among nodes: each goes to one place, those at one
place keep their order, and only their affinity and rank ever change. -/
namespace PolicyFormat.Policy

/-! ### Comments apart from what placing them changes -/

variable {cs given : List Comment}

/-- The comment without what placing it may change. -/
def Comment.unplaced (c : Comment) : Comment :=
  { c with affinity := none, rank := 0 }

/-- The comments of a list in no order, each without what placing it may change. -/
def census (cs : List Comment) : Multiset Comment :=
  ↑(cs.map Comment.unplaced)

@[simp] theorem census_nil : census [] = 0 := rfl

@[simp] theorem census_append (a b : List Comment) : census (a ++ b) = census a + census b := by
  simp [census]

theorem census_flatMap {α : Type} (f : α → List Comment) (xs : List α) :
    census (xs.flatMap f) = (xs.map (fun x => census (f x))).sum := by
  induction xs with
  | nil => rfl
  | cons x xs ih => simp [ih]

theorem census_perm {a b : List Comment} (h : a.Perm b) : census a = census b :=
  Multiset.coe_eq_coe.2 (h.map _)

theorem census_map {f : Comment → Comment} (h : ∀ c, (f c).unplaced = c.unplaced) (cs : List Comment) :
    census (cs.map f) = census cs := by
  simp [census, Function.comp_def, h]

@[simp] theorem census_handOn (rank : Int) (cs : List Comment) : census (handOn rank cs) = census cs :=
  census_map (f := fun c => { c with rank }) (fun _ => rfl) cs

@[simp] theorem census_settle (k : Keeper) (cs : List Comment) : census (k.settle cs) = census cs := by
  unfold Keeper.settle
  split
  · rfl
  · exact census_map (f := fun c => { c with affinity := some .nextNode }) (fun _ => rfl) cs

theorem mem_of_census_le (h : census cs ≤ census given) {c : Comment} (hc : c ∈ cs) :
    ∃ d ∈ given, d.unplaced = c.unplaced := by
  have hMem : c.unplaced ∈ census given := Multiset.mem_of_le h (by simpa [census] using ⟨c, hc, rfl⟩)
  simpa [census] using hMem

/-- A sort of comments that placing does not change. -/
def Steady (Q : Comment → Prop) : Prop :=
  ∀ c d : Comment, c.unplaced = d.unplaced → Q c → Q d

theorem Steady.of_census_le {Q : Comment → Prop} (hSteady : Steady Q) (h : census cs ≤ census given)
    (hGiven : ∀ c ∈ given, Q c) : ∀ c ∈ cs, Q c := by
  intro c hc
  obtain ⟨d, hd, hSame⟩ := mem_of_census_le h hc
  exact hSteady d c hSame (hGiven d hd)

/-! ### Collecting the comments of one node -/

namespace Sharing

variable {α : Type} {s : Sharing α} {node : α} {later : List α} {cs before given left : List Comment}

/-- The comments `before` and `given` are taken from the front of `cs` for the node, and `left`
remains. -/
inductive Collected (s : Sharing α) (node : α) (later : List α) : (cs before given left : List Comment) → Prop where
  | nil : Collected s node later [] [] [] []
  | stop {c : Comment} {rest : List Comment} (hPrecedes : s.precedes node c = false)
      (hWants : s.wants node later c = false) : Collected s node later (c :: rest) [] [] (c :: rest)
  | before {c : Comment} {rest before given left : List Comment} (hPrecedes : s.precedes node c = true)
      (h : Collected s node later rest before given left) :
      Collected s node later (c :: rest) (c :: before) given left
  | given {c : Comment} {rest before given left : List Comment} (hPrecedes : s.precedes node c = false)
      (hWants : s.wants node later c = true) (h : Collected s node later rest before given left) :
      Collected s node later (c :: rest) before (c :: given) left

theorem collected_collect (s : Sharing α) (node : α) (later : List α) (cs : List Comment) :
    Collected s node later cs (s.collect node later cs).1 (s.collect node later cs).2.1
      (s.collect node later cs).2.2 := by
  induction cs with
  | nil => exact .nil
  | cons c rest ih =>
    rw [collect]
    split_ifs with hPrecedes hWants
    · exact .before hPrecedes ih
    · exact .given (by simpa using hPrecedes) hWants ih
    · exact .stop (by simpa using hPrecedes) (by simpa using hWants)

namespace Collected

variable (h : Collected s node later cs before given left)
include h

theorem perm : (before ++ given ++ left).Perm cs := by
  induction h with
  | nil => exact .nil
  | stop => exact .refl _
  | before hPrecedes h ih => exact ih.cons _
  | @given c rest before given left hPrecedes hWants h ih =>
    have hFront : (before ++ c :: given).Perm (c :: (before ++ given)) := List.perm_middle
    exact (hFront.append_right left).trans (ih.cons c)

theorem sublist : before.Sublist cs ∧ given.Sublist cs ∧ left.Sublist cs := by
  induction h with
  | nil => simp
  | stop => simp
  | before hPrecedes h ih => exact ⟨ih.1.cons_cons _, ih.2.1.cons _, ih.2.2.cons _⟩
  | given hPrecedes hWants h ih => exact ⟨ih.1.cons _, ih.2.1.cons_cons _, ih.2.2.cons _⟩

variable {c : Comment}

theorem precedes_of_mem (hc : c ∈ before) : s.precedes node c = true := by
  induction h with
  | nil => cases hc
  | stop => cases hc
  | before hPrecedes h ih =>
    rcases List.mem_cons.1 hc with rfl | hc
    · exact hPrecedes
    · exact ih hc
  | given hPrecedes hWants h ih => exact ih hc

theorem wants_of_mem (hc : c ∈ given) : s.wants node later c = true := by
  induction h with
  | nil => cases hc
  | stop => cases hc
  | before hPrecedes h ih => exact ih hc
  | given hPrecedes hWants h ih =>
    rcases List.mem_cons.1 hc with rfl | hc
    · exact hWants
    · exact ih hc

theorem not_wants_head (hc : c ∈ left.head?) : s.precedes node c = false ∧ s.wants node later c = false := by
  induction h with
  | nil => cases hc
  | stop hPrecedes hWants =>
    obtain rfl := Option.some.inj hc
    exact ⟨hPrecedes, hWants⟩
  | before hPrecedes h ih => exact ih hc
  | given hPrecedes hWants h ih => exact ih hc

/-- Of comments that end on ever later lines, those that remain do not end before the node. -/
theorem endLine_le (hOrdered : cs.Pairwise (fun c d => c.span.endLine ≤ d.span.endLine)) (hc : c ∈ left) :
    (s.span node).endLine ≤ c.span.endLine := by
  cases left with
  | nil => cases hc
  | cons first rest =>
    have hFirst : (s.span node).endLine ≤ first.span.endLine := by
      have hNot := (h.not_wants_head rfl).2
      simp only [wants, Bool.or_eq_false_iff, decide_eq_false_iff_not] at hNot
      exact Int.not_lt.1 hNot.1.1.2
    rcases List.mem_cons.1 hc with rfl | hc
    · exact hFirst
    · have hLater := List.rel_of_pairwise_cons (hOrdered.sublist h.sublist.2.2) hc
      exact Int.le_trans hFirst hLater

/-- A node after which no other comes wants everything, unless comments may stand between nodes. -/
theorem left_nil (hInserts : s.inserts = false) (hLater : later = []) : left = [] := by
  cases left with
  | nil => rfl
  | cons first rest =>
    have hNot := (h.not_wants_head rfl).2
    simp [wants, hInserts, hLater] at hNot

theorem before_nil (hInserts : s.inserts = false) : before = [] := by
  refine List.eq_nil_iff_forall_not_mem.2 fun c hc => ?_
  have hPrecedes := h.precedes_of_mem hc
  simp [precedes, hInserts] at hPrecedes

end Collected

/-! ### Sharing comments out among all nodes -/

/-- The nodes take comments one after the other. -/
inductive Shared (s : Sharing α) : List α → List Comment → List (Slot α) → List Comment → Prop where
  | nil {cs : List Comment} : Shared s [] cs [] cs
  | cons {node : α} {later : List α} {cs before given left trailing : List Comment}
      {slots : List (Slot α)} (hNode : Collected s node later cs before given left)
      (hLater : Shared s later left slots trailing) :
      Shared s (node :: later) cs (⟨before, node, given⟩ :: slots) trailing

theorem shared_share (s : Sharing α) (nodes : List α) (cs : List Comment) :
    Shared s nodes cs (s.share nodes cs).slots (s.share nodes cs).trailing := by
  induction nodes generalizing cs with
  | nil => exact .nil
  | cons node later ih => exact .cons (s.collected_collect node later cs) (ih _)

namespace Shared

variable {nodes : List α} {slots : List (Slot α)} {trailing : List Comment}

theorem census_eq (h : Shared s nodes cs slots trailing) :
    (slots.map (fun slot => census slot.before + census slot.given)).sum + census trailing = census cs := by
  induction h with
  | nil => simp
  | cons hNode hLater ih =>
    rw [← census_perm hNode.perm]
    simp only [List.map_cons, List.sum_cons, census_append, ← ih]
    abel

theorem nodes_eq (h : Shared s nodes cs slots trailing) : slots.map (·.node) = nodes := by
  induction h with
  | nil => rfl
  | cons hNode hLater ih => simp [ih]

theorem sublist (h : Shared s nodes cs slots trailing) :
    (∀ slot ∈ slots, slot.before.Sublist cs ∧ slot.given.Sublist cs) ∧ trailing.Sublist cs := by
  induction h with
  | nil => simp
  | cons hNode hLater ih =>
    obtain ⟨hBefore, hGiven, hLeft⟩ := hNode.sublist
    refine ⟨?_, ih.2.trans hLeft⟩
    simp only [List.mem_cons, forall_eq_or_imp]
    exact ⟨⟨hBefore, hGiven⟩, fun slot hs => ⟨(ih.1 slot hs).1.trans hLeft, (ih.1 slot hs).2.trans hLeft⟩⟩

/-- If no comment may stand between nodes, all comments go to nodes, as long as there are any. -/
theorem all_given (h : Shared s nodes cs slots trailing) (hInserts : s.inserts = false)
    (hNodes : nodes ≠ []) : trailing = [] ∧ ∀ slot ∈ slots, slot.before = [] := by
  induction h with
  | nil => exact absurd rfl hNodes
  | @cons node later cs before given left trailing slots hNode hLater ih =>
    have hBefore := hNode.before_nil hInserts
    by_cases hLast : later = []
    · subst hLast
      cases hLater
      simp [hNode.left_nil hInserts rfl, hBefore]
    · simp only [List.mem_cons, forall_eq_or_imp]
      exact ⟨(ih hLast).1, hBefore, (ih hLast).2⟩

/-- Nothing remains after the last node if that node wants everything. -/
theorem trailing_nil (h : Shared s nodes cs slots trailing) {last : α} (hLast : nodes.getLast? = some last)
    (hWants : ∀ c ∈ cs, s.wants last [] c = true) : trailing = [] := by
  induction h with
  | nil => cases hLast
  | @cons node later cs before given left trailing slots hNode hLater ih =>
    have hLeft : ∀ c ∈ left, s.wants last [] c = true :=
      fun c hc => hWants c (hNode.sublist.2.2.subset hc)
    cases later with
    | nil =>
      obtain rfl : node = last := by simpa using hLast
      cases hLater
      cases hRemains : left with
      | nil => rfl
      | cons first rest =>
        have hNot := (hNode.not_wants_head (c := first) (by simp [hRemains])).2
        rw [hLeft first (by simp [hRemains])] at hNot
        cases hNot
    | cons next later => exact ih (by simpa using hLast) hLeft

/-- What the nodes after the first ones take is shared out among them alone. It ends no earlier than
any of the first. -/
theorem after_first {first : List α} (h : Shared s (first ++ nodes) cs slots trailing)
    (hOrdered : cs.Pairwise (fun c d => c.span.endLine ≤ d.span.endLine)) :
    ∃ front back left, slots = front ++ back ∧ front.map (·.node) = first ∧ left.Sublist cs ∧
      Shared s nodes left back trailing ∧
      ∀ c ∈ left, ∀ node ∈ first, (s.span node).endLine ≤ c.span.endLine := by
  induction first generalizing cs slots with
  | nil => exact ⟨[], slots, cs, rfl, rfl, .refl _, h, by simp⟩
  | cons node first ih =>
    cases h with
    | cons hNode hLater =>
      have hLeft := hNode.sublist.2.2
      obtain ⟨front, back, left, rfl, hFront, hSublist, hBack, hEnds⟩ :=
        ih hLater (hOrdered.sublist hLeft)
      refine ⟨_ :: front, back, left, rfl, by simp [hFront], hSublist.trans hLeft, hBack, ?_⟩
      intro c hc
      simp only [List.mem_cons, forall_eq_or_imp]
      exact ⟨hNode.endLine_le hOrdered (hSublist.subset hc), hEnds c hc⟩

end Shared

end Sharing

/-! ### The parts of a node -/

/-- How comments are shared out among the numbered parts of a node. -/
def partSharing : Sharing (Nat × Span) :=
  { span := (·.2), inserts := false }

section

variable {parts : List (Nat × Span)}

variable {slot : Slot (Nat × Span)}

theorem given_of_nodup {slots : List (Slot (Nat × Span))} (h : (slots.map (·.node.1)).Nodup) (hSlot : slot ∈ slots) :
    (slots.filter (fun other => other.node.1 == slot.node.1)).flatMap (·.given) = slot.given := by
  induction slots with
  | nil => cases hSlot
  | cons first slots ih =>
    obtain ⟨hFirst, hRest⟩ := List.nodup_cons.1 h
    rcases List.mem_cons.1 hSlot with rfl | hSlot
    · have hNone : slots.filter (fun other => other.node.1 == slot.node.1) = [] := by
        rw [List.filter_eq_nil_iff]
        intro other hOther hSame
        exact hFirst (List.mem_map.2 ⟨other, hOther, by simpa using hSame⟩)
      simp [hNone]
    · have hOther : first.node.1 ≠ slot.node.1 :=
        fun hSame => hFirst (List.mem_map.2 ⟨slot, hSlot, hSame.symm⟩)
      simpa [hOther] using ih hRest hSlot

variable {cs : List Comment}

/-- The share of a part that has a slot. -/
theorem shareAmongParts_eq (hNodup : (parts.map Prod.fst).Nodup)
    (hSlot : slot ∈ (partSharing.share parts cs).slots) : shareAmongParts parts cs slot.node.1 = slot.given := by
  have hSlots : ((partSharing.share parts cs).slots.map (·.node.1)).Nodup := by
    rw [← (partSharing.shared_share parts cs).nodes_eq] at hNodup
    simpa [Function.comp_def] using hNodup
  exact given_of_nodup hSlots hSlot

/-- A part that a node does not have gets no comments. -/
theorem shareAmongParts_missing {part : Nat} (h : part ∉ parts.map Prod.fst) (cs : List Comment) :
    shareAmongParts parts cs part = [] := by
  have hNone : (partSharing.share parts cs).slots.filter (fun slot => slot.node.1 == part) = [] := by
    rw [List.filter_eq_nil_iff]
    intro slot hSlot hSame
    refine h ?_
    rw [← (partSharing.shared_share parts cs).nodes_eq]
    simpa using ⟨slot, hSlot, beq_iff_eq.1 hSame⟩
  change ((partSharing.share parts cs).slots.filter (fun slot => slot.node.1 == part)).flatMap (·.given) = []
  rw [hNone]
  rfl

/-- Every comment goes to one part. The parts have small numbers, and some may be missing. -/
theorem census_shareAmongParts (count : Nat) (cs : List Comment) (hNodup : (parts.map Prod.fst).Nodup)
    (hParts : parts ≠ []) (hCount : ∀ part ∈ parts, part.1 < count) :
    ((List.range count).map (fun part => census (shareAmongParts parts cs part))).sum = census cs := by
  have hShared := partSharing.shared_share parts cs
  obtain ⟨hTrailing, hBefore⟩ := hShared.all_given rfl hParts
  have hEach : (partSharing.share parts cs).slots.map (fun slot => census (shareAmongParts parts cs slot.node.1)) =
      (partSharing.share parts cs).slots.map (fun slot => census slot.before + census slot.given) := by
    refine List.map_congr_left fun slot hSlot => ?_
    simp [shareAmongParts_eq hNodup hSlot, hBefore slot hSlot]
  have hRange : (parts.map Prod.fst).toFinset ⊆ (List.range count).toFinset := by
    intro part hPart
    obtain ⟨node, hNode, rfl⟩ := List.mem_map.1 (List.mem_toFinset.1 hPart)
    simpa using hCount node hNode
  calc
    _ = ((parts.map Prod.fst).map (fun part => census (shareAmongParts parts cs part))).sum := by
        rw [← List.sum_toFinset _ List.nodup_range, ← List.sum_toFinset _ hNodup, Finset.sum_subset hRange]
        intro part _ hPart
        rw [shareAmongParts_missing fun h => hPart (List.mem_toFinset.2 h), census_nil]
    _ = (((partSharing.share parts cs).slots.map (·.node)).map
          (fun part => census (shareAmongParts parts cs part.1))).sum := by
        rw [hShared.nodes_eq, List.map_map]
        rfl
    _ = census cs := by
        rw [← hShared.census_eq, hTrailing, ← hEach]
        simp [Function.comp_def]

/-- The share of a part is in the order of the comments. -/
theorem sublist_shareAmongParts (cs : List Comment) (hNodup : (parts.map Prod.fst).Nodup) (part : Nat) :
    (shareAmongParts parts cs part).Sublist cs := by
  have hShared := partSharing.shared_share parts cs
  by_cases hPart : part ∈ parts.map Prod.fst
  · rw [← hShared.nodes_eq, List.map_map] at hPart
    obtain ⟨slot, hSlot, rfl⟩ := List.mem_map.1 hPart
    exact shareAmongParts_eq hNodup hSlot ▸ (hShared.sublist.1 slot hSlot).2
  · rw [shareAmongParts_missing hPart]
    exact List.nil_sublist cs

/-- What the last part but one gets: it ends no earlier than any part before, and the part wants it. -/
theorem wants_of_mem_shareAmongParts {front : List (Nat × Span)} {a b : Nat × Span}
    (hNodup : ((front ++ [a, b]).map Prod.fst).Nodup)
    (hOrdered : cs.Pairwise (fun c d => c.span.endLine ≤ d.span.endLine)) {c : Comment}
    (hc : c ∈ shareAmongParts (front ++ [a, b]) cs a.1) :
    (∀ part ∈ front, part.2.endLine ≤ c.span.endLine) ∧
      (c.span.endLine < a.2.endLine ∨ c.trails a.2 [b.2] = true) := by
  have hShared := partSharing.shared_share (front ++ [a, b]) cs
  obtain ⟨before, after, left, hSlots, -, -, hAfter, hEnds⟩ := hShared.after_first hOrdered
  cases hAfter with
  | @cons _ _ _ ahead given rest _ _ hNode hLater =>
    have hSlot : (⟨ahead, a, given⟩ : Slot (Nat × Span)) ∈ (partSharing.share (front ++ [a, b]) cs).slots := by
      simp [hSlots]
    have hGiven : shareAmongParts (front ++ [a, b]) cs a.1 = given := shareAmongParts_eq hNodup hSlot
    rw [hGiven] at hc
    refine ⟨hEnds c (hNode.sublist.2.1.subset hc), ?_⟩
    have hWants := hNode.wants_of_mem hc
    simp only [Sharing.wants, List.isEmpty_cons, Bool.and_false, Bool.false_or, Bool.or_eq_true,
      decide_eq_true_eq] at hWants
    simpa [partSharing] using hWants

end

end PolicyFormat.Policy
