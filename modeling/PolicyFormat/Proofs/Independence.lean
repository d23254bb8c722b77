import PolicyFormat.Proofs.Distribution

/-! Comments are shared out in one pass, in which no comment goes back to a node that an earlier one has
passed. Each comment nevertheless ends up where it would if it were the only one: a node that an earlier
comment passes is passed by all later ones. -/
namespace PolicyFormat.Policy

variable {α : Type} {c : Comment}

/-- Where a comment may end up: with a node, between the nodes and right before one of them, or after all
nodes. -/
inductive Place (α : Type) where
  | given (node : α)
  | before (node : α)
  | last
deriving Repr, DecidableEq

namespace Slot

/-- The places that a comment has at one node, each as often as the comment is there. -/
def places (slot : Slot α) (c : Comment) : List (Place α) :=
  List.replicate (slot.before.count c) (.before slot.node) ++ List.replicate (slot.given.count c) (.given slot.node)

theorem places_of_not_mem {slot : Slot α} (hBefore : c ∉ slot.before) (hGiven : c ∉ slot.given) :
    slot.places c = [] := by
  simp [places, List.count_eq_zero_of_not_mem hBefore, List.count_eq_zero_of_not_mem hGiven]

end Slot

/-- The places that a comment has in all, each as often as the comment is there. -/
def Shares.places (shares : Shares α) (c : Comment) : List (Place α) :=
  shares.slots.flatMap (·.places c) ++ List.replicate (shares.trailing.count c) .last

theorem Shares.places_cons (slot : Slot α) (slots : List (Slot α)) (trailing : List Comment) (c : Comment) :
    Shares.places ⟨slot :: slots, trailing⟩ c = slot.places c ++ Shares.places ⟨slots, trailing⟩ c := by
  simp [Shares.places]

theorem Comment.InOrder.nodup {cs : List Comment} (h : Comment.InOrder cs) : cs.Nodup := by
  refine List.pairwise_iff_forall_sublist.2 fun {c d} hPair hSame => ?_
  have hBefore : c.span.endLine < d.span.startLine := List.pairwise_iff_forall_sublist.1 h.ordered hPair
  have hProper := h.proper c (hPair.subset (by simp))
  subst hSame
  omega

namespace Sharing

variable {s : Sharing α} {node : α} {later nodes : List α} {cs before given left trailing : List Comment}
  {slots : List (Slot α)}

/-- Whether a node takes a comment depends on lines alone: no node claims a comment that stands after it,
and a node that comments are inserted before does not end before it starts. -/
structure ByLines (s : Sharing α) (nodes : List α) : Prop where
  unowned : s.inserts = true → ∀ node c, s.owns node c = false
  proper : s.inserts = true → ∀ node ∈ nodes, (s.span node).startLine ≤ (s.span node).endLine

theorem ByLines.tail (h : s.ByLines (node :: later)) : s.ByLines later :=
  ⟨h.unowned, fun hInserts x hx => h.proper hInserts x (List.mem_cons_of_mem node hx)⟩

namespace Collected

/-- A comment that starts after the end of a node passes the node, unless the node is the last one and has
to take all comments. -/
theorem passes_of_after (hLines : s.ByLines (node :: later)) (hProper : c.span.startLine ≤ c.span.endLine)
    (hAfter : (s.span node).endLine < c.span.startLine) (hLast : s.inserts = false → later ≠ []) :
    s.precedes node c = false ∧ s.wants node later c = false := by
  have hTrails : c.trails (s.span node) (later.map s.span) = false := by
    have hLate : ¬ c.span.endLine ≤ (s.span node).endLine := by omega
    simp [Comment.trails, hLate]
  have hEnds : ¬ c.span.endLine < (s.span node).endLine := by omega
  cases hInserts : s.inserts with
  | false => simp [precedes, wants, hInserts, hEnds, hTrails, hLast hInserts]
  | true =>
    have hNode := hLines.proper hInserts node List.mem_cons_self
    have hStart : ¬ c.span.startLine < (s.span node).startLine := by omega
    simp [precedes, wants, hInserts, hStart, hEnds, hTrails, hLines.unowned hInserts]

/-- A comment that remains would pass the node by itself, too. The first that remains does so, and all
others start after the end of the node. -/
theorem passes_of_mem_left (h : Collected s node later cs before given left) (hLines : s.ByLines (node :: later))
    (hComments : Comment.InOrder cs) (hc : c ∈ left) :
    s.precedes node c = false ∧ s.wants node later c = false := by
  rcases h.refused_or_after hComments hc with hPasses | hAfter
  · exact hPasses
  · refine passes_of_after hLines (hComments.proper c (h.sublist.2.2.subset hc)) hAfter fun hInserts hLast => ?_
    rw [h.left_nil hInserts hLast] at hc
    cases hc

/-- Each comment is taken once, if at all. -/
theorem places_eq (h : Collected s node later cs before given left) (hNodup : cs.Nodup) :
    (c ∈ before → (⟨before, node, given⟩ : Slot α).places c = [.before node] ∧ c ∉ left) ∧
      (c ∈ given → (⟨before, node, given⟩ : Slot α).places c = [.given node] ∧ c ∉ left) ∧
      (c ∈ left → (⟨before, node, given⟩ : Slot α).places c = []) := by
  have hAll : (before ++ given ++ left).Nodup := h.perm.nodup_iff.2 hNodup
  obtain ⟨hTaken, -, hLeft⟩ := List.nodup_append.1 hAll
  obtain ⟨hBefore, hGiven, hApart⟩ := List.nodup_append.1 hTaken
  refine ⟨fun hc => ⟨?_, fun hMem => ?_⟩, fun hc => ⟨?_, fun hMem => ?_⟩, fun hc => ?_⟩
  · have hNot : c ∉ given := fun hMem => hApart c hc c hMem rfl
    simp [Slot.places, List.count_eq_one_of_mem hBefore hc, List.count_eq_zero_of_not_mem hNot]
  · exact hLeft c (List.mem_append_left given hc) c hMem rfl
  · have hNot : c ∉ before := fun hMem => hApart c hMem c hc rfl
    simp [Slot.places, List.count_eq_one_of_mem hGiven hc, List.count_eq_zero_of_not_mem hNot]
  · exact hLeft c (List.mem_append_right before hc) c hMem rfl
  · exact Slot.places_of_not_mem (fun hMem => hLeft c (List.mem_append_left given hMem) c hc rfl)
      (fun hMem => hLeft c (List.mem_append_right before hMem) c hc rfl)

end Collected

/-! ### A comment by itself -/

theorem places_share_nil (s : Sharing α) (nodes : List α) (c : Comment) : (s.share nodes []).places c = [] := by
  induction nodes with
  | nil => rfl
  | cons node later ih => simpa [share, collect, Shares.places, Slot.places] using ih

theorem places_share_cons (s : Sharing α) (node : α) (later : List α) (c : Comment) :
    (s.share (node :: later) [c]).places c = if s.precedes node c then [.before node]
      else if s.wants node later c then [.given node]
      else (s.share later [c]).places c := by
  have hRest := s.places_share_nil later c
  rw [share, collect]
  split_ifs <;> simp [collect, Shares.places_cons, Slot.places, hRest]

/-- A comment by itself has one place. -/
theorem exists_place_alone (s : Sharing α) (nodes : List α) (c : Comment) :
    ∃ place, (s.share nodes [c]).places c = [place] := by
  induction nodes with
  | nil => exact ⟨.last, by simp [share, Shares.places]⟩
  | cons node later ih =>
    rw [places_share_cons]
    split_ifs
    · exact ⟨.before node, rfl⟩
    · exact ⟨.given node, rfl⟩
    · exact ih

/-- A comment by itself is given to a node if comments are not inserted. -/
theorem exists_given_alone (hInserts : s.inserts = false) (hNodes : nodes ≠ []) (c : Comment) :
    ∃ node ∈ nodes, (s.share nodes [c]).places c = [.given node] := by
  induction nodes with
  | nil => exact absurd rfl hNodes
  | cons node later ih =>
    rw [places_share_cons]
    have hPrecedes : s.precedes node c = false := by simp [precedes, hInserts]
    rw [hPrecedes, if_neg Bool.false_ne_true]
    split_ifs with hWants
    · exact ⟨node, List.mem_cons_self, rfl⟩
    · have hLater : later ≠ [] := by
        rintro rfl
        simp [wants, hInserts] at hWants
      obtain ⟨other, hOther, hPlace⟩ := ih hLater
      exact ⟨other, List.mem_cons_of_mem node hOther, hPlace⟩

/-! ### Comments among others -/

/-- Each comment has the places that it has by itself. -/
theorem Shared.places_eq (h : Shared s nodes cs slots trailing) (hLines : s.ByLines nodes)
    (hComments : Comment.InOrder cs) (hc : c ∈ cs) :
    Shares.places ⟨slots, trailing⟩ c = (s.share nodes [c]).places c := by
  induction h with
  | @nil cs =>
    simp [share, Shares.places, List.count_eq_one_of_mem hComments.nodup hc]
  | @cons node later cs before given left trailing slots hNode hLater ih =>
    have hRemaining := hComments.sublist hNode.sublist.2.2
    obtain ⟨hIfBefore, hIfGiven, hIfLeft⟩ := hNode.places_eq (c := c) hComments.nodup
    have hElsewhere : c ∉ left → Shares.places ⟨slots, trailing⟩ c = [] := by
      intro hNot
      have hWalk : c ∉ Shares.walk ⟨slots, trailing⟩ := fun hMem => hNot (hLater.walk_perm.mem_iff.1 hMem)
      simp only [Shares.walk, List.mem_append, List.mem_flatMap, not_or, not_exists, not_and] at hWalk
      have hSlots : slots.flatMap (·.places c) = [] :=
        List.flatMap_eq_nil_iff.2 fun slot hSlot =>
          Slot.places_of_not_mem (hWalk.1 slot hSlot).1 (hWalk.1 slot hSlot).2
      simp [Shares.places, hSlots, List.count_eq_zero_of_not_mem hWalk.2]
    rw [Shares.places_cons, places_share_cons]
    rcases List.mem_append.1 (hNode.perm.mem_iff.2 hc) with hTaken | hLeft
    · rcases List.mem_append.1 hTaken with hBefore | hGiven
      · obtain ⟨hPlace, hNot⟩ := hIfBefore hBefore
        rw [hPlace, hElsewhere hNot, hNode.precedes_of_mem hBefore, if_pos rfl, List.append_nil]
      · obtain ⟨hPlace, hNot⟩ := hIfGiven hGiven
        rw [hPlace, hElsewhere hNot, hNode.not_precedes_of_mem hGiven, hNode.wants_of_mem hGiven,
          if_neg Bool.false_ne_true, if_pos rfl, List.append_nil]
    · obtain ⟨hPrecedes, hWants⟩ := hNode.passes_of_mem_left hLines hComments hLeft
      rw [hIfLeft hLeft, hPrecedes, hWants, if_neg Bool.false_ne_true, if_neg Bool.false_ne_true, List.nil_append]
      exact ih hLines.tail hRemaining hLeft

/-- Comments in the order of the source are shared out as if each were the only one. If comments are not
inserted, each is given to the one node that it is given to by itself. If they are, and no node claims
comments that stand after it, each is given to the same node as by itself, or inserted right before the same
node, or after all nodes. -/
theorem share_places_as_alone (s : Sharing α) (nodes : List α) {comments : List Comment}
    (hComments : Comment.InOrder comments) :
    (s.inserts = false → nodes ≠ [] → ∀ c ∈ comments, ∃ node ∈ nodes,
      (s.share nodes comments).places c = [.given node] ∧ (s.share nodes [c]).places c = [.given node]) ∧
    (s.inserts = true → (∀ node c, s.owns node c = false) →
      (∀ node ∈ nodes, (s.span node).startLine ≤ (s.span node).endLine) → ∀ c ∈ comments, ∃ place,
        (s.share nodes comments).places c = [place] ∧ (s.share nodes [c]).places c = [place]) := by
  have hShared := s.shared_share nodes comments
  refine ⟨fun hInserts hNodes c hc => ?_, fun hInserts hOwns hProper c hc => ?_⟩
  · have hLines : s.ByLines nodes := ⟨by simp [hInserts], by simp [hInserts]⟩
    obtain ⟨node, hNode, hPlace⟩ := exists_given_alone hInserts hNodes c
    exact ⟨node, hNode, (hShared.places_eq hLines hComments hc).trans hPlace, hPlace⟩
  · have hLines : s.ByLines nodes := ⟨fun _ => hOwns, fun _ => hProper⟩
    obtain ⟨place, hPlace⟩ := s.exists_place_alone nodes c
    exact ⟨place, (hShared.places_eq hLines hComments hc).trans hPlace, hPlace⟩

end Sharing

/-- Of the comments after a comma, the first is given to the second word and the second is inserted before
that word, both as by themselves. -/
theorem commentsAfterComma_are_placed_as_alone :
    Comment.InOrder commentsAfterComma ∧
      (∀ c ∈ commentsAfterComma, ∃ place,
        (wordSharing.share listedWords commentsAfterComma).places c = [place] ∧
          (wordSharing.share listedWords [c]).places c = [place]) ∧
      ∀ c ∈ commentsAfterComma, ∃ node ∈ listedWords,
        (({ wordSharing with inserts := false } : Sharing Span).share listedWords commentsAfterComma).places c =
            [.given node] ∧
          (({ wordSharing with inserts := false } : Sharing Span).share listedWords [c]).places c = [.given node] := by
  have hComments : Comment.InOrder commentsAfterComma := ⟨by decide, by decide⟩
  refine ⟨hComments, ?_, ?_⟩
  · exact (wordSharing.share_places_as_alone listedWords hComments).2 rfl (fun _ _ => rfl) (by decide)
  · exact (({ wordSharing with inserts := false } : Sharing Span).share_places_as_alone listedWords hComments).1 rfl
      (by decide)

end PolicyFormat.Policy
