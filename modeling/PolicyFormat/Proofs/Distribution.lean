import Mathlib.Algebra.Order.BigOperators.Group.List
import Mathlib.Algebra.Order.Ring.Nat
import PolicyFormat.Proofs.Sharing

/-! What sharing comments out among nodes gives as a whole. Each comment ends up at exactly one place.
Comments that are read off place by place come in the order of the source, unless a comment that
belongs to a node is followed by one that stands by itself before the same node. -/
namespace PolicyFormat.Policy

variable {c d : Comment}

variable {α : Type}

/-! ### Reading off shares -/

/-- The comment, if the entry is one. -/
def Entry.comment? : Entry α → Option Comment
  | .item _ => none
  | .comment c => some c

namespace Shares

/-- The nodes with the comments that are inserted between them. -/
def entries (shares : Shares α) : List (Entry α) :=
  shares.slots.flatMap (fun slot => slot.before.map .comment ++ [.item slot.node]) ++ shares.trailing.map .comment

/-- The comments that are inserted between the nodes. -/
def inserted (shares : Shares α) : List Comment :=
  shares.entries.filterMap Entry.comment?

/-- The comments that are given to a node. -/
def givenTo [DecidableEq α] (shares : Shares α) (node : α) : List Comment :=
  (shares.slots.find? (·.node = node)).elim [] (·.given)

/-- How often a comment is inserted between the nodes or given to one of them. -/
def occurrences [DecidableEq α] (shares : Shares α) (nodes : List α) (c : Comment) : Nat :=
  shares.inserted.count c + (nodes.map (fun node => (shares.givenTo node).count c)).sum

/-- The comments in the order of their places: those before a node, then those given to it. -/
def walk (shares : Shares α) : List Comment :=
  shares.slots.flatMap (fun slot => slot.before ++ slot.given) ++ shares.trailing

theorem items_entries (shares : Shares α) : shares.entries.filterMap Entry.item? = shares.slots.map (·.node) := by
  rw [List.map_eq_flatMap]
  simp [entries, List.filterMap_flatMap, List.filterMap_map, Function.comp_def, Entry.item?]

theorem inserted_eq (shares : Shares α) : shares.inserted = shares.slots.flatMap (·.before) ++ shares.trailing := by
  simp [inserted, entries, List.filterMap_flatMap, List.filterMap_map, Function.comp_def, Entry.comment?,
    List.filterMap_cons]

section

variable [DecidableEq α] {shares : Shares α}

theorem givenTo_slot (hNodup : (shares.slots.map (·.node)).Nodup) {slot : Slot α}
    (hSlot : slot ∈ shares.slots) : shares.givenTo slot.node = slot.given := by
  obtain ⟨slots, trailing⟩ := shares
  simp only [givenTo] at hNodup hSlot ⊢
  induction slots with
  | nil => cases hSlot
  | cons first slots ih =>
    obtain ⟨hFirst, hRest⟩ := List.nodup_cons.1 hNodup
    rcases List.mem_cons.1 hSlot with rfl | hSlot
    · simp
    · have hOther : first.node ≠ slot.node :=
        fun hSame => hFirst (List.mem_map.2 ⟨slot, hSlot, hSame.symm⟩)
      rw [List.find?_cons_of_neg (by simpa using hOther)]
      exact ih hRest hSlot

theorem givenTo_absent {node : α} (h : node ∉ shares.slots.map (·.node)) : shares.givenTo node = [] := by
  have hNone : shares.slots.find? (·.node = node) = none := by
    simp only [List.find?_eq_none, decide_eq_true_eq]
    exact fun slot hSlot hSame => h (List.mem_map.2 ⟨slot, hSlot, hSame⟩)
  simp [givenTo, hNone]

end

end Shares

/-! ### Each comment at one place -/

/-- Of numbers that add up to one, one is not zero. -/
theorem existsUnique_of_sum_eq_one {f : α → Nat} {xs : List α} (hNodup : xs.Nodup)
    (hSum : (xs.map f).sum = 1) : ∃! x, x ∈ xs ∧ 0 < f x := by
  induction xs with
  | nil => simp at hSum
  | cons x xs ih =>
    obtain ⟨hNew, hRest⟩ := List.nodup_cons.1 hNodup
    rw [List.map_cons, List.sum_cons] at hSum
    by_cases hZero : f x = 0
    · obtain ⟨y, ⟨hMem, hPos⟩, hOnly⟩ := ih hRest (by omega)
      refine ⟨y, ⟨List.mem_cons_of_mem x hMem, hPos⟩, ?_⟩
      rintro z ⟨hz, hzPos⟩
      rcases List.mem_cons.1 hz with rfl | hz
      · omega
      · exact hOnly z ⟨hz, hzPos⟩
    · refine ⟨x, ⟨List.mem_cons_self, by omega⟩, ?_⟩
      rintro z ⟨hz, hzPos⟩
      rcases List.mem_cons.1 hz with rfl | hz
      · rfl
      · have hLe : f z ≤ (xs.map f).sum :=
          List.single_le_sum (fun _ _ => Nat.zero_le _) _ (List.mem_map_of_mem hz)
        omega

namespace Sharing

variable {s : Sharing α}

/-- What is inserted before a node and what remains after it is in the order of the comments. -/
theorem Collected.insertable_sublist {node : α} {later : List α} {cs before given left : List Comment}
    (h : Collected s node later cs before given left) : (before ++ left).Sublist cs := by
  induction h with
  | nil => exact .refl _
  | stop => exact .refl _
  | before hPrecedes h ih => exact ih.cons_cons _
  | given hPrecedes hWants h ih => exact ih.cons _

namespace Shared

variable {nodes : List α} {cs trailing : List Comment} {slots : List (Slot α)}

theorem inserted_sublist (h : Shared s nodes cs slots trailing) :
    (slots.flatMap (·.before) ++ trailing).Sublist cs := by
  induction h with
  | nil => exact .refl _
  | cons hNode hLater ih =>
    rw [List.flatMap_cons, List.append_assoc]
    exact (ih.append_left _).trans hNode.insertable_sublist

theorem walk_perm (h : Shared s nodes cs slots trailing) : (Shares.walk ⟨slots, trailing⟩).Perm cs := by
  induction h with
  | nil => exact .refl _
  | @cons node later cs before given left trailing slots hNode hLater ih =>
    have hLeft : (before ++ given ++ Shares.walk ⟨slots, trailing⟩).Perm (before ++ given ++ left) :=
      ih.append_left _
    simpa [Shares.walk] using hLeft.trans hNode.perm

theorem count_eq (h : Shared s nodes cs slots trailing) (c : Comment) :
    (slots.flatMap (·.before) ++ trailing).count c + (slots.map (·.given.count c)).sum = cs.count c := by
  rw [← h.walk_perm.count_eq c, Shares.walk]
  simp only [List.count_append, List.count_flatMap, Function.comp_def, List.sum_map_add]
  omega

end Shared

section

variable [DecidableEq α] (s) {nodes : List α} (comments : List Comment)

theorem occurrences_share (hNodes : nodes.Nodup) (c : Comment) :
    (s.share nodes comments).occurrences nodes c = comments.count c := by
  have hShared := s.shared_share nodes comments
  have hNodup : ((s.share nodes comments).slots.map (·.node)).Nodup := by rwa [hShared.nodes_eq]
  have hGiven : nodes.map (fun node => ((s.share nodes comments).givenTo node).count c) =
      (s.share nodes comments).slots.map (·.given.count c) := by
    conv_lhs => arg 2; rw [← hShared.nodes_eq]
    rw [List.map_map]
    exact List.map_congr_left fun slot hSlot => by simp [Shares.givenTo_slot hNodup hSlot]
  rw [Shares.occurrences, Shares.inserted_eq, hGiven]
  exact hShared.count_eq c

theorem givenTo_share_sublist (hNodes : nodes.Nodup) (node : α) :
    ((s.share nodes comments).givenTo node).Sublist comments := by
  have hShared := s.shared_share nodes comments
  by_cases hNode : node ∈ (s.share nodes comments).slots.map (·.node)
  · obtain ⟨slot, hSlot, rfl⟩ := List.mem_map.1 hNode
    rw [Shares.givenTo_slot (by rwa [hShared.nodes_eq]) hSlot]
    exact (hShared.sublist.1 slot hSlot).2
  · rw [Shares.givenTo_absent hNode]
    exact List.nil_sublist _

end

/-- If comments are not inserted, the entries are the nodes. -/
theorem entries_share (s : Sharing α) {nodes : List α} (comments : List Comment)
    (hInserts : s.inserts = false) (hNodes : nodes ≠ []) :
    (s.share nodes comments).entries = nodes.map .item := by
  have hShared := s.shared_share nodes comments
  obtain ⟨hTrailing, hBefore⟩ := hShared.all_given hInserts hNodes
  rw [Shares.entries, hTrailing, List.map_nil, List.append_nil]
  conv_rhs => rw [← hShared.nodes_eq, List.map_map, List.map_eq_flatMap]
  exact List.flatMap_congr fun slot hSlot => by simp [hBefore slot hSlot]

/-- However comments are shared out among distinct nodes, each is at one place, or at as many as it has
copies. If comments are inserted, the nodes stay in their order, and the comments between them and those
that any one node is given are in the order of the comments. If not, there is nothing but the nodes, and
each comment is given to one of them, provided that there are any. -/
theorem share_places_comments_once [DecidableEq α] (s : Sharing α) {nodes : List α} (hNodes : nodes.Nodup)
    (comments : List Comment) :
    (∀ c, (s.share nodes comments).occurrences nodes c = comments.count c) ∧
    (comments.Nodup → ∀ c ∈ comments, (s.share nodes comments).occurrences nodes c = 1) ∧
    (s.inserts = true →
      (s.share nodes comments).entries.filterMap Entry.item? = nodes ∧
      (s.share nodes comments).inserted.Sublist comments ∧
      ∀ node, ((s.share nodes comments).givenTo node).Sublist comments) ∧
    (s.inserts = false → nodes ≠ [] →
      (s.share nodes comments).entries = nodes.map .item ∧
      (comments.Nodup → ∀ c ∈ comments, ∃! node, node ∈ nodes ∧ c ∈ (s.share nodes comments).givenTo node)) := by
  have hShared := s.shared_share nodes comments
  have hCount := s.occurrences_share comments hNodes
  have hOnce : comments.Nodup → ∀ c ∈ comments, (s.share nodes comments).occurrences nodes c = 1 :=
    fun hNodup c hc => (hCount c).trans (List.count_eq_one_of_mem hNodup hc)
  refine ⟨hCount, hOnce, fun _ => ⟨?_, ?_, s.givenTo_share_sublist comments hNodes⟩, fun hInserts hSome => ?_⟩
  · rw [Shares.items_entries, hShared.nodes_eq]
  · rw [Shares.inserted_eq]
    exact hShared.inserted_sublist
  · have hEntries := s.entries_share comments hInserts hSome
    refine ⟨hEntries, fun hNodup c hc => ?_⟩
    have hNone : (s.share nodes comments).inserted = [] := by
      simp [Shares.inserted, hEntries, List.filterMap_map, Function.comp_def, Entry.comment?]
    have hSum := hOnce hNodup c hc
    rw [Shares.occurrences, hNone, List.count_nil, Nat.zero_add] at hSum
    simpa [List.count_pos_iff] using existsUnique_of_sum_eq_one hNodes hSum

end Sharing

/-- Sharing among the words of a list, with comments between them. -/
def wordSharing : Sharing Span where
  span := id
  inserts := true

/-- The words of a list on the second and the seventh line of a text. -/
def listedWords : List Span :=
  [⟨2, 2, 20, 23⟩, ⟨7, 7, 51, 54⟩]

/-- A comment at the end of a line between the words, after a comma that stands there, and one by
itself. -/
def commentsAfterComma : List Comment :=
  [{ span := ⟨3, 3, 28, 35⟩, lines := ["# first"], affinity := some .endOfLine, column := 4 },
    { span := ⟨5, 5, 39, 47⟩, lines := ["# second"], affinity := some .standalone, column := 2 }]

theorem commentsAfterComma_are_placed_once :
    listedWords.Nodup ∧ commentsAfterComma.Nodup ∧
      (∀ c ∈ commentsAfterComma,
        (wordSharing.share listedWords commentsAfterComma).occurrences listedWords c = 1) ∧
      (wordSharing.share listedWords commentsAfterComma).inserted.Sublist commentsAfterComma ∧
      ∀ c ∈ commentsAfterComma, ∃! node, node ∈ listedWords ∧
        c ∈ (({ wordSharing with inserts := false } : Sharing Span).share listedWords commentsAfterComma).givenTo
          node := by
  have hNodes : listedWords.Nodup := by decide
  have hComments : commentsAfterComma.Nodup := by decide
  obtain ⟨-, hOnce, hInserted, -⟩ := wordSharing.share_places_comments_once hNodes commentsAfterComma
  obtain ⟨-, -, -, hGiven⟩ :=
    ({ wordSharing with inserts := false } : Sharing Span).share_places_comments_once hNodes commentsAfterComma
  exact ⟨hNodes, hComments, hOnce hComments, (hInserted rfl).2.1, (hGiven rfl (by decide)).2 hComments⟩

/-! ### Comments in the order of the source -/

/-- The first comment ends on a line before the one on which the second starts. -/
def Comment.Before (c d : Comment) : Prop :=
  c.span.endLine < d.span.startLine

instance (c d : Comment) : Decidable (c.Before d) :=
  inferInstanceAs (Decidable (_ < _))

/-- The comments are in the order of the source. -/
structure Comment.InOrder (comments : List Comment) : Prop where
  proper : ∀ c ∈ comments, c.span.startLine ≤ c.span.endLine
  ordered : comments.Pairwise Comment.Before

theorem Comment.InOrder.sublist {cs ds : List Comment} (h : Comment.InOrder cs) (hSub : ds.Sublist cs) :
    Comment.InOrder ds :=
  ⟨fun c hc => h.proper c (hSub.subset hc), h.ordered.sublist hSub⟩

/-- The comment ends before the last line of the node, or on it if it starts on a line of the node. -/
def Span.Takes (node : Span) (c : Comment) : Prop :=
  c.span.endLine < node.endLine ∨ (c.span.endLine ≤ node.endLine ∧ node.covers c.span.startLine = true)

instance (node : Span) (c : Comment) : Decidable (node.Takes c) :=
  inferInstanceAs (Decidable (_ ∨ _))

theorem Span.covers_iff {node : Span} {line : Int} :
    node.covers line = true ↔ node.startLine ≤ line ∧ line ≤ node.endLine := by
  simp [Span.covers]

namespace Sharing

/-- The nodes are in the order of the source. -/
structure InOrder (s : Sharing α) (nodes : List α) : Prop where
  proper : ∀ node ∈ nodes, (s.span node).startLine ≤ (s.span node).endLine
  ordered : nodes.Pairwise (fun a b => (s.span a).endLine ≤ (s.span b).startLine)

/-- Two comments stand before the same node, the first as part of it and the second by itself: a node
follows, and none that starts before the second comment takes the first. -/
def Strands (s : Sharing α) (nodes : List α) (c d : Comment) : Prop :=
  c.isStandalone = false ∧ d.isStandalone = true ∧ (∃ node ∈ nodes, d.span.startLine < (s.span node).startLine) ∧
    ∀ node ∈ nodes, (s.span node).startLine ≤ d.span.startLine → ¬ (s.span node).Takes c

instance (s : Sharing α) (nodes : List α) (c d : Comment) : Decidable (s.Strands nodes c d) :=
  inferInstanceAs (Decidable (_ ∧ _ ∧ _ ∧ _))

section

variable {s : Sharing α} {node : α} {later : List α}

theorem InOrder.tail (h : s.InOrder (node :: later)) : s.InOrder later :=
  ⟨fun x hx => h.proper x (List.mem_cons_of_mem node hx), (List.pairwise_cons.1 h.ordered).2⟩

theorem InOrder.endLine_le (h : s.InOrder (node :: later)) {x : α} (hx : x ∈ later) :
    (s.span node).endLine ≤ (s.span x).startLine :=
  (List.pairwise_cons.1 h.ordered).1 x hx

theorem InOrder.startLine_le (h : s.InOrder (node :: later)) {x : α} (hx : x ∈ node :: later) :
    (s.span node).startLine ≤ (s.span x).startLine := by
  rcases List.mem_cons.1 hx with rfl | hx
  · exact Int.le_refl _
  · exact Int.le_trans (h.proper node List.mem_cons_self) (h.endLine_le hx)

theorem precedes_iff (hInserts : s.inserts = true) :
    s.precedes node c = true ↔ c.isStandalone = true ∧ c.span.startLine < (s.span node).startLine := by
  simp [precedes, hInserts]

theorem wants_of_endLine_lt (h : c.span.endLine < (s.span node).endLine) : s.wants node later c = true := by
  simp [wants, h]

/-- A comment that does not stand by itself is wanted by a node that is not the last one only if the node
takes it. -/
theorem not_wants (hInserts : s.inserts = true) (hLater : later ≠ []) (hAttached : c.isStandalone = false)
    (hTakes : ¬ (s.span node).Takes c) :
    s.wants node later c = false := by
  obtain ⟨hEnds, hTrails⟩ := not_or.1 hTakes
  have hTrail : c.trails (s.span node) (later.map s.span) = false := by
    rw [Bool.eq_false_iff]
    intro hTrue
    simp only [Comment.trails, Bool.and_eq_true, decide_eq_true_eq] at hTrue
    exact hTrails hTrue.1
  cases later with
  | nil => exact absurd rfl hLater
  | cons next later =>
    rw [List.map_cons] at hTrail
    simp [wants, isBeforeNext, hInserts, hAttached, hEnds, hTrail]

/-- A node that takes a comment but does not want it leaves it to a later node on the same line. -/
theorem exists_covers_of_takes (hTakes : (s.span node).Takes c) (hWants : s.wants node later c = false) :
    c.span.endLine ≤ (s.span node).endLine ∧ ∃ next ∈ later, (s.span next).covers c.span.startLine = true := by
  simp only [wants, Bool.or_eq_false_iff, decide_eq_false_iff_not] at hWants
  obtain ⟨⟨⟨-, hEnds⟩, hTrails⟩, -⟩ := hWants
  obtain ⟨hEnd, hCovers⟩ := hTakes.resolve_left hEnds
  refine ⟨hEnd, ?_⟩
  simpa [Comment.trails, hEnd, hCovers] using hTrails

namespace Collected

variable {cs before given left : List Comment} (h : Collected s node later cs before given left)
include h

/-- What remains is what follows the comments that were taken. -/
theorem exists_taken : ∃ taken, cs = taken ++ left ∧ (before ++ given).Perm taken := by
  induction h with
  | nil => exact ⟨[], rfl, .nil⟩
  | stop => exact ⟨[], rfl, .nil⟩
  | @before c rest before given left hPrecedes h ih =>
    obtain ⟨taken, rfl, hPerm⟩ := ih
    exact ⟨c :: taken, rfl, hPerm.cons c⟩
  | @given c rest before given left hPrecedes hWants h ih =>
    obtain ⟨taken, rfl, hPerm⟩ := ih
    exact ⟨c :: taken, rfl, List.perm_middle.trans (hPerm.cons c)⟩

theorem not_precedes_of_mem (hc : c ∈ given) : s.precedes node c = false := by
  induction h with
  | nil => cases hc
  | stop => cases hc
  | before hPrecedes h ih => exact ih hc
  | given hPrecedes hWants h ih =>
    rcases List.mem_cons.1 hc with rfl | hc
    · exact hPrecedes
    · exact ih hc

/-- The comments stay in order if none is inserted before the node after one that is given to it. -/
theorem append_eq (hOrder : cs.Pairwise (fun c d => s.precedes node d = true → s.precedes node c = true)) :
    before ++ given ++ left = cs := by
  induction h with
  | nil => rfl
  | stop => rfl
  | before hPrecedes h ih => simpa using ih (List.pairwise_cons.1 hOrder).2
  | @given c rest before given left hPrecedes hWants h ih =>
    obtain ⟨hFirst, hRest⟩ := List.pairwise_cons.1 hOrder
    obtain rfl : before = [] := by
      refine List.eq_nil_iff_forall_not_mem.2 fun d hd => ?_
      have hSame := hFirst d (h.sublist.1.subset hd) (h.precedes_of_mem hd)
      rw [hPrecedes] at hSame
      cases hSame
    simpa using ih hRest

/-- A comment that remains was passed over by the node, or it starts after the end of the node. -/
theorem refused_or_after (hComments : Comment.InOrder cs) (hc : c ∈ left) :
    (s.precedes node c = false ∧ s.wants node later c = false) ∨ (s.span node).endLine < c.span.startLine := by
  cases hLeft : left with
  | nil => simp [hLeft] at hc
  | cons first rest =>
    have hFirst := h.not_wants_head (c := first) (by simp [hLeft])
    rw [hLeft] at hc
    rcases List.mem_cons.1 hc with rfl | hRest
    · exact .inl hFirst
    · have hOrdered := (hComments.sublist h.sublist.2.2).ordered
      rw [hLeft] at hOrdered
      have hBefore : first.span.endLine < c.span.startLine := (List.pairwise_cons.1 hOrdered).1 c hRest
      have hLate : ¬ first.span.endLine < (s.span node).endLine := by
        intro hEarly
        rw [wants_of_endLine_lt hEarly] at hFirst
        cases hFirst.2
      exact .inr (by omega)

/-- A comment that remains is not wanted, even if the node takes it. -/
theorem not_wants_of_takes (hComments : Comment.InOrder cs) (hc : c ∈ left) (hTakes : (s.span node).Takes c) :
    s.wants node later c = false := by
  rcases h.refused_or_after hComments hc with hRefused | hAfter
  · exact hRefused.2
  · have hProper := hComments.proper c (h.sublist.2.2.subset hc)
    rcases hTakes with hEnds | ⟨-, hCovers⟩
    · omega
    · have hTo := (Span.covers_iff.1 hCovers).2
      omega

/-- A comment that starts before the end of the node and that the node accepts does not remain. -/
theorem not_mem_left (hComments : Comment.InOrder cs)
    (hAccepts : s.precedes node c = true ∨ s.wants node later c = true)
    (hStart : c.span.startLine ≤ (s.span node).endLine) : c ∉ left := by
  intro hc
  rcases h.refused_or_after hComments hc with ⟨hPrecedes, hWants⟩ | hAfter
  · simp [hPrecedes, hWants] at hAccepts
  · omega

end Collected

/-! ### What two comments before the same node do -/

section

variable (hNodes : s.InOrder (node :: later))
include hNodes

/-- If a comment is inserted before the first node and an earlier one is not, the two are stranded. -/
theorem strands_of_precedes (hInserts : s.inserts = true) (hProper : c.span.startLine ≤ c.span.endLine)
    (hBefore : c.Before d) (hPrecedes : s.precedes node d = true) (hOther : s.precedes node c = false) :
    s.Strands (node :: later) c d := by
  obtain ⟨hStandalone, hStart⟩ := (precedes_iff hInserts).1 hPrecedes
  have hEarly : c.span.startLine < (s.span node).startLine := by
    have hLines : c.span.endLine < d.span.startLine := hBefore
    omega
  have hAttached : c.isStandalone = false := by
    rw [Bool.eq_false_iff]
    intro hTrue
    rw [(precedes_iff hInserts).2 ⟨hTrue, hEarly⟩] at hOther
    cases hOther
  refine ⟨hAttached, hStandalone, ⟨node, List.mem_cons_self, hStart⟩, fun x hx hLate => ?_⟩
  have hFirst := hNodes.startLine_le hx
  omega

variable {cs before given left : List Comment} (hNode : Collected s node later cs before given left)
  (hComments : Comment.InOrder cs)
include hNode hComments

/-- Comments that are stranded among the later nodes are stranded among all of them. -/
theorem strands_cons (hLeft : [c, d].Sublist left) (h : s.Strands later c d) : s.Strands (node :: later) c d := by
  obtain ⟨hAttached, hStandalone, ⟨next, hNext, hStart⟩, hPassed⟩ := h
  have hRemaining := hComments.sublist hNode.sublist.2.2
  have hProper := hRemaining.proper c (hLeft.subset (by simp))
  have hLines : c.span.endLine < d.span.startLine :=
    List.pairwise_iff_forall_sublist.1 hRemaining.ordered hLeft
  refine ⟨hAttached, hStandalone, ⟨next, List.mem_cons_of_mem node hNext, hStart⟩, fun x hx hEarly hTakes => ?_⟩
  rcases List.mem_cons.1 hx with rfl | hx
  · have hWants : s.wants x later c = false := hNode.not_wants_of_takes hComments (hLeft.subset (by simp)) hTakes
    -- A later node covers the line of the comment. It starts where the first node ends, and takes it too.
    obtain ⟨hEnd, other, hOther, hCovers⟩ := exists_covers_of_takes hTakes hWants
    have hAfter := hNodes.endLine_le hOther
    obtain ⟨hFrom, hTo⟩ := Span.covers_iff.1 hCovers
    exact hPassed other hOther (by omega) (.inr ⟨by omega, hCovers⟩)
  · exact hPassed x hx hEarly hTakes

/-- If comments are stranded among all nodes, and the first node starts before the second comment, the two
remain after the first node and are stranded among the later ones. -/
theorem strands_tail (hInserts : s.inserts = true) (hPair : [c, d].Sublist cs)
    (h : s.Strands (node :: later) c d) (hEarly : (s.span node).startLine ≤ d.span.startLine) :
    [c, d].Sublist left ∧ s.Strands later c d := by
  obtain ⟨hAttached, hStandalone, ⟨next, hNext, hStart⟩, hPassed⟩ := h
  have hNextLater : next ∈ later := by
    rcases List.mem_cons.1 hNext with rfl | hNext
    · omega
    · exact hNext
  have hNotTaken : c ∉ before ++ given := by
    intro hc
    rcases List.mem_append.1 hc with hc | hc
    · have hBefore := ((precedes_iff hInserts).1 (hNode.precedes_of_mem hc)).1
      rw [hAttached] at hBefore
      cases hBefore
    · have hNot := not_wants hInserts (List.ne_nil_of_mem hNextLater) hAttached
        (hPassed node List.mem_cons_self hEarly)
      rw [hNode.wants_of_mem hc] at hNot
      cases hNot
  refine ⟨?_, hAttached, hStandalone, ⟨next, hNextLater, hStart⟩,
    fun x hx => hPassed x (List.mem_cons_of_mem node hx)⟩
  obtain ⟨taken, rfl, hPerm⟩ := hNode.exists_taken
  obtain ⟨front, back, hSplit, hFront, hBack⟩ := List.sublist_append_iff.1 hPair
  cases front with
  | nil => rwa [hSplit]
  | cons first front =>
    obtain ⟨rfl, -⟩ := List.cons.inj hSplit
    exact absurd (hPerm.mem_iff.2 (hFront.subset List.mem_cons_self)) hNotTaken

/-- If the first node starts after both comments of a stranded pair, the second is inserted before the
node and the first is given to it. -/
theorem strands_split (hInserts : s.inserts = true) (hPair : [c, d].Sublist cs)
    (h : s.Strands (node :: later) c d) (hLate : d.span.startLine < (s.span node).startLine) :
    d ∈ before ∧ c ∈ given := by
  obtain ⟨hAttached, hStandalone, -, -⟩ := h
  have hProper := hComments.proper c (hPair.subset (by simp))
  have hNodeProper := hNodes.proper node List.mem_cons_self
  have hLines : c.span.endLine < d.span.startLine :=
    List.pairwise_iff_forall_sublist.1 hComments.ordered hPair
  have hPrecedes : s.precedes node d = true := (precedes_iff hInserts).2 ⟨hStandalone, hLate⟩
  have hc : c ∉ left :=
    hNode.not_mem_left hComments (.inr (wants_of_endLine_lt (by omega))) (by omega)
  have hd : d ∉ left := hNode.not_mem_left hComments (.inl hPrecedes) (by omega)
  have hMem {x : Comment} (hx : x ∈ cs) (hNot : x ∉ left) : x ∈ before ∨ x ∈ given := by
    have hAll := hNode.perm.mem_iff.2 hx
    simpa [hNot] using hAll
  refine ⟨(hMem (hPair.subset (by simp)) hd).resolve_right fun hGiven => ?_,
    (hMem (hPair.subset (by simp)) hc).resolve_left fun hBefore => ?_⟩
  · rw [hNode.not_precedes_of_mem hGiven] at hPrecedes
    cases hPrecedes
  · have hTrue := ((precedes_iff hInserts).1 (hNode.precedes_of_mem hBefore)).1
    rw [hAttached] at hTrue
    cases hTrue

end

namespace Shared

variable {nodes : List α} {cs trailing : List Comment} {slots : List (Slot α)}

/-- Comments of which none are stranded are read off as they were. -/
theorem walk_eq (h : Shared s nodes cs slots trailing) (hInserts : s.inserts = true) (hNodes : s.InOrder nodes)
    (hComments : Comment.InOrder cs) (hNone : cs.Pairwise (fun c d => ¬ s.Strands nodes c d)) :
    Shares.walk ⟨slots, trailing⟩ = cs := by
  induction h with
  | nil => rfl
  | @cons node later cs before given left trailing slots hNode hLater ih =>
    have hFirst : before ++ given ++ left = cs := by
      refine hNode.append_eq ?_
      rw [List.pairwise_iff_forall_sublist] at hNone ⊢
      intro c d hPair hPrecedes
      by_contra hOther
      have hBefore := List.pairwise_iff_forall_sublist.1 hComments.ordered hPair
      exact hNone hPair (strands_of_precedes hNodes hInserts (hComments.proper c (hPair.subset (by simp)))
        hBefore hPrecedes (Bool.eq_false_iff.2 hOther))
    have hRest : Shares.walk ⟨slots, trailing⟩ = left := by
      refine ih hNodes.tail (hComments.sublist hNode.sublist.2.2) ?_
      rw [List.pairwise_iff_forall_sublist] at hNone ⊢
      intro c d hPair hStrands
      exact hNone (hPair.trans hNode.sublist.2.2) (strands_cons hNodes hNode hComments hPair hStrands)
    calc Shares.walk ⟨⟨before, node, given⟩ :: slots, trailing⟩
      _ = before ++ given ++ Shares.walk ⟨slots, trailing⟩ := by simp [Shares.walk]
      _ = cs := by rw [hRest, hFirst]

/-- Comments that are read off in the order of the source are not stranded. -/
theorem not_strands (h : Shared s nodes cs slots trailing) (hInserts : s.inserts = true)
    (hNodes : s.InOrder nodes) (hComments : Comment.InOrder cs)
    (hWalk : (Shares.walk ⟨slots, trailing⟩).Pairwise Comment.Before) (hPair : [c, d].Sublist cs) :
    ¬ s.Strands nodes c d := by
  induction h with
  | nil =>
    rintro ⟨-, -, ⟨node, hNode, -⟩, -⟩
    cases hNode
  | @cons node later cs before given left trailing slots hNode hLater ih =>
    intro hStrands
    have hParts : Shares.walk ⟨⟨before, node, given⟩ :: slots, trailing⟩ =
        before ++ given ++ Shares.walk ⟨slots, trailing⟩ := by simp [Shares.walk]
    rw [hParts, List.pairwise_append, List.pairwise_append] at hWalk
    rcases lt_or_ge d.span.startLine (s.span node).startLine with hLate | hEarly
    · obtain ⟨hd, hc⟩ := strands_split hNodes hNode hComments hInserts hPair hStrands hLate
      have hSwapped : d.span.endLine < c.span.startLine := hWalk.1.2.2 d hd c hc
      have hBefore : c.span.endLine < d.span.startLine :=
        List.pairwise_iff_forall_sublist.1 hComments.ordered hPair
      have hProper := hComments.proper c (hPair.subset (by simp))
      have hProper' := hComments.proper d (hPair.subset (by simp))
      omega
    · obtain ⟨hLeft, hTail⟩ := strands_tail hNodes hNode hComments hInserts hPair hStrands hEarly
      exact ih hNodes.tail (hComments.sublist hNode.sublist.2.2) hWalk.2.1 hLeft hTail

end Shared

end

/-- Comments that are shared out among nodes with comments between them, and read off again place by
place, come in the order of the source exactly if no two of them stand before the same node, the first as
part of the node and the second by itself. -/
theorem walk_inOrder_iff (s : Sharing α) (hInserts : s.inserts = true) {nodes : List α}
    (hNodes : s.InOrder nodes) {comments : List Comment} (hComments : Comment.InOrder comments) :
    (s.share nodes comments).walk.Pairwise Comment.Before ↔
      comments.Pairwise (fun c d => ¬ s.Strands nodes c d) := by
  have hShared := s.shared_share nodes comments
  constructor
  · intro hWalk
    exact List.pairwise_iff_forall_sublist.2 fun hPair =>
      hShared.not_strands hInserts hNodes hComments hWalk hPair
  · intro hNone
    have hWalk : (s.share nodes comments).walk = comments :=
      hShared.walk_eq hInserts hNodes hComments hNone
    rw [hWalk]
    exact hComments.ordered

end Sharing

/-- A comment on the line of the first word, and one by itself before the second. -/
def commentsAfterWord : List Comment :=
  [{ span := ⟨2, 2, 25, 32⟩, lines := ["# first"], affinity := some .endOfLine, column := 14 },
    { span := ⟨5, 5, 39, 47⟩, lines := ["# second"], affinity := some .standalone, column := 2 }]

theorem commentsAfterWord_stay_in_order :
    wordSharing.InOrder listedWords ∧ Comment.InOrder commentsAfterWord ∧
      commentsAfterWord.Pairwise (fun c d => ¬ wordSharing.Strands listedWords c d) ∧
      (wordSharing.share listedWords commentsAfterWord).walk.Pairwise Comment.Before := by
  have hNodes : wordSharing.InOrder listedWords := ⟨by decide, by decide⟩
  have hComments : Comment.InOrder commentsAfterWord := ⟨by decide, by decide⟩
  have hNone : commentsAfterWord.Pairwise (fun c d => ¬ wordSharing.Strands listedWords c d) := by decide
  exact ⟨hNodes, hComments, hNone, (wordSharing.walk_inOrder_iff rfl hNodes hComments).2 hNone⟩

/-- The comment after the comma goes to the second word and the later one is inserted before that word,
so the two change places. -/
theorem commentsAfterComma_change_places :
    wordSharing.InOrder listedWords ∧ Comment.InOrder commentsAfterComma ∧
      (wordSharing.share listedWords commentsAfterComma).walk = commentsAfterComma.reverse ∧
      ¬ (wordSharing.share listedWords commentsAfterComma).walk.Pairwise Comment.Before := by
  refine ⟨⟨by decide, by decide⟩, ⟨by decide, by decide⟩, by decide, by decide⟩

end PolicyFormat.Policy
