import PolicyFormat.Proofs.Tidied

/-! Sorting promise types into the order of evaluation. The promise types are sorted stably, and a comment
goes with what it stands before. Entries are told apart by their numbers in the list, since two of them
may look alike. -/
namespace PolicyFormat.Policy

/-! ### The order of evaluation -/

/-- The first name is known, and the second is unknown or comes later. -/
def EvaluatedBefore (a b : String) : Prop :=
  a ∈ evaluationOrder ∧ (b ∈ evaluationOrder → evaluationOrder.idxOf a < evaluationOrder.idxOf b)

theorem evaluationRank_lt_iff {a b : String} : evaluationRank a < evaluationRank b ↔ EvaluatedBefore a b := by
  change evaluationOrder.idxOf a < evaluationOrder.idxOf b ↔ EvaluatedBefore a b
  constructor
  · intro h
    have hKnown : a ∈ evaluationOrder :=
      List.idxOf_lt_length_iff.1 (Nat.lt_of_lt_of_le h List.idxOf_le_length)
    exact ⟨hKnown, fun _ => h⟩
  · rintro ⟨ha, hb⟩
    by_cases hKnown : b ∈ evaluationOrder
    · exact hb hKnown
    · rw [List.idxOf_eq_length_iff.2 hKnown]
      exact List.idxOf_lt_length_iff.2 ha

/-! ### Stable sorting -/

section

variable {β : Type} (key : β → Nat)

/-- Elements of the same key keep their order. -/
theorem filter_mergeSort (xs : List β) (k : Nat) :
    (xs.mergeSort (fun a b => key a ≤ key b)).filter (key · = k) = xs.filter (key · = k) := by
  have hSame : (xs.filter (key · = k)).Pairwise (fun a b => decide (key a ≤ key b) = true) := by
    refine List.pairwise_iff_forall_sublist.2 fun {a b} hPair => ?_
    have ha : key a = k := by simpa using (List.mem_filter.1 (hPair.subset (by simp : a ∈ [a, b]))).2
    have hb : key b = k := by simpa using (List.mem_filter.1 (hPair.subset (by simp : b ∈ [a, b]))).2
    simp [ha, hb]
  have hSub := List.sublist_mergeSort (fun a b c => by simp; omega) (fun a b => by simp; omega) hSame
    List.filter_sublist
  have hFilter : (xs.filter (key · = k)).Sublist ((xs.mergeSort (fun a b => key a ≤ key b)).filter (key · = k)) := by
    simpa using hSub.filter (key · = k)
  refine (hFilter.eq_of_length ?_).symm
  exact ((List.mergeSort_perm xs _).filter _).length_eq.symm

/-- Sorted by keys, elements that were in an order are so still if their keys are the same. -/
theorem pairwise_mergeSort_stable {xs : List β} {R : β → β → Prop} (h : xs.Pairwise R) :
    (xs.mergeSort (fun a b => key a ≤ key b)).Pairwise (fun a b => key a < key b ∨ (key a = key b ∧ R a b)) := by
  refine List.pairwise_iff_forall_sublist.2 fun {a b} hPair => ?_
  have hSorted : (xs.mergeSort (fun a b => key a ≤ key b)).Pairwise (fun a b => decide (key a ≤ key b) = true) :=
    List.pairwise_mergeSort (fun a b c => by simp; omega) (fun a b => by simp; omega) xs
  have hLe : key a ≤ key b := by simpa using List.pairwise_iff_forall_sublist.1 hSorted hPair
  rcases Nat.lt_or_eq_of_le hLe with hLt | hEq
  · exact .inl hLt
  · have hFilter := hPair.filter (key · = key b)
    rw [filter_mergeSort] at hFilter
    simp only [hEq, List.filter_cons, decide_true, if_true, List.filter_nil] at hFilter
    exact .inr ⟨hEq, List.pairwise_iff_forall_sublist.1 h (hFilter.trans List.filter_sublist)⟩

end

/-! ### Elements with their comments -/

section

variable {α : Type}

/-- An element with its comments as entries of a list. -/
def chunk (group : List Comment × α) : List (Entry α) :=
  group.1.map .comment ++ [.item group.2]

/-- Elements with their comments, and the comments after them, as one list. -/
def asEntries (groups : List (List Comment × α)) (trailing : List Comment) : List (Entry α) :=
  groups.flatMap chunk ++ trailing.map .comment

variable {groups : List (List Comment × α)}

theorem withComments_comments (comments : List Comment) (rest : List (Entry α)) {group : List Comment × α}
    {trailing : List Comment} (h : withComments rest = (group :: groups, trailing)) :
    withComments (comments.map .comment ++ rest) = ((comments ++ group.1, group.2) :: groups, trailing) := by
  induction comments with
  | nil => simpa using h
  | cons c comments ih => simp [withComments, ih]

theorem withComments_trailing (comments : List Comment) :
    withComments (comments.map (Entry.comment (α := α))) = ([], comments) := by
  induction comments with
  | nil => rfl
  | cons c comments ih => simp [withComments, ih]

/-- Elements with their comments are found again. -/
theorem withComments_chunks (groups : List (List Comment × α)) (trailing : List Comment) :
    withComments (asEntries groups trailing) = (groups, trailing) := by
  induction groups with
  | nil => exact withComments_trailing trailing
  | cons group groups ih =>
    have hItem : withComments (.item group.2 :: asEntries groups trailing) = (([], group.2) :: groups, trailing) := by
      simp [withComments, ih]
    simpa [asEntries, chunk] using withComments_comments group.1 _ hItem

/-- Elements with their comments, each with the number of its first entry. -/
def numbered : Nat → List (List Comment × α) → List (Nat × List Comment × α)
  | _, [] => []
  | n, group :: groups => (n, group) :: numbered (n + (chunk group).length) groups

/-- The numbers of the entries of a group. -/
def numbersOf (group : Nat × List Comment × α) : List Nat :=
  List.range' group.1 (chunk group.2).length

/-- The entries of a group stand in the list from its number on. -/
def StandsIn (entries : List (Entry α)) (group : Nat × List Comment × α) : Prop :=
  ∃ front back, entries = front ++ (chunk group.2 ++ back) ∧ front.length = group.1

@[simp] theorem length_chunk (group : List Comment × α) : (chunk group).length = group.1.length + 1 := by
  simp [chunk]

theorem map_numbered (n : Nat) (groups : List (List Comment × α)) : (numbered n groups).map (·.2) = groups := by
  induction groups generalizing n with
  | nil => rfl
  | cons group groups ih => simp [numbered, ih]

theorem flatMap_numbersOf (n : Nat) (groups : List (List Comment × α)) :
    (numbered n groups).flatMap numbersOf = List.range' n (groups.flatMap chunk).length := by
  induction groups generalizing n with
  | nil => rfl
  | cons group groups ih =>
    rw [numbered, List.flatMap_cons, ih, List.flatMap_cons, List.length_append, ← List.range'_append_1]
    rfl

variable {group : Nat × List Comment × α}

theorem le_of_mem_numbered {n : Nat} (h : group ∈ numbered n groups) : n ≤ group.1 := by
  induction groups generalizing n with
  | nil => cases h
  | cons first groups ih =>
    rcases List.mem_cons.1 h with rfl | h
    · exact Nat.le_refl n
    · exact Nat.le_trans (Nat.le_add_right n _) (ih h)

/-- A group ends before the next one starts. -/
theorem pairwise_numbered (n : Nat) (groups : List (List Comment × α)) :
    (numbered n groups).Pairwise (fun a b => a.1 + a.2.1.length < b.1) := by
  induction groups generalizing n with
  | nil => exact .nil
  | cons group groups ih =>
    refine List.pairwise_cons.2 ⟨fun other hOther => ?_, ih _⟩
    have hLe := le_of_mem_numbered hOther
    rw [length_chunk] at hLe
    exact hLe

theorem standsIn_of_mem_numbered {before rest : List (Entry α)} (h : group ∈ numbered before.length groups) :
    StandsIn (before ++ (groups.flatMap chunk ++ rest)) group := by
  induction groups generalizing before with
  | nil => cases h
  | cons first groups ih =>
    rcases List.mem_cons.1 h with rfl | h
    · exact ⟨before, groups.flatMap chunk ++ rest, by simp, rfl⟩
    · rw [← List.length_append] at h
      simpa using ih h

/-- Part of a list is what stands at its numbers. -/
theorem map_getElem?_range' (front middle back : List (Entry α)) :
    (List.range' front.length middle.length).map ((front ++ (middle ++ back))[·]?) = middle.map some := by
  rw [List.range'_eq_map_range, List.map_map]
  refine List.ext_getElem? fun k => ?_
  by_cases hk : k < middle.length
  · simp only [List.getElem?_map, List.getElem?_range hk, Option.map_some, Function.comp_apply]
    rw [List.getElem?_append_right (by omega), Nat.add_sub_cancel_left, List.getElem?_append_left hk,
      List.getElem?_eq_getElem hk, Option.map_some]
  · rw [List.getElem?_eq_none (by simpa using hk), List.getElem?_eq_none (by simpa using hk)]

namespace StandsIn

variable {entries : List (Entry α)} {group : Nat × List Comment × α} (h : StandsIn entries group)
include h

theorem getElem?_add (k : Nat) (hk : k < (chunk group.2).length) : entries[group.1 + k]? = (chunk group.2)[k]? := by
  obtain ⟨front, back, rfl, hFront⟩ := h
  rw [← hFront, List.getElem?_append_right (by omega), Nat.add_sub_cancel_left, List.getElem?_append_left hk]

/-- The entries of a group are those at its numbers. -/
theorem map_numbersOf : (numbersOf group).map (entries[·]?) = (chunk group.2).map some := by
  obtain ⟨front, back, rfl, hFront⟩ := h
  rw [numbersOf, ← hFront]
  exact map_getElem?_range' front (chunk group.2) back

variable {i : Nat}

/-- An entry of a group is its element, which is the last, or a comment with another entry after it. -/
theorem getElem?_cases (hi : i ∈ numbersOf group) :
    (i = group.1 + group.2.1.length ∧ entries[i]? = some (.item group.2.2)) ∨
      (i + 1 ∈ numbersOf group ∧ ∃ c, entries[i]? = some (.comment c)) := by
  obtain ⟨hLe, hLt⟩ := List.mem_range'_1.1 hi
  obtain ⟨k, rfl⟩ := Nat.exists_eq_add_of_le hLe
  have hk : k < (chunk group.2).length := by omega
  rw [h.getElem?_add k hk]
  rw [length_chunk] at hk
  rcases Nat.lt_or_eq_of_le (Nat.le_of_lt_succ hk) with hk | rfl
  · refine .inr ⟨?_, group.2.1[k], ?_⟩
    · rw [numbersOf, List.mem_range'_1, length_chunk]
      omega
    · rw [chunk, List.getElem?_append_left (by simpa using hk), List.getElem?_map, List.getElem?_eq_getElem hk]
      rfl
  · exact .inl ⟨rfl, by simp [chunk]⟩

theorem eq_of_item (hi : i ∈ numbersOf group) {x : α} (hItem : entries[i]? = some (.item x)) :
    i = group.1 + group.2.1.length ∧ x = group.2.2 := by
  rcases h.getElem?_cases hi with ⟨hLast, hElement⟩ | ⟨-, c, hComment⟩
  · exact ⟨hLast, by simpa [hElement] using hItem.symm⟩
  · simp [hComment] at hItem

theorem succ_of_comment (hi : i ∈ numbersOf group) {c : Comment} (hComment : entries[i]? = some (.comment c)) :
    i + 1 ∈ numbersOf group := by
  rcases h.getElem?_cases hi with ⟨-, hElement⟩ | ⟨hNext, -⟩
  · simp [hElement] at hComment
  · exact hNext

end StandsIn

end

/-! ### Where the entries go -/

/-- The numbers in `order` tell where the entries of a list go if its promise types are sorted: names that
are evaluated earlier come earlier, and otherwise the order stays. A comment stays before the entry that
follows it, and at the end if it is there. -/
structure Sorts (entries : List (Entry PromiseType)) (order : List Nat) : Prop where
  perm : order.Perm (List.range entries.length)
  types : ∀ i j p q, [i, j].Sublist order → entries[i]? = some (.item p) → entries[j]? = some (.item q) →
    EvaluatedBefore p.name.text q.name.text ∨ (¬ EvaluatedBefore q.name.text p.name.text ∧ i < j)
  followed : ∀ i c, entries[i]? = some (.comment c) → i + 1 < entries.length → [i, i + 1] <:+: order
  last : ∀ i c, entries[i]? = some (.comment c) → i + 1 = entries.length → order.getLast? = some i

section

variable (groups : List (List Comment × PromiseType)) (trailing : List Comment)

/-- The groups with their numbers, sorted. -/
def sortedGroups : List (Nat × List Comment × PromiseType) :=
  (numbered 0 groups).mergeSort (fun a b => evaluationRank a.2.2.name.text ≤ evaluationRank b.2.2.name.text)

/-- The numbers of the entries of groups and of the comments after them, once the groups are sorted. -/
def sortedNumbers : List Nat :=
  (sortedGroups groups).flatMap numbersOf ++ List.range' (groups.flatMap chunk).length trailing.length

theorem map_sortedGroups : (sortedGroups groups).map (·.2) = groups.mergeSort
    (fun a b => evaluationRank a.2.name.text ≤ evaluationRank b.2.name.text) := by
  conv_rhs => rw [← map_numbered 0 groups]
  exact List.map_mergeSort fun a _ b _ => rfl

variable {group : Nat × List Comment × PromiseType}

theorem standsIn_of_mem_sortedGroups (h : group ∈ sortedGroups groups) :
    StandsIn (asEntries groups trailing) group := by
  have hStands : StandsIn ([] ++ asEntries groups trailing) group :=
    standsIn_of_mem_numbered (List.mem_mergeSort.1 h)
  exact hStands

theorem length_asEntries : (asEntries groups trailing).length = (groups.flatMap chunk).length + trailing.length := by
  simp [asEntries]

theorem sortedNumbers_perm : (sortedNumbers groups trailing).Perm
      (List.range (asEntries groups trailing).length) := by
  have hGroups : ((sortedGroups groups).flatMap numbersOf).Perm (List.range' 0 (groups.flatMap chunk).length) := by
    rw [← flatMap_numbersOf]
    exact (List.mergeSort_perm _ _).flatMap_right _
  rw [length_asEntries, List.range_eq_range', ← List.range'_append_1, Nat.zero_add]
  exact hGroups.append_right _

/-- The groups are sorted stably. -/
theorem pairwise_sortedGroups :
    (sortedGroups groups).Pairwise (fun a b => EvaluatedBefore a.2.2.name.text b.2.2.name.text ∨
      (¬ EvaluatedBefore b.2.2.name.text a.2.2.name.text ∧ a.1 + a.2.1.length < b.1)) := by
  refine (pairwise_mergeSort_stable (fun group => evaluationRank group.2.2.name.text)
    (pairwise_numbered 0 groups)).imp fun {a b} h => ?_
  rw [← evaluationRank_lt_iff, ← evaluationRank_lt_iff]
  rcases h with hLt | ⟨hEq, hNumbers⟩
  · exact .inl hLt
  · exact .inr ⟨by omega, hNumbers⟩

theorem getElem?_asEntries_trailing (k : Nat) :
    (asEntries groups trailing)[(groups.flatMap chunk).length + k]? = trailing[k]?.map .comment := by
  rw [asEntries, List.getElem?_append_right (by omega), Nat.add_sub_cancel_left, List.getElem?_map]

theorem sortedNumbers_types : (sortedNumbers groups trailing).Pairwise (fun i j => ∀ p q,
      (asEntries groups trailing)[i]? = some (.item p) →
      (asEntries groups trailing)[j]? = some (.item q) →
      EvaluatedBefore p.name.text q.name.text ∨ (¬ EvaluatedBefore q.name.text p.name.text ∧ i < j)) := by
  have hTrailing {j : Nat} (hj : j ∈ List.range' (groups.flatMap chunk).length trailing.length) (q : PromiseType) :
      (asEntries groups trailing)[j]? ≠ some (.item q) := by
    obtain ⟨k, rfl⟩ := Nat.exists_eq_add_of_le (List.mem_range'_1.1 hj).1
    rw [getElem?_asEntries_trailing]
    simp
  refine List.pairwise_append.2 ⟨List.pairwise_flatMap.2 ⟨fun group hGroup => ?_, ?_⟩, ?_, ?_⟩
  · -- a group has only one element, its last entry
    have hStands := standsIn_of_mem_sortedGroups groups trailing hGroup
    refine List.pairwise_iff_forall_sublist.2 fun {i j} hPair p q hp hq => ?_
    have hLt : i < j := List.pairwise_iff_forall_sublist.1 List.pairwise_lt_range' hPair
    have hi := (hStands.eq_of_item (hPair.subset (by simp)) hp).1
    have hj := (hStands.eq_of_item (hPair.subset (by simp)) hq).1
    omega
  · refine (pairwise_sortedGroups groups).imp_of_mem fun {a b} ha hb hStable i hi j hj p q hp hq => ?_
    obtain ⟨rfl, rfl⟩ := (standsIn_of_mem_sortedGroups groups trailing ha).eq_of_item hi hp
    obtain ⟨rfl, rfl⟩ := (standsIn_of_mem_sortedGroups groups trailing hb).eq_of_item hj hq
    refine hStable.imp_right fun hSame => ⟨hSame.1, ?_⟩
    omega
  · refine List.pairwise_iff_forall_sublist.2 fun {i j} hPair p q hp hq => ?_
    exact absurd hp (hTrailing (hPair.subset (by simp)) p)
  · intro i hi j hj p q hp hq
    exact absurd hq (hTrailing hj q)

variable {i : Nat}

theorem pair_infix_range' {start count : Nat} (hStart : start ≤ i) (hStop : i + 1 < start + count) :
    [i, i + 1] <:+: List.range' start count := by
  obtain ⟨front, rfl⟩ := Nat.exists_eq_add_of_le hStart
  obtain ⟨back, rfl⟩ : ∃ back, count = front + (2 + back) := ⟨count - front - 2, by omega⟩
  rw [← List.range'_append_1, ← List.range'_append_1]
  exact ⟨_, _, List.append_assoc _ _ _⟩

theorem numbersOf_isInfix (h : group ∈ sortedGroups groups) : numbersOf group <:+: sortedNumbers groups trailing := by
  obtain ⟨front, back, hSplit⟩ := List.append_of_mem h
  rw [sortedNumbers, hSplit, List.flatMap_append, List.flatMap_cons, ← List.append_assoc]
  exact (List.infix_append _ _ _).trans (List.prefix_append _ _).isInfix

/-- A comment has another entry of its group after it, or stands after all groups. -/
theorem sortedNumbers_comment {c : Comment} (hComment : (asEntries groups trailing)[i]? = some (.comment c)) :
    (∃ group ∈ sortedGroups groups, i ∈ numbersOf group ∧ i + 1 ∈ numbersOf group) ∨
      i ∈ List.range' (groups.flatMap chunk).length trailing.length := by
  have hMem : i ∈ sortedNumbers groups trailing := by
    rw [(sortedNumbers_perm groups trailing).mem_iff, List.mem_range]
    exact (List.getElem?_eq_some_iff.1 hComment).1
  rcases List.mem_append.1 hMem with hGroup | hTrailing
  · obtain ⟨group, hGroup, hi⟩ := List.mem_flatMap.1 hGroup
    exact .inl ⟨group, hGroup, hi, (standsIn_of_mem_sortedGroups groups trailing hGroup).succ_of_comment hi hComment⟩
  · exact .inr hTrailing

theorem sorts_sortedNumbers : Sorts (asEntries groups trailing) (sortedNumbers groups trailing) where
  perm := sortedNumbers_perm groups trailing
  types _ _ _ _ hPair := List.pairwise_iff_forall_sublist.1 (sortedNumbers_types groups trailing) hPair _ _
  followed i c hComment hNext := by
    rcases sortedNumbers_comment groups trailing hComment with ⟨group, hGroup, hi, hSucc⟩ | hi
    · have hInfix : [i, i + 1] <:+: numbersOf group :=
        pair_infix_range' (List.mem_range'_1.1 hi).1 (List.mem_range'_1.1 hSucc).2
      exact hInfix.trans (numbersOf_isInfix groups trailing hGroup)
    · rw [length_asEntries] at hNext
      exact (pair_infix_range' (List.mem_range'_1.1 hi).1 hNext).trans (List.suffix_append _ _).isInfix
  last i c hComment hLast := by
    rw [length_asEntries] at hLast
    rcases sortedNumbers_comment groups trailing hComment with ⟨group, hGroup, -, hSucc⟩ | hi
    · have hMem := (numbersOf_isInfix groups trailing hGroup).subset hSucc
      rw [(sortedNumbers_perm groups trailing).mem_iff, List.mem_range, length_asEntries] at hMem
      omega
    · obtain ⟨count, hCount⟩ : ∃ count, trailing.length = count + 1 :=
        ⟨trailing.length - 1, by have := List.mem_range'_1.1 hi; omega⟩
      rw [sortedNumbers, hCount, List.range'_1_concat, ← List.append_assoc, List.getLast?_concat]
      congr 1
      omega

/-- The entries of the sorted list are those at the sorted numbers. -/
theorem map_sortedNumbers : (sortedNumbers groups trailing).map ((asEntries groups trailing)[·]?) =
      (asEntries ((sortedGroups groups).map (·.2)) trailing).map some := by
  have hGroups : ((sortedGroups groups).flatMap numbersOf).map ((asEntries groups trailing)[·]?) =
      (((sortedGroups groups).map (·.2)).flatMap chunk).map some := by
    rw [List.map_flatMap, List.map_flatMap, List.flatMap_map]
    exact List.flatMap_congr fun group hGroup =>
      (standsIn_of_mem_sortedGroups groups trailing hGroup).map_numbersOf
  have hTrailing : (List.range' (groups.flatMap chunk).length trailing.length).map
      ((asEntries groups trailing)[·]?) = (trailing.map Entry.comment).map some := by
    simpa [asEntries] using map_getElem?_range' (groups.flatMap chunk) (trailing.map Entry.comment) []
  rw [sortedNumbers, List.map_append, hGroups, hTrailing, asEntries, List.map_append]

end

/-! ### The sorted list -/

theorem sortToEvaluationOrder_eq (entries : List (Entry PromiseType)) : sortToEvaluationOrder entries =
      asEntries ((sortedGroups (withComments entries).1).map (·.2)) (withComments entries).2 := by
  rw [map_sortedGroups]
  rfl

theorem sortedGroups_sortedGroups (groups : List (List Comment × PromiseType)) :
    (sortedGroups ((sortedGroups groups).map (·.2))).map (·.2) = (sortedGroups groups).map (·.2) := by
  rw [map_sortedGroups, map_sortedGroups]
  refine List.mergeSort_of_pairwise ?_
  exact List.pairwise_mergeSort (fun a b c => by simp; omega) (fun a b => by simp; omega) groups

/-- Promise types are sorted stably into the order of evaluation, unknown ones last. Each comment stays right
before the entry that followed it, and comments at the end stay there. Sorting again changes nothing. -/
theorem sortToEvaluationOrder_sorts (entries : List (Entry PromiseType)) :
    (∃ order, Sorts entries order ∧ (sortToEvaluationOrder entries).map some = order.map (entries[·]?)) ∧
      sortToEvaluationOrder (sortToEvaluationOrder entries) = sortToEvaluationOrder entries := by
  have hEntries : asEntries (withComments entries).1 (withComments entries).2 = entries := withComments_eq entries
  constructor
  · refine ⟨sortedNumbers (withComments entries).1 (withComments entries).2, ?_, ?_⟩
    · simpa only [hEntries] using sorts_sortedNumbers (withComments entries).1 (withComments entries).2
    · rw [sortToEvaluationOrder_eq, ← map_sortedNumbers, hEntries]
  · rw [sortToEvaluationOrder_eq, sortToEvaluationOrder_eq, withComments_chunks, sortedGroups_sortedGroups]

end PolicyFormat.Policy
