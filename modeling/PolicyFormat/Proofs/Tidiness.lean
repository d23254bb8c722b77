import PolicyFormat.Proofs.Tidied

/-! Files in their final form. Without comments, bringing a file into its final form leaves no promise types
that would go or move, and no blank lines that would be lost. -/
namespace PolicyFormat.Policy

/-! ### Lists without comments -/

theorem ItemList.Formed.entries_eq {P : Comment → Prop} (hNone : ∀ c, ¬ P c) {α : Type} {F : α → Prop}
    {g : ItemList α} (h : g.Formed P F) : g.entries = g.items.map .item :=
  Entry.eq_map_items fun c hc => hNone c (h.comments c hc)

/-! ### Blank lines after class expressions -/

/-- What follows a class expression and is none keeps no blank line before it. -/
def Settled {α : Type} (isGuard : α → Bool) (traits : α → Traits) : (afterGuard : Bool) → List α → Prop
  | _, [] => True
  | afterGuard, x :: rest =>
    (afterGuard = true → isGuard x = false → (traits x).keepsBlank = false) ∧ Settled isGuard traits (isGuard x) rest

section

variable {α : Type} {isGuard : α → Bool} {traits : α → Traits}

theorem settled_map {f : α → α} (hGuard : ∀ x, isGuard (f x) = isGuard x) (hTraits : ∀ x, traits (f x) = traits x)
    (afterGuard : Bool) (xs : List α) :
    Settled isGuard traits afterGuard (xs.map f) ↔ Settled isGuard traits afterGuard xs := by
  induction xs generalizing afterGuard with
  | nil => exact Iff.rfl
  | cons x xs ih => simp only [List.map_cons, Settled, hGuard, hTraits, ih]

variable {change : (Traits → Traits) → α → α}

/-- A list that was settled is settled. -/
theorem settled_items (hGuard : ∀ f x, isGuard (change f x) = isGuard x)
    (hTraits : ∀ f x, traits (change f x) = f (traits x)) (afterGuard : Bool) (xs : List α) :
    Settled isGuard traits afterGuard
      ((settleAfterGuards isGuard change afterGuard (xs.map .item)).filterMap Entry.item?) := by
  induction xs generalizing afterGuard with
  | nil => trivial
  | cons x xs ih =>
    rw [List.map_cons, settleAfterGuards]
    split
    · refine ⟨fun _ _ => by rw [hTraits], ?_⟩
      rw [hGuard]
      exact ih _
    · rename_i hKept
      refine ⟨fun hAfter hOther => ?_, ih _⟩
      exact absurd (by rw [hAfter, hOther]; rfl) hKept

end

/-! ### Files -/

/-- No promise type would go or move, and no blank line would be lost. -/
def Contents.IsTidy (t : Tidying) : Contents → Prop
  | .bundle statements =>
    (t.removesEmptyPromiseTypes = true → ∀ p ∈ statements.items, p.clauses.items ≠ []) ∧
      (t.sortsPromiseTypes = true → statements.items.Pairwise fun a b =>
        evaluationRank a.name.text ≤ evaluationRank b.name.text) ∧
      ∀ p ∈ statements.items, Settled Clause.isGuard Clause.traits false p.clauses.items
  | .body selections => Settled Selection.isGuard Selection.traits false selections.items

/-- The contents of all blocks are in their final form. -/
def Specification.IsTidy (t : Tidying) (s : Specification) : Prop :=
  ∀ b ∈ ItemList.items s, b.contents.IsTidy t

theorem Contents.isTidy_plain (t : Tidying) (c : Contents) : c.plain.IsTidy t ↔ c.IsTidy t := by
  have hClauses : ∀ p : PromiseType, p.plain.clauses.items = p.clauses.items.map Clause.plain :=
    fun p => ItemList.items_mapItems _ _
  have hName : ∀ p : PromiseType, p.plain.name = p.name := fun _ => rfl
  cases c with
  | bundle statements =>
    simp only [plain, IsTidy, ItemList.items_mapItems, List.forall_mem_map, List.pairwise_map, hClauses, hName, ne_eq,
      List.map_eq_nil_iff]
    refine and_congr_right fun _ => and_congr_right fun _ => forall₂_congr fun p _ => ?_
    exact settled_map (fun c => by cases c <;> rfl) (fun c => by cases c <;> rfl) _ _
  | body selections =>
    rw [plain, IsTidy, ItemList.items_mapItems]
    exact settled_map (fun s => by cases s <;> rfl) (fun s => by cases s <;> rfl) _ _

theorem Specification.isTidy_plain (t : Tidying) (s : Specification) :
    Specification.IsTidy t s.plain ↔ Specification.IsTidy t s := by
  simp only [IsTidy, plain, ItemList.items_mapItems, List.forall_mem_map]
  exact forall₂_congr fun b _ => Contents.isTidy_plain t b.contents

section

variable {P : Comment → Prop} (hNone : ∀ c, ¬ P c)
include hNone

theorem Contents.isTidy_tidy {c : Contents} (t : Tidying) (h : c.Formed P) : (c.tidy t).IsTidy t := by
  cases c with
  | body selections =>
    rw [tidy, h.1.entries_eq hNone]
    exact settled_items (fun f x => by cases x <;> rfl) (fun f x => by cases x <;> rfl) false _
  | bundle statements =>
    have hMem : ∀ p, p ∈ (t.apply (statements.mapItems PromiseType.settle).entries).filterMap Entry.item? →
        ∃ q ∈ statements.items, q.settle = p := by
      intro p hp
      have hEntry := Tidying.mem_apply (Entry.mem_items.1 hp)
      rw [← ItemList.mem_items, ItemList.items_mapItems] at hEntry
      exact List.mem_map.1 hEntry
    refine ⟨fun hRemoves p hp => ?_, fun hSorts => ?_, fun p hp => ?_⟩
    · have hFormed : p.Formed P := by
        obtain ⟨q, hq, rfl⟩ := hMem p hp
        exact PromiseType.formed_settle (fun c _ hc => absurd hc (hNone c)) (h.of_mem hq)
      have hKept : p.isVacant = false := by
        change p ∈ (t.apply _).filterMap Entry.item? at hp
        rw [Tidying.items_apply, if_pos hRemoves] at hp
        have hFilter : p ∈ ((statements.mapItems PromiseType.settle).entries.filterMap Entry.item?).filter
            (fun p => !p.isVacant) := by
          dsimp only at hp
          split at hp
          · exact List.mem_mergeSort.1 hp
          · exact hp
        simpa using (List.mem_filter.1 hFilter).2
      rw [PromiseType.isVacant_eq hNone hFormed] at hKept
      simpa using hKept
    · change ((t.apply _).filterMap Entry.item?).Pairwise _
      rw [Tidying.items_apply, if_pos hSorts]
      refine (List.pairwise_mergeSort (fun a b c => by simp; omega) (fun a b => by simp; omega) _).imp ?_
      simp
    · obtain ⟨q, hq, rfl⟩ := hMem p hp
      have hClauses := (h.of_mem hq).clauses.entries_eq hNone
      rw [PromiseType.settle, hClauses]
      exact settled_items (fun f x => by cases x <;> rfl) (fun f x => by cases x <;> rfl) false _

/-- Bringing a file into its final form does so. -/
theorem Specification.isTidy_tidy {s : Specification} (t : Tidying) (h : Specification.Formed P s) :
    Specification.IsTidy t (s.tidy t) := by
  intro b hb
  rw [tidy, ItemList.items_mapItems] at hb
  obtain ⟨a, ha, rfl⟩ := List.mem_map.1 hb
  exact Contents.isTidy_tidy hNone t (h.of_mem ha).contents

end

/-- What is in its final form stays as it is. -/
theorem Tidying.apply_eq_self {t : Tidying} {ps : List PromiseType}
    (hKept : t.removesEmptyPromiseTypes = true → ∀ p ∈ ps, p.isVacant = false)
    (hSorted : t.sortsPromiseTypes = true → ps.Pairwise fun a b =>
      evaluationRank a.name.text ≤ evaluationRank b.name.text) : t.apply (ps.map .item) = ps.map .item := by
  have hAll : (if t.removesEmptyPromiseTypes then removeVacant (ps.map .item) else ps.map .item) = ps.map .item := by
    split
    · rename_i hRemoves
      refine List.filter_eq_self.2 fun entry hEntry => ?_
      obtain ⟨p, hp, rfl⟩ := List.mem_map.1 hEntry
      simp [hKept hRemoves p hp]
    · rfl
  have hGroups : ∀ ps : List PromiseType, withComments (ps.map .item) = (ps.map (fun p => ([], p)), []) := by
    intro ps
    induction ps with
    | nil => rfl
    | cons p ps ih => simp [withComments, ih]
  rw [Tidying.apply, hAll]
  split
  · rename_i hSorts
    have hSort : (ps.map (fun p => (([], p) : List Comment × PromiseType))).mergeSort
        (fun a b => evaluationRank a.2.name.text ≤ evaluationRank b.2.name.text) = ps.map (fun p => ([], p)) := by
      refine List.mergeSort_of_pairwise (List.pairwise_map.2 ?_)
      simpa using hSorted hSorts
    rw [sortToEvaluationOrder, hGroups]
    simp only [hSort, List.flatMap_map, List.map_nil, List.append_nil, List.nil_append]
    exact List.map_eq_flatMap.symm
  · rfl

end PolicyFormat.Policy
