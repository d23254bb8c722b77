import PolicyFormat.Proofs.Marking

/-! Bringing a file into its final form: promise types may go or move, and some entries lose the blank
line before them. Nothing else is lost. -/
namespace PolicyFormat.Policy

/-! ### Sorting -/

section

variable {α : Type}

/-- A list is put together again from its elements with their comments. -/
theorem withComments_eq (entries : List (Entry α)) :
    (withComments entries).1.flatMap (fun (comments, item) => comments.map .comment ++ [.item item]) ++
      (withComments entries).2.map .comment = entries := by
  induction entries with
  | nil => rfl
  | cons entry rest ih =>
    cases entry with
    | item x => simpa [withComments] using ih
    | comment c =>
      rw [withComments]
      split
      · rename_i comments item items trailing hRest
        simpa [hRest] using ih
      · rename_i trailing hRest
        simpa [hRest] using ih

theorem items_flatMap (items : List (List Comment × α)) :
    (items.flatMap (fun (comments, item) => comments.map .comment ++ [.item item])).filterMap Entry.item? =
      items.map (·.2) := by
  induction items with
  | nil => rfl
  | cons pair items ih => simp_all [Entry.item?, List.filterMap_map, Function.comp_def]

theorem items_comments (comments : List Comment) :
    (comments.map (Entry.comment (α := α))).filterMap Entry.item? = [] := by
  simp [List.filterMap_map, Function.comp_def, Entry.item?]

theorem items_withComments (entries : List (Entry α)) :
    (withComments entries).1.map (·.2) = entries.filterMap Entry.item? := by
  conv_rhs => rw [← withComments_eq entries]
  rw [List.filterMap_append, items_flatMap, items_comments, List.append_nil]

end

theorem sortToEvaluationOrder_perm (entries : List (Entry PromiseType)) :
    (sortToEvaluationOrder entries).Perm entries := by
  conv_rhs => rw [← withComments_eq entries]
  exact ((List.mergeSort_perm _ _).flatMap_right _).append_right _

theorem items_sortToEvaluationOrder (entries : List (Entry PromiseType)) :
    (sortToEvaluationOrder entries).filterMap Entry.item? = (entries.filterMap Entry.item?).mergeSort
        (fun a b => evaluationRank a.name.text ≤ evaluationRank b.name.text) := by
  have hSort : ((withComments entries).1.mergeSort
        (fun a b => evaluationRank a.2.name.text ≤ evaluationRank b.2.name.text)).map (·.2) =
      ((withComments entries).1.map (·.2)).mergeSort
        (fun a b => evaluationRank a.name.text ≤ evaluationRank b.name.text) :=
    List.map_mergeSort fun a _ b _ => rfl
  rw [items_withComments, ← items_flatMap] at hSort
  rw [sortToEvaluationOrder, List.filterMap_append, items_comments, List.append_nil]
  exact hSort

/-! ### Blank lines after class expressions -/

/-- The entry, or the same entry with another mark for keeping the blank line before it. -/
inductive Entry.Settled {α : Type} (change : (Traits → Traits) → α → α) : Entry α → Entry α → Prop where
  | same {x : α} : Settled change (.item x) (.item x)
  | loses {x : α} : Settled change (.item x) (.item (change (fun t => { t with keepsBlank := false }) x))
  | comment {c : Comment} {keepsBlank : Bool} : Settled change (.comment c) (.comment { c with keepsBlank })

section

variable {α : Type} {change : (Traits → Traits) → α → α}

theorem settled_settleAfterGuards (isGuard : α → Bool) (change : (Traits → Traits) → α → α)
    (afterGuard : Bool) (entries : List (Entry α)) :
    List.Forall₂ (Entry.Settled change) entries (settleAfterGuards isGuard change afterGuard entries) := by
  induction entries generalizing afterGuard with
  | nil => exact .nil
  | cons entry rest ih =>
    cases entry with
    | comment c => exact .cons .comment (ih _)
    | item x =>
      rw [settleAfterGuards]
      split
      · exact .cons .loses (ih _)
      · exact .cons .same (ih _)

variable {entries settled : List (Entry α)}

theorem Entry.Settled.formed {P : Comment → Prop} {F : α → Prop}
    (h : List.Forall₂ (Entry.Settled change) entries settled)
    (hP : ∀ c keepsBlank, P c → P { c with keepsBlank })
    (hF : ∀ x, F x → F (change (fun t => { t with keepsBlank := false }) x))
    (hItems : ∀ x, .item x ∈ entries → F x) (hComments : ∀ c, .comment c ∈ entries → P c) :
    (∀ x, .item x ∈ settled → F x) ∧ ∀ c, .comment c ∈ settled → P c := by
  induction h with
  | nil => simp
  | cons hEntry _ ih =>
    simp only [List.mem_cons] at hItems hComments ⊢
    obtain ⟨ihItems, ihComments⟩ := ih (fun x hx => hItems x (.inr hx)) (fun c hc => hComments c (.inr hc))
    cases hEntry with
    | same => simp_all
    | loses => simp_all
    | @comment c keepsBlank =>
      have hNew := hP c keepsBlank (hComments c (.inl rfl))
      refine ⟨by simpa using ihItems, ?_⟩
      rintro d (hSame | hd)
      · cases hSame
        exact hNew
      · exact ihComments d hd

theorem Entry.Settled.items {β : Type} {f : α → β} (h : List.Forall₂ (Entry.Settled change) entries settled)
    (hf : ∀ x, f (change (fun t => { t with keepsBlank := false }) x) = f x) :
    (settled.filterMap Entry.item?).map f = (entries.filterMap Entry.item?).map f := by
  induction h with
  | nil => rfl
  | cons hEntry _ ih =>
    cases hEntry <;> simp [List.filterMap_cons, Entry.item?, ih, hf]

end

/-- Takes away the marks for keeping blank lines. -/
def unkept : Relabel where
  node t := { t with keepsBlank := false }
  comment c := { c with keepsBlank := false }

theorem relabel_settleAfterGuards {α : Type} (isGuard : α → Bool) (change : (Traits → Traits) → α → α) {f : α → α}
    (hChange : ∀ x, f (change (fun t => { t with keepsBlank := false }) x) = f x) (afterGuard : Bool)
    (entries : List (Entry α)) :
    (settleAfterGuards isGuard change afterGuard entries).map (Entry.relabel unkept f) =
      entries.map (Entry.relabel unkept f) := by
  induction entries generalizing afterGuard with
  | nil => rfl
  | cons entry rest ih =>
    cases entry with
    | comment c => exact congrArg₂ List.cons rfl (ih false)
    | item x =>
      rw [settleAfterGuards]
      split <;> simp [Entry.relabel, hChange, ih]

/-- Where no promise type goes or moves, only marks for keeping blank lines are lost. -/
theorem Contents.relabel_settled (c : Contents) : (c.tidy ⟨false, false⟩).relabel unkept = c.relabel unkept := by
  cases c with
  | bundle statements =>
    refine congrArg Contents.bundle (ItemList.relabel_mapItems _ (fun p => ?_) statements)
    have hClauses := relabel_settleAfterGuards Clause.isGuard Clause.withTraits
      (f := Clause.relabel unkept) (by rintro (g | p) <;> rfl) false p.clauses.entries
    simp [PromiseType.settle, PromiseType.relabel, ItemList.relabel, hClauses]
  | body selections =>
    have hSelections := relabel_settleAfterGuards Selection.isGuard Selection.withTraits
      (f := Selection.relabel unkept) (by rintro (g | a) <;> rfl) false selections.entries
    simp [Contents.tidy, Contents.relabel, ItemList.relabel, hSelections]

/-! ### Files in their final form -/

section

variable {P : Comment → Prop} (hP : ∀ c keepsBlank, P c → P { c with keepsBlank })
include hP

theorem PromiseType.formed_settle {p : PromiseType} (h : p.Formed P) : p.settle.Formed P := by
  have hClause : ∀ c : Clause, c.Formed P → (c.withTraits (fun t => { t with keepsBlank := false })).Formed P := by
    rintro (g | p) h
    · exact ⟨h.holds, h.unranked, h.expression, h.silent⟩
    · exact ⟨h.holds, h.unranked, h.promiser, h.silent, h.lines, h.promisee, h.comma, h.constraints, h.brackets, h.ends,
        h.semicolon⟩
  obtain ⟨hItems, hComments⟩ := Entry.Settled.formed
    (settled_settleAfterGuards Clause.isGuard Clause.withTraits false p.clauses.entries)
    hP hClause h.clauses.items h.clauses.comments
  exact ⟨h.keeps, h.name, h.nameKeeps, ⟨h.clauses.silent, hItems, hComments⟩, h.brackets⟩

omit hP in
/-- Promise types may go and move, but nothing is added. -/
theorem Tidying.mem_apply {t : Tidying} {entries : List (Entry PromiseType)} {entry : Entry PromiseType}
    (h : entry ∈ t.apply entries) : entry ∈ entries := by
  have hKept : ∀ entry, entry ∈ (if t.removesEmptyPromiseTypes then removeVacant entries else entries) →
      entry ∈ entries := by
    intro entry h
    split at h
    · exact List.mem_of_mem_filter h
    · exact h
  rw [Tidying.apply] at h
  split at h
  · exact hKept entry ((sortToEvaluationOrder_perm _).mem_iff.1 h)
  · exact hKept entry h

theorem Contents.formed_tidy {c : Contents} (t : Tidying) (h : c.Formed P) : (c.tidy t).Formed P := by
  cases c with
  | bundle statements =>
    have hSettled : (statements.mapItems PromiseType.settle).Formed P (PromiseType.Formed P) :=
      ItemList.formed_mapItems.2 ⟨h.silent, fun x hx => PromiseType.formed_settle hP (h.items x hx), h.comments⟩
    exact ⟨⟨h.silent, fun x hx => hSettled.items x (Tidying.mem_apply hx),
      fun c hc => hSettled.comments c (Tidying.mem_apply hc)⟩, h.opening, h.closing⟩
  | body selections =>
    have hSelection : ∀ s : Selection, s.Formed P →
        (s.withTraits (fun t => { t with keepsBlank := false })).Formed P := by
      rintro (g | a) h
      · exact ⟨h.holds, h.unranked, h.expression, h.silent⟩
      · exact ⟨h.holds, h.unranked, h.name, h.silent, h.arrow, h.value, h.comma⟩
    have hSettled := settled_settleAfterGuards Selection.isGuard Selection.withTraits false selections.entries
    obtain ⟨hItems, hComments⟩ := Entry.Settled.formed hSettled hP hSelection h.1.items h.1.comments
    have hLength := Entry.Settled.items (f := fun _ => ()) hSettled (fun _ => rfl)
    refine ⟨⟨⟨h.1.silent, hItems, hComments⟩, h.1.opening, h.1.closing⟩, fun hNone => h.2 ?_⟩
    have hEmpty := hLength.symm.trans (congrArg (List.map (fun _ => ())) hNone)
    exact List.map_eq_nil_iff.1 hEmpty

theorem Specification.formed_tidy {s : Specification} (t : Tidying) (h : Specification.Formed P s) :
    Specification.Formed P (s.tidy t) := by
  have hBlock : ∀ b : Block, b.Formed P → Block.Formed P { b with contents := b.contents.tidy t } := by
    intro b h
    have hWord : (b.contents.tidy t).word = b.contents.word := by
      cases b.contents <;> rfl
    exact ⟨h.keeps, h.keyword.trans hWord.symm, h.keywordSilent, h.type, h.typeSilent, h.name, h.nameSilent,
      h.parameters, h.brackets, Contents.formed_tidy hP t h.contents⟩
  exact ⟨ItemList.formed_mapItems.2 ⟨h.silent, fun b hb => hBlock b (h.items b hb), h.comments⟩, h.brackets⟩

end

section

variable {M : Type} [AddCommMonoid M] (t : Tally M)

theorem PromiseType.tally_of_isVacant {p : PromiseType} (h : p.isVacant = true) : p.tally t = 0 := by
  simp only [isVacant, Bool.and_eq_true, List.isEmpty_iff] at h
  simp [PromiseType.tally, Traits.tally, Leaf.tally, ItemList.tally, h]

theorem Tidying.tally_apply (tidying : Tidying) (entries : List (Entry PromiseType)) :
    ((tidying.apply entries).map (Entry.tally t (PromiseType.tally t))).sum =
      (entries.map (Entry.tally t (PromiseType.tally t))).sum := by
  have hVacant : ((removeVacant entries).map (Entry.tally t (PromiseType.tally t))).sum =
      (entries.map (Entry.tally t (PromiseType.tally t))).sum := by
    induction entries with
    | nil => rfl
    | cons entry rest ih =>
      rw [removeVacant] at ih ⊢
      cases entry with
      | comment c => simp [ih]
      | item p =>
        cases hVacant : p.isVacant with
        | false => simp [hVacant, ih]
        | true => simp [hVacant, ih, Entry.tally, PromiseType.tally_of_isVacant t hVacant]
  have hKept : ((if tidying.removesEmptyPromiseTypes then removeVacant entries else entries).map
      (Entry.tally t (PromiseType.tally t))).sum = (entries.map (Entry.tally t (PromiseType.tally t))).sum := by
    split
    · exact hVacant
    · rfl
  rw [Tidying.apply, ← hKept]
  split
  · exact ((sortToEvaluationOrder_perm _).map _).sum_eq
  · rfl

theorem Contents.tally_tidy (tidying : Tidying) (c : Contents) : (c.tidy tidying).tally t = c.tally t := by
  have hSettled : (c.tidy ⟨false, false⟩).tally t = c.tally t := by
    have hSame := Contents.tally_relabel (r := unkept) t {}
    rw [← hSame, relabel_settled, hSame]
  cases c with
  | bundle statements =>
    rw [← hSettled]
    simp only [Contents.tidy, Contents.tally, ItemList.blockTally, ItemList.tally, Tidying.tally_apply]
  | body selections => exact hSettled

/-- A policy file in its final form adds up to the same. -/
theorem Specification.tally_tidy (tidying : Tidying) (s : Specification) : (s.tidy tidying).tally t = s.tally t := by
  refine ItemList.tally_mapItems t fun b _ => ?_
  simp [Block.tally, Contents.tally_tidy]

end

/-! ### What a file without comments says in its final form -/

theorem items_removeVacant (entries : List (Entry PromiseType)) : (removeVacant entries).filterMap Entry.item? =
      (entries.filterMap Entry.item?).filter (fun p => !p.isVacant) := by
  induction entries with
  | nil => rfl
  | cons entry rest ih =>
    rw [removeVacant] at ih ⊢
    cases entry with
    | comment c => simpa [Entry.item?, List.filterMap_cons] using ih
    | item p =>
      cases hVacant : p.isVacant <;> simp [hVacant, Entry.item?, ih]

theorem Tidying.items_apply (t : Tidying) (entries : List (Entry PromiseType)) :
    (t.apply entries).filterMap Entry.item? =
      let kept :=
        if t.removesEmptyPromiseTypes then (entries.filterMap Entry.item?).filter (fun p => !p.isVacant)
        else entries.filterMap Entry.item?
      if t.sortsPromiseTypes then
        kept.mergeSort (fun a b => evaluationRank a.name.text ≤ evaluationRank b.name.text)
      else kept := by
  rw [Tidying.apply]
  split <;> split <;> simp only [items_sortToEvaluationOrder, items_removeVacant]

section

variable {P : Comment → Prop} (hNone : ∀ c, ¬ P c)
include hNone

/-- Without comments, a promise type goes exactly if it holds nothing. -/
theorem PromiseType.isVacant_eq {p : PromiseType} (h : p.Formed P) : p.isVacant = p.clauses.items.isEmpty := by
  have hTraits := h.keeps.1.comments_nil hNone
  have hName := h.nameKeeps.1.comments_nil hNone
  have hClauses := h.clauses.silent.1
  have hEntries : p.clauses.items = [] ↔ p.clauses.entries = [] := by
    constructor
    · intro hItems
      refine List.eq_nil_iff_forall_not_mem.2 fun entry hEntry => ?_
      cases entry with
      | item x => simpa [hItems] using ItemList.mem_items.2 hEntry
      | comment c => exact hNone c (h.clauses.comments c hEntry)
    · intro hNil
      simp [ItemList.items, hNil]
  rw [Bool.eq_iff_iff]
  simp [PromiseType.isVacant, hTraits, hName, hClauses, hEntries]

/-- Promise types go or move by what they say, and settle whether any of them does. -/
theorem Contents.meaning_tidied {μ : Type} (v : Abstract.View μ) {c : Contents} (t : Tidying) (h : c.Formed P) :
    (c.tidy t).meaning v = ((c.tidy ⟨false, false⟩).meaning v).tidy t := by
  cases c with
  | body selections => rfl
  | bundle statements =>
    have hVacant : ∀ p ∈ (statements.mapItems PromiseType.settle).entries.filterMap Entry.item?,
        p.isVacant = (p.meaning v).clauses.isEmpty := by
      intro p hp
      obtain ⟨q, hq, rfl⟩ := ItemList.item_mem_mapItems.1 (Entry.mem_items.1 hp)
      rw [PromiseType.isVacant_eq hNone
        (PromiseType.formed_settle (fun c _ hc => absurd hc (hNone c)) (h.items q hq)), PromiseType.meaning]
      cases q.settle.clauses.items <;> rfl
    have hOrder : ∀ ps : List PromiseType, (ps.mergeSort fun a b =>
          evaluationRank a.name.text ≤ evaluationRank b.name.text).map (PromiseType.meaning v) =
        (ps.map (PromiseType.meaning v)).mergeSort fun a b => evaluationRank a.name ≤ evaluationRank b.name :=
      fun ps => List.map_mergeSort fun _ _ _ _ => rfl
    simp only [Contents.tidy, Contents.meaning, Abstract.Contents.tidy, ItemList.items, Tidying.items_apply,
      Bool.false_eq_true, if_false]
    refine congrArg _ ?_
    have hKept := List.filter_congr fun p hp => congrArg not (hVacant p hp)
    split <;> split <;> simp only [hOrder, List.filter_map, Function.comp_def, hKept]

theorem Specification.meaning_tidied {μ : Type} (v : Abstract.View μ) {s : Specification} (t : Tidying)
    (h : Specification.Formed P s) : (s.tidy t).meaning v = ((s.tidy ⟨false, false⟩).meaning v).tidy t := by
  simp only [Specification.meaning, Specification.tidy, ItemList.items_mapItems, List.map_map, Abstract.Document.tidy]
  refine List.map_congr_left fun b hb => ?_
  have hContents := Contents.meaning_tidied hNone v t (h.of_mem hb).contents
  simp [Block.meaning, hContents]

/-- A file without comments says the same in its final form, apart from promise types that go or move. -/
theorem Specification.meaning_tidy {s : Specification} (t : Tidying) (h : Specification.Formed P s) :
    (s.tidy t).meaning Abstract.blind = (s.meaning Abstract.blind).tidy t := by
  have hSame := Specification.meaning_relabel (r := unkept) (v := Abstract.blind) fun _ _ => rfl
  have hSettled : (s.tidy ⟨false, false⟩).relabel unkept = s.relabel unkept :=
    ItemList.relabel_mapItems _ (fun b => by simp [Block.relabel, Contents.relabel_settled]) s
  rw [meaning_tidied hNone _ t h, ← hSame, hSettled, hSame]

end

end PolicyFormat.Policy
