import PolicyFormat.Proofs.Matching
import PolicyFormat.Proofs.SameLayout

/-! The blank lines that are kept in a tree are those that are laid out. They are lost only before the elements
of lists that are laid out on one line. -/
namespace PolicyFormat.Policy

open Layout Abstract

/-- The blank lines that are kept, wherever the entries start. -/
def byKept : View (Option Bool) where
  first := none
  next _ t := some (t.afterBlank && t.keepsBlank)

/-- What is kept before an entry is laid out. An element may be laid out behind the one before it. -/
def laidOut : Bond (Option Bool) (Option Bool) where
  statement standing kept shown := standing = .later → shown = kept
  element standing kept shown := standing = .later → shown = none ∨ shown = kept

/-! ### Entries that are alike -/

section

variable {α β γ : Type} {keepsBlank : Bool → Option Bool} {A : Option Bool → α → α → Prop} {isFirst : Bool}
  {xs ys : List (Entry α)}

theorem EntriesAlike.forall₂ {S : α → α → Prop} (h : EntriesAlike keepsBlank A isFirst xs ys)
    (hEach : ∀ x y keeps, .item x ∈ xs → .item y ∈ ys → A keeps x y → S y x) :
    List.Forall₂ S (ys.filterMap Entry.item?) (xs.filterMap Entry.item?) := by
  induction h with
  | nil => exact .nil
  | cons h _ ih =>
    exact .cons (hEach _ _ _ (by simp) (by simp) h) (ih fun x y keeps hx hy =>
      hEach x y keeps (List.mem_cons_of_mem _ hx) (List.mem_cons_of_mem _ hy))

variable {traits : α → Traits} {f : α → β} {g : α → γ} {isGuard : γ → Bool} {S : γ → β → Prop}
  {R : Standing → Option Bool → Option Bool → Prop}

theorem EntriesAlike.rows_after (h : EntriesAlike keepsBlank A false xs ys)
    (hItem : ∀ x y keeps, .item x ∈ xs → .item y ∈ ys → A keeps x y → S (g y) (f x))
    (hMark : ∀ x y, .item x ∈ xs → .item y ∈ ys → A (keepsBlank false) x y → ∀ standing previous other,
      R standing (byKept.next previous (traits y)) (byLayout.next other (traits x)))
    (previous other : Traits) (afterGuard : Bool) :
    Rows R isGuard S (some afterGuard) (byKept.after traits g previous (ys.filterMap Entry.item?))
      (byLayout.after traits f other (xs.filterMap Entry.item?)) := by
  generalize hIsFirst : false = isFirst at h
  induction h generalizing previous other afterGuard with
  | nil => exact .nil
  | cons h _ ih =>
    subst hIsFirst
    refine .cons (hMark _ _ (by simp) (by simp) h _ _ _) (hItem _ _ _ (by simp) (by simp) h) (ih ?_ ?_ _ _ _ rfl)
    · exact fun x y keeps hx hy => hItem x y keeps (List.mem_cons_of_mem _ hx) (List.mem_cons_of_mem _ hy)
    · exact fun x y hx hy => hMark x y (List.mem_cons_of_mem _ hx) (List.mem_cons_of_mem _ hy)

theorem EntriesAlike.rows (h : EntriesAlike keepsBlank A true xs ys) (hFirst : R .first none none)
    (hItem : ∀ x y keeps, .item x ∈ xs → .item y ∈ ys → A keeps x y → S (g y) (f x))
    (hMark : ∀ x y, .item x ∈ xs → .item y ∈ ys → A (keepsBlank false) x y → ∀ standing previous other,
      R standing (byKept.next previous (traits y)) (byLayout.next other (traits x))) :
    Rows R isGuard S none (byKept.along traits g (ys.filterMap Entry.item?))
      (byLayout.along traits f (xs.filterMap Entry.item?)) := by
  cases h with
  | nil => exact .nil
  | cons h hRest =>
    refine .cons hFirst (hItem _ _ _ (by simp) (by simp) h) (hRest.rows_after ?_ ?_ _ _ _)
    · exact fun x y keeps hx hy => hItem x y keeps (List.mem_cons_of_mem _ hx) (List.mem_cons_of_mem _ hy)
    · exact fun x y hx hy => hMark x y (List.mem_cons_of_mem _ hx) (List.mem_cons_of_mem _ hy)

/-- A statement has no rank, so that the blank line before it is laid out. -/
theorem laidOut_statement {previous other t u : Traits} (hRank : t.yields = none) (h : t.kept none = u.kept none)
    (standing : Standing) : laidOut.statement standing (byKept.next previous u) (byLayout.next other t) := by
  intro _
  simp only [byKept, byLayout, hRank, if_true]
  exact congrArg some h

end

/-! ### Constructs that are alike -/

variable {keeps : Option Bool} {c d : Clause} {s t : Selection}

theorem Value.Alike.matches {braceless : Bool} {x z : Value} (h : x.Alike braceless z)
    (hx : x.Formed Comment.Never) (hz : z.Formed Comment.Never) :
    ((z.meaning byKept).bareIf braceless).Matches laidOut ((x.meaning byLayout).bareIf braceless) := by
  cases h with
  | single h => cases braceless <;> exact .single h.symm
  | list h =>
    rw [Value.meaning, Value.meaning, Value.bareIf_list, Value.bareIf_list]
    refine .list (h.rows (by intro hLater; cases hLater) (fun _ _ _ _ _ h => h.1.symm) ?_)
    intro e d he hd hAlike standing previous other _
    by_cases hRank : e.traits.yields = none
    · have hKept : e.traits.kept none = d.traits.kept none := by
        simpa [bracedInk, Traits.kept, (hx.items e he).keeps, (hz.items d hd).keeps] using hAlike.2 hRank
      simp only [byKept, byLayout, hRank, if_true]
      exact .inr (congrArg some hKept)
    · exact .inl (if_neg hRank)

theorem Assignment.BodyAlike.matches {a b : Assignment} (h : a.BodyAlike true b) (ha : a.Formed Comment.Never)
    (hb : b.Formed Comment.Never) : (b.meaning byKept).bare.Matches laidOut (a.meaning byLayout).bare := by
  have hValue := h.value.matches ha.value hb.value
  rw [Bool.true_and] at hValue
  rw [Attribute.bare_eq, Attribute.bare_eq]
  refine ⟨h.name.symm, ?_⟩
  simp only [Assignment.meaning, ← h.name]
  exact hValue

theorem Promise.Alike.matches {p q : Promise} (h : p.Alike keeps q) (hp : p.Formed Comment.Never)
    (hq : q.Formed Comment.Never) : (q.meaning byKept).bare.Matches laidOut (p.meaning byLayout).bare := by
  refine ⟨h.promiser.symm, ?_, ?_⟩
  · have hPromisee : ∀ x z : Option Value, Option.Rel (Value.Alike true) x z → (∀ v ∈ x, v.Formed Comment.Never) →
        (∀ v ∈ z, v.Formed Comment.Never) →
        Option.Rel (Abstract.Value.Matches laidOut) ((z.map (Value.meaning byKept)).map Abstract.Value.bare)
          ((x.map (Value.meaning byLayout)).map Abstract.Value.bare) := by
      rintro _ _ (h | _) hx hz
      · exact .some (h.matches (hx _ rfl) (hz _ rfl))
      · exact .none
    exact hPromisee _ _ h.promisee hp.promisee hq.promisee
  · refine forall₂_map (forall₂_map (h.constraints.forall₂ (S := fun b a =>
      (b.meaning byKept).bare.Matches laidOut (a.meaning byLayout).bare) ?_) fun _ _ h => h) fun _ _ h => h
    exact fun a b _ ha hb h => h.toBodyAlike.matches (hp.constraints.items a ha).toFormed
      (hq.constraints.items b hb).toFormed

theorem Clause.Alike.matches (h : c.Alike keeps d) (hc : c.Formed Comment.Never) (hd : d.Formed Comment.Never) :
    (d.meaning byKept).bare.Matches laidOut (c.meaning byLayout).bare := by
  cases h with
  | guard h => exact .guard h.expression.symm
  | promise h => exact .promise (h.matches hc hd)

theorem Clause.Alike.kept (h : c.Alike keeps d) : c.traits.kept keeps = d.traits.kept keeps := by
  cases h with
  | guard h => exact h.kept
  | promise h => exact h.kept

theorem PromiseType.Alike.matches {p q : PromiseType} (h : p.Alike q) (hp : p.Formed Comment.Never)
    (hq : q.Formed Comment.Never) : (q.meaning byKept).bare.Matches laidOut (p.meaning byLayout).bare := by
  refine ⟨h.name.symm, ?_⟩
  simp only [Abstract.PromiseType.bare, PromiseType.meaning, View.along_comp]
  refine h.clauses.rows (by intro hLater; cases hLater) (fun c d _ hc hd h => ?_) fun c d hc _ h standing _ _ => ?_
  · exact h.matches (hp.clauses.items c hc) (hq.clauses.items d hd)
  · exact laidOut_statement (hp.clauses.items c hc).unranked h.kept standing

theorem Selection.Alike.matches (h : s.Alike keeps t) (hs : s.Formed Comment.Never) (ht : t.Formed Comment.Never) :
    (t.meaning byKept).Matches laidOut (s.meaning byLayout) := by
  cases h with
  | guard h => exact .guard h.expression.symm
  | assignment h => exact .assignment ⟨h.name.symm, h.value.matches hs.value ht.value⟩

theorem Selection.Alike.kept (h : s.Alike keeps t) : s.traits.kept keeps = t.traits.kept keeps := by
  cases h with
  | guard h => exact h.kept
  | assignment h => exact h.kept

theorem Contents.Alike.matches {c d : Contents} (h : c.Alike d) (hc : c.Formed Comment.Never)
    (hd : d.Formed Comment.Never) : (d.meaning byKept).bare.Matches laidOut (c.meaning byLayout).bare := by
  cases h with
  | bundle h =>
    refine .bundle (forall₂_map (forall₂_map (h.forall₂ (S := fun q p =>
      (q.meaning byKept).bare.Matches laidOut (p.meaning byLayout).bare) ?_) fun _ _ h => h) fun _ _ h => h)
    exact fun p q _ hp hq h => h.matches (hc.items p hp) (hd.items q hq)
  | body h =>
    refine .body (h.rows (by intro hLater; cases hLater) (fun s t _ hs ht h => ?_) fun s t hs _ h standing _ _ => ?_)
    · exact h.matches (hc.1.items s hs) (hd.1.items t ht)
    · exact laidOut_statement (hc.1.items s hs).unranked h.kept standing

theorem Block.Alike.matches {b c : Block} (h : b.Alike c) (hb : b.Formed Comment.Never)
    (hc : c.Formed Comment.Never) :
    Abstract.Block.Matches laidOut { c.meaning byKept with contents := (c.contents.meaning byKept).bare }
      { b.meaning byLayout with contents := (b.contents.meaning byLayout).bare } :=
  ⟨h.type.symm, h.name.symm, h.parameters.symm, h.contents.matches hb.contents hc.contents⟩

/-- What is kept in a tree is laid out, and only lists on one line lose blank lines. -/
theorem Specification.Alike.matches {y s : Specification} (h : Specification.Alike y s)
    (hy : Specification.Formed Comment.Never y) (hs : Specification.Formed Comment.Never s) :
    (s.meaning byKept).bare.Matches laidOut (y.meaning byLayout).bare := by
  refine forall₂_map (forall₂_map (h.forall₂ (S := fun c b =>
    Abstract.Block.Matches laidOut { c.meaning byKept with contents := (c.contents.meaning byKept).bare }
      { b.meaning byLayout with contents := (b.contents.meaning byLayout).bare }) ?_) fun _ _ h => h) fun _ _ h => h
  exact fun b c _ hb hc h => h.matches (hy.items b hb) (hs.items c hc)

end PolicyFormat.Policy
