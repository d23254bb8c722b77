import PolicyFormat.Proofs.BlankMarks
import PolicyFormat.Proofs.Likeness
import PolicyFormat.Proofs.Tidiness
import PolicyFormat.Proofs.TreeCode

/-! When trees are laid out alike. A tree that says what was laid out, with the blank lines that were put
there, is like the tree that was laid out, once it is brought into its final form. -/
namespace PolicyFormat

open Policy Layout Abstract

/-! ### Calls without arguments -/

namespace Abstract

theorem Term.bare_bare (t : Term) : t.bare.bare = t.bare := by
  induction t using Term.induction with
  | word text => simp [bare]
  | call name arguments ih =>
    cases arguments with
    | nil => simp [bare]
    | cons first rest =>
      have hEach : ∀ t ∈ first :: rest, t.bare.bare = t.bare := ih
      have hNonempty : (first :: rest).map bare ≠ [] := by simp
      simp only [bare, bareEach_eq, List.isEmpty_cons, Bool.false_eq_true, if_false, List.isEmpty_map,
        List.map_map, Function.comp_def]
      rw [List.map_congr_left hEach]

theorem Term.bareIf_bareIf (braceless : Bool) (t : Term) :
    (t.bareIf braceless).bareIf braceless = t.bareIf braceless := by
  cases braceless with
  | false => rfl
  | true => exact t.bare_bare

end Abstract

namespace Policy

theorem ItemList.Formed.bare {α : Type} {F : α → Prop} {g : ItemList α} (h : g.Formed Comment.Never F) :
    g.entries = g.items.map .item :=
  h.entries_eq fun _ => id

/-! ### Blank lines as they are laid out -/

/-- The blank lines that are laid out. In a tree that was laid out, only what starts a line has no rank. -/
def byLayout : View (Option Bool) where
  first := none
  next _ t := if t.yields = none then some (t.afterBlank && t.keepsBlank) else none

theorem kept_eq_of_next_eq {previous other t u : Traits} (h : byLayout.next previous t = byMarks.next other u)
    (hRank : t.yields = none) : t.kept none = u.kept none := by
  simp only [byLayout, byMarks, hRank, if_true] at h
  split at h
  · cases h
  · exact Option.some.inj h

section

variable {α β : Type} {traits : α → Traits} {f g : α → β} {keepsBlank : Bool → Option Bool}
  {A : Option Bool → α → α → Prop} {xs ys : List α}

variable {previous other : Traits}

theorem forall₂_of_after {S : α → α → Prop} (hEach : ∀ x ∈ xs, ∀ y ∈ ys, f x = g y →
      ((traits x).yields = none → (traits x).kept none = (traits y).kept none) → S x y)
    (h : byLayout.after traits f previous xs = byMarks.after traits g other ys) : List.Forall₂ S xs ys := by
  induction xs generalizing ys previous other with
  | nil =>
    cases ys with
    | nil => exact .nil
    | cons y ys => cases h
  | cons x xs ih =>
    cases ys with
    | nil => cases h
    | cons y ys =>
      obtain ⟨hHead, hTail⟩ := List.cons.inj h
      obtain ⟨hMark, hMeaning⟩ := Prod.mk.inj hHead
      refine .cons (hEach x (by simp) y (by simp) hMeaning (kept_eq_of_next_eq hMark)) (ih ?_ hTail)
      exact fun x hx y hy => hEach x (by simp [hx]) y (by simp [hy])

theorem entriesAlike_of_forall₂ (h : List.Forall₂ (A (keepsBlank false)) xs ys) :
    EntriesAlike keepsBlank A false (xs.map .item) (ys.map .item) := by
  induction h with
  | nil => exact .nil
  | cons hEach _ ih => exact .cons hEach ih

theorem entriesAlike_along (hFirst : ∀ x ∈ xs, ∀ y ∈ ys, f x = g y → A (keepsBlank true) x y)
    (hEach : ∀ x ∈ xs, ∀ y ∈ ys, f x = g y →
      ((traits x).yields = none → (traits x).kept none = (traits y).kept none) → A (keepsBlank false) x y)
    (h : byLayout.along traits f xs = byMarks.along traits g ys) :
    EntriesAlike keepsBlank A true (xs.map .item) (ys.map .item) := by
  cases xs with
  | nil =>
    cases ys with
    | nil => exact .nil
    | cons y ys => cases h
  | cons x xs =>
    cases ys with
    | nil => cases h
    | cons y ys =>
      obtain ⟨hHead, hTail⟩ := List.cons.inj h
      refine .cons (hFirst x (by simp) y (by simp) (Prod.mk.inj hHead).2) (entriesAlike_of_forall₂ ?_)
      exact forall₂_of_after (fun x hx y hy => hEach x (by simp [hx]) y (by simp [hy])) hTail

variable {isGuard : α → Bool} {change : (Traits → Traits) → α → α}

/-- An entry that says the same is alike, with another mark for its blank line too, if the same blank line is
kept. -/
def AlikeWhenKept (traits : α → Traits) (change : (Traits → Traits) → α → α) (A : Option Bool → α → α → Prop)
    (x y : α) : Prop :=
  ∀ alter keeps, (traits x).kept keeps = (traits (change alter y)).kept keeps → A keeps x (change alter y)

variable (hTraits : ∀ alter x, traits (change alter x) = alter (traits x)) (hSame : ∀ x, change id x = x)
include hTraits hSame

theorem entriesAlike_settled_after {afterGuard : Bool} (hSettled : Settled isGuard traits afterGuard xs)
    (h : List.Forall₂ (fun x y => isGuard x = isGuard y ∧ (traits x).kept none = (traits y).kept none ∧
      AlikeWhenKept traits change A x y) xs ys) :
    EntriesAlike notBeforeFirst A false (xs.map .item)
      (settleAfterGuards isGuard change afterGuard (ys.map .item)) := by
  induction h generalizing afterGuard with
  | nil => exact .nil
  | cons hEach _ ih =>
    obtain ⟨hKind, hKept, hAlike⟩ := hEach
    rw [List.map_cons, List.map_cons, settleAfterGuards]
    refine .cons ?_ (ih (hKind ▸ hSettled.2))
    split
    · rename_i hAfter
      obtain ⟨hAfter, hOther⟩ := Bool.and_eq_true_iff.1 hAfter
      have hLost := hSettled.1 hAfter (by simpa [hKind] using hOther)
      refine hAlike _ none ?_
      simp [hTraits, Traits.kept, hLost]
    · have hOwn := hAlike id none
      rw [hSame] at hOwn
      exact hOwn hKept

theorem entriesAlike_settled (hGuard : ∀ x ∈ xs, ∀ y ∈ ys, f x = g y → isGuard x = isGuard y)
    (hRank : ∀ x ∈ xs, (traits x).yields = none)
    (hEach : ∀ x ∈ xs, ∀ y ∈ ys, f x = g y → AlikeWhenKept traits change A x y)
    (hSettled : Settled isGuard traits false xs)
    (h : byLayout.along traits f xs = byMarks.along traits g ys) :
    EntriesAlike notBeforeFirst A true (xs.map .item) (settleAfterGuards isGuard change false (ys.map .item)) := by
  cases xs with
  | nil =>
    cases ys with
    | nil => exact .nil
    | cons y ys => cases h
  | cons x xs =>
    cases ys with
    | nil => cases h
    | cons y ys =>
      obtain ⟨hHead, hTail⟩ := List.cons.inj h
      have hMeaning := (Prod.mk.inj hHead).2
      rw [List.map_cons, List.map_cons, settleAfterGuards]
      refine .cons ?_ (entriesAlike_settled_after hTraits hSame
        (hGuard x (by simp) y (by simp) hMeaning ▸ hSettled.2) (forall₂_of_after ?_ hTail))
      · have hOwn := hEach x (by simp) y (by simp) hMeaning id (some false)
        rw [hSame] at hOwn
        exact hOwn (by simp [Traits.kept])
      · intro x hx y hy hMeaning hKept
        exact ⟨hGuard x (by simp [hx]) y (by simp [hy]) hMeaning, hKept (hRank x (by simp [hx])),
          hEach x (by simp [hx]) y (by simp [hy]) hMeaning⟩

end

/-! ### Trees that say what was laid out -/

theorem entriesAlike_of_map {α β : Type} {f g : α → β} {keepsBlank : Bool → Option Bool}
    {A : Option Bool → α → α → Prop} {k : α → α} {xs ys : List α}
    (hEach : ∀ x ∈ xs, ∀ y ∈ ys, f x = g y → ∀ isFirst, A (keepsBlank isFirst) x (k y))
    (h : xs.map f = ys.map g) (isFirst : Bool) :
    EntriesAlike keepsBlank A isFirst (xs.map .item) ((ys.map k).map .item) := by
  induction xs generalizing ys isFirst with
  | nil =>
    cases ys with
    | nil => exact .nil
    | cons y ys => cases h
  | cons x xs ih =>
    cases ys with
    | nil => cases h
    | cons y ys =>
      obtain ⟨hHead, hTail⟩ := List.cons.inj h
      refine .cons (hEach x (by simp) y (by simp) hHead isFirst) (ih ?_ hTail false)
      exact fun x hx y hy => hEach x (by simp [hx]) y (by simp [hy])

section

variable {keeps : Option Bool} {other : Traits}

variable {braceless : Bool}

theorem Element.says_of_term {e d : Element} (h : e.term.bareIf braceless = d.term) : e.Says braceless d := by
  rw [Element.Says, ← h, Term.bareIf_bareIf]

theorem Value.alike_of_meaning {x z : Value} (hx : x.Formed Comment.Never) (hz : z.Formed Comment.Never)
    (h : (x.meaning byLayout).bareIf braceless = z.meaning byMarks) : x.Alike braceless z := by
  cases x with
  | single e =>
    cases z with
    | single d =>
      refine .single (Element.says_of_term ?_)
      cases braceless <;> exact Abstract.Value.single.inj h
    | list l => cases braceless <;> cases h
  | list g =>
    cases z with
    | single d => cases braceless <;> cases h
    | list l =>
      rw [Value.meaning, Value.bareIf_list, Value.meaning] at h
      refine .list ?_
      rw [hx.bare, hz.bare]
      refine entriesAlike_along (fun e _ d _ hSame => ?_) (fun e he d hd hSame hKept => ?_)
        (Abstract.Value.list.inj h)
      · exact ⟨Element.says_of_term hSame, fun _ => by simp [bracedInk, Traits.kept]⟩
      · refine ⟨Element.says_of_term hSame, fun hRank => ?_⟩
        simpa [bracedInk, Traits.kept, (hx.of_mem he).keeps, (hz.of_mem hd).keeps] using hKept hRank

theorem Assignment.constrains_alike {a b : Assignment} (ha : a.Constrains Comment.Never)
    (hb : b.Constrains Comment.Never) (h : (a.meaning byLayout).bare = b.meaning byMarks) :
    a.Alike true none b := by
  rw [Attribute.bare_eq] at h
  obtain ⟨hName, hValue⟩ := Abstract.Attribute.mk.inj h
  refine ⟨⟨hName, Value.alike_of_meaning ha.value hb.value ?_⟩, by simp [Traits.kept, ha.keeps, hb.keeps]⟩
  rw [Bool.true_and]
  exact hValue

theorem promisee_alike {x z : Option Value} (hx : ∀ v ∈ x, v.Formed Comment.Never)
    (hz : ∀ v ∈ z, v.Formed Comment.Never)
    (h : (x.map (Value.meaning byLayout)).map Abstract.Value.bare = z.map (Value.meaning byMarks)) :
    Option.Rel (Value.Alike true) x z := by
  cases x with
  | none =>
    cases z with
    | none => exact .none
    | some d => cases h
  | some e =>
    cases z with
    | none => cases h
    | some d => exact .some (Value.alike_of_meaning (hx e rfl) (hz d rfl) (Option.some.inj h))

theorem Promise.alike_of_meaning {p q : Promise} (hp : p.Formed Comment.Never) (hq : q.Formed Comment.Never)
    (h : (p.meaning byLayout).bare = q.meaning byMarks) (hKept : p.traits.kept keeps = other.kept keeps) :
    p.Alike keeps { q with traits := other } := by
  obtain ⟨hPromiser, hPromisee, hAttributes⟩ := Abstract.Promise.mk.inj h
  refine ⟨hKept, hPromiser, promisee_alike hp.promisee hq.promisee hPromisee, ?_⟩
  rw [hp.constraints.bare, hq.constraints.bare, ← List.map_id q.constraints.items]
  refine entriesAlike_of_map (fun a ha b hb hSame isFirst => ?_) ((List.map_map ..).symm.trans hAttributes) true
  exact Assignment.constrains_alike (hp.constraints.of_mem ha) (hq.constraints.of_mem hb) hSame

theorem Clause.alike_of_meaning {c d : Clause} (hc : c.Formed Comment.Never) (hd : d.Formed Comment.Never)
    (h : (c.meaning byLayout).bare = d.meaning byMarks) :
    AlikeWhenKept Clause.traits Clause.withTraits Clause.Alike c d := by
  intro alter keeps hKept
  cases c with
  | guard g =>
    cases d with
    | guard l => exact .guard ⟨hKept, Abstract.Clause.guard.inj h⟩
    | promise q => cases h
  | promise p =>
    cases d with
    | guard l => cases h
    | promise q => exact .promise (Promise.alike_of_meaning hc hd (Abstract.Clause.promise.inj h) hKept)

variable {p : PromiseType}

theorem PromiseType.alike_of_meaning {q : PromiseType} (hp : p.Formed Comment.Never) (hq : q.Formed Comment.Never)
    (hSettled : Settled Clause.isGuard Clause.traits false p.clauses.items)
    (h : (p.meaning byLayout).bare = q.meaning byMarks) : p.Alike q.settle := by
  obtain ⟨hName, hClauses⟩ := Abstract.PromiseType.mk.inj h
  refine ⟨hName, ?_⟩
  rw [PromiseType.settle, hp.clauses.bare, hq.clauses.bare]
  refine entriesAlike_settled (f := fun c => (c.meaning byLayout).bare) (g := Clause.meaning byMarks)
    (fun alter c => by cases c <;> rfl) (fun c => by cases c <;> rfl) (fun c _ d _ hSame => ?_)
    (fun c hc => (hp.clauses.of_mem hc).unranked) (fun c hc d hd => ?_) hSettled ?_
  · cases c <;> cases d <;> first | rfl | cases hSame
  · exact Clause.alike_of_meaning (hp.clauses.of_mem hc) (hq.clauses.of_mem hd)
  · rw [← View.along_comp]
    exact hClauses

theorem Selection.alike_of_meaning {s t : Selection} (hs : s.Formed Comment.Never) (ht : t.Formed Comment.Never)
    (h : s.meaning byLayout = t.meaning byMarks) :
    AlikeWhenKept Selection.traits Selection.withTraits Selection.Alike s t := by
  intro alter keeps hKept
  cases s with
  | guard g =>
    cases t with
    | guard l => exact .guard ⟨hKept, Abstract.Selection.guard.inj h⟩
    | assignment b => cases h
  | assignment a =>
    cases t with
    | guard l => cases h
    | assignment b =>
      obtain ⟨hName, hValue⟩ := Abstract.Attribute.mk.inj (Abstract.Selection.assignment.inj h)
      exact .assignment ⟨⟨hName, Value.alike_of_meaning hs.value ht.value hValue⟩, hKept⟩

theorem PromiseType.isVacant_settle (h : p.Formed Comment.Never) (hClauses : p.clauses.items ≠ []) :
    p.settle.isVacant = false := by
  have hEntries := h.clauses.bare
  obtain ⟨c, rest, hItems⟩ := List.exists_cons_of_ne_nil hClauses
  simp [PromiseType.isVacant, PromiseType.settle, hEntries, hItems, settleAfterGuards]

variable {t : Tidying}

/-- Promise types that say what was laid out are all there, in the order of what was laid out. -/
theorem Tidying.apply_settled {statements others : ItemList PromiseType}
    (hOthers : others.Formed Comment.Never (PromiseType.Formed Comment.Never))
    (hTidy : (Contents.bundle statements).IsTidy t)
    (h : statements.items.map (fun p => (p.meaning byLayout).bare) = others.items.map (PromiseType.meaning byMarks)) :
    t.apply (others.mapItems PromiseType.settle).entries = (others.items.map PromiseType.settle).map .item := by
  obtain ⟨hKept, hSorted, -⟩ := hTidy
  have hEntries : (others.mapItems PromiseType.settle).entries = (others.items.map PromiseType.settle).map .item := by
    rw [ItemList.mapItems, hOthers.bare]
    simp
  rw [hEntries, Tidying.apply_eq_self]
  · intro hRemoves p hp
    obtain ⟨q, hq, rfl⟩ := List.mem_map.1 hp
    obtain ⟨p, hp, hMeaning⟩ := List.mem_map.1 (h ▸ List.mem_map_of_mem hq)
    refine PromiseType.isVacant_settle (hOthers.of_mem hq) fun hNone => ?_
    have hClauses := congrArg Abstract.PromiseType.clauses hMeaning
    simp only [Abstract.PromiseType.bare, PromiseType.meaning, View.along_comp, hNone] at hClauses
    exact View.along_ne_nil _ _ _ (hKept hRemoves p hp) hClauses
  · intro hSorts
    have hRanks := congrArg (List.map fun p => evaluationRank p.name) h
    rw [List.map_map, List.map_map] at hRanks
    refine List.pairwise_map.2 (List.pairwise_map.1 ?_)
    exact hRanks ▸ List.pairwise_map.2 (hSorted hSorts)

/-- A tree that says what was laid out is like the tree that was laid out, once it is in its final form. -/
theorem Contents.alike_of_meaning {c d : Contents} (hc : c.Formed Comment.Never) (hd : d.Formed Comment.Never)
    (hTidy : c.IsTidy t) (h : (c.meaning byLayout).bare = d.meaning byMarks) : c.Alike (d.tidy t) := by
  cases c with
  | bundle statements =>
    cases d with
    | body selections => cases h
    | bundle others =>
      have hSame : statements.items.map (fun p => (p.meaning byLayout).bare) =
          others.items.map (PromiseType.meaning byMarks) :=
        (List.map_map ..).symm.trans (Abstract.Contents.bundle.inj h)
      refine .bundle ?_
      change EntriesAlike _ _ _ _ (t.apply (others.mapItems PromiseType.settle).entries)
      rw [hc.bare, Tidying.apply_settled hd.toFormed hTidy hSame]
      refine entriesAlike_of_map (fun p hp q hq hMeaning _ => ?_) hSame true
      exact PromiseType.alike_of_meaning (hc.of_mem hp) (hd.of_mem hq) (hTidy.2.2 p hp) hMeaning
  | body selections =>
    cases d with
    | bundle others => cases h
    | body others =>
      refine .body ?_
      rw [hc.1.bare, hd.1.bare]
      refine entriesAlike_settled (f := Selection.meaning byLayout) (g := Selection.meaning byMarks)
        (fun alter s => by cases s <;> rfl) (fun s => by cases s <;> rfl) (fun s _ t _ hSame => ?_)
        (fun s hs => (hc.1.of_mem hs).unranked) (fun s hs t ht => ?_) hTidy
        (Abstract.Contents.body.inj h)
      · cases s <;> cases t <;> first | rfl | cases hSame
      · exact Selection.alike_of_meaning (hc.1.of_mem hs) (hd.1.of_mem ht)

theorem Block.alike_of_meaning {b c : Block} (hb : b.Formed Comment.Never) (hc : c.Formed Comment.Never)
    (hTidy : b.contents.IsTidy t)
    (h : ({ b.meaning byLayout with contents := (b.contents.meaning byLayout).bare } : Abstract.Block _) =
      c.meaning byMarks) : b.Alike { c with contents := c.contents.tidy t } := by
  obtain ⟨hType, hName, hParameters, hContents⟩ := Abstract.Block.mk.inj h
  exact ⟨hType, hName, hParameters, Contents.alike_of_meaning hb.contents hc.contents hTidy hContents⟩

theorem Specification.alike_of_meaning {y z : Specification} (hy : Specification.Formed Comment.Never y)
    (hz : Specification.Formed Comment.Never z) (hTidy : Specification.IsTidy t y)
    (h : (y.meaning byLayout).bare = z.meaning byMarks) : Specification.Alike y (z.tidy t) := by
  have hTidied : (z.tidy t).entries =
      ((ItemList.items z).map fun b => { b with contents := b.contents.tidy t }).map .item := by
    rw [Specification.tidy, ItemList.mapItems, hz.bare]
    simp
  rw [Specification.Alike, hy.bare, hTidied]
  refine entriesAlike_of_map (fun b hb c hc hSame _ => ?_) ((List.map_map ..).symm.trans h) true
  exact Block.alike_of_meaning (hy.of_mem hb) (hz.of_mem hc) (hTidy b hb) hSame

end

end Policy

end PolicyFormat
