import Mathlib.Data.List.Forall2
import PolicyFormat.Proofs.Meaning

/-! Two documents match if they say the same and the marks of their entries are related one by one. What is
asked of the marks of an entry may depend on where the entry stands in its list. -/
namespace PolicyFormat.Abstract

variable {β α : Type} {R : α → β → Prop}

/-- Where an entry stands: at the start of its list, directly after a class expression without being one, or
anywhere else. -/
inductive Standing where
  | first
  | sheltered
  | later

/-- The standing of an entry. It is told whether the entry before it, if there is one, is a class expression,
and whether it is one itself. -/
def Standing.of : Option Bool → Bool → Standing
  | none, _ => .first
  | some true, false => .sheltered
  | some _, _ => .later

/-- What is asked of the marks of two entries: of statements, and of the elements of lists in braces. -/
structure Bond (μ ν : Type) where
  statement : Standing → μ → ν → Prop
  element : Standing → μ → ν → Prop

/-- The marks are the same. -/
def Bond.same (μ : Type) : Bond μ μ where
  statement _ := Eq
  element _ := Eq

/-- Whether it is a class expression. -/
def Clause.isGuard {μ : Type} : Clause μ → Bool
  | guard _ => true
  | promise _ => false

/-- Whether it is a class expression. -/
def Selection.isGuard {μ : Type} : Selection μ → Bool
  | guard _ => true
  | assignment _ => false

variable {μ ν : Type}

section

variable {β γ : Type}

/-- The entries of two lists are related one by one, and so are their marks. It is told whether the entry before
them, if there is one, is a class expression. -/
inductive Rows (R : Standing → μ → ν → Prop) (isGuard : β → Bool) (S : β → γ → Prop) :
    Option Bool → List (μ × β) → List (ν × γ) → Prop where
  | nil {before : Option Bool} : Rows R isGuard S before [] []
  | cons {before : Option Bool} {m : μ} {n : ν} {x : β} {y : γ} {xs : List (μ × β)} {ys : List (ν × γ)}
      (hMark : R (.of before (isGuard x)) m n) (hItem : S x y) (hRest : Rows R isGuard S (some (isGuard x)) xs ys) :
      Rows R isGuard S before ((m, x) :: xs) ((n, y) :: ys)

end

/-! ### Constructs that match -/

variable (bond : Bond μ ν)

/-- The values say the same and their marks are related. -/
inductive Value.Matches : Value μ → Value ν → Prop where
  | single {t u : Term} (h : t = u) : Matches (.single t) (.single u)
  | list {xs : List (μ × Term)} {ys : List (ν × Term)} (h : Rows bond.element (fun _ => false) Eq none xs ys) :
      Matches (.list xs) (.list ys)

structure Attribute.Matches (a : Attribute μ) (b : Attribute ν) : Prop where
  name : a.name = b.name
  value : a.value.Matches bond b.value

structure Promise.Matches (p : Promise μ) (q : Promise ν) : Prop where
  promiser : p.promiser = q.promiser
  promisee : Option.Rel (Value.Matches bond) p.promisee q.promisee
  attributes : List.Forall₂ (Attribute.Matches bond) p.attributes q.attributes

inductive Clause.Matches : Clause μ → Clause ν → Prop where
  | guard {e f : String} (h : e = f) : Matches (.guard e) (.guard f)
  | promise {p : Promise μ} {q : Promise ν} (h : p.Matches bond q) : Matches (.promise p) (.promise q)

structure PromiseType.Matches (p : PromiseType μ) (q : PromiseType ν) : Prop where
  name : p.name = q.name
  clauses : Rows bond.statement Clause.isGuard (Clause.Matches bond) none p.clauses q.clauses

inductive Selection.Matches : Selection μ → Selection ν → Prop where
  | guard {e f : String} (h : e = f) : Matches (.guard e) (.guard f)
  | assignment {a : Attribute μ} {b : Attribute ν} (h : a.Matches bond b) : Matches (.assignment a) (.assignment b)

inductive Contents.Matches : Contents μ → Contents ν → Prop where
  | bundle {ps : List (PromiseType μ)} {qs : List (PromiseType ν)}
      (h : List.Forall₂ (PromiseType.Matches bond) ps qs) : Matches (.bundle ps) (.bundle qs)
  | body {xs : List (μ × Selection μ)} {ys : List (ν × Selection ν)}
      (h : Rows bond.statement Selection.isGuard (Selection.Matches bond) none xs ys) : Matches (.body xs) (.body ys)

structure Block.Matches (b : Block μ) (c : Block ν) : Prop where
  type : b.type = c.type
  name : b.name = c.name
  parameters : b.parameters = c.parameters
  contents : b.contents.Matches bond c.contents

/-- The documents say the same and their marks are related. -/
def Document.Matches (d : Document μ) (e : Document ν) : Prop :=
  List.Forall₂ (Block.Matches bond) d e

/-! ### The same marks -/

variable {isGuard : β → Bool} {before : Option Bool} {S : α → α → Prop} {xs : List α} {x : Option α}

theorem Rows.eq {S : β → β → Prop} {xs ys : List (μ × β)} (h : Rows (fun _ => Eq) isGuard S before xs ys)
    (hItem : ∀ x y, S x y → x = y) : xs = ys := by
  induction h with
  | nil => rfl
  | cons hMark h _ ih => rw [hMark, hItem _ _ h, ih]

theorem forall₂_eq {ys : List α} (h : List.Forall₂ S xs ys) (hItem : ∀ x y, S x y → x = y) : xs = ys :=
  List.forall₂_eq_eq_eq ▸ h.imp hItem

theorem rel_eq {y : Option α} (h : Option.Rel S x y) (hItem : ∀ x y, S x y → x = y) : x = y := by
  cases h with
  | none => rfl
  | some h => rw [hItem _ _ h]

theorem Value.Matches.eq {x y : Value μ} (h : x.Matches (.same μ) y) : x = y := by
  cases h with
  | single h => rw [h]
  | list h => rw [Rows.eq h fun _ _ h => h]

theorem Attribute.Matches.eq {a b : Attribute μ} (h : a.Matches (.same μ) b) : a = b := by
  cases a
  cases b
  exact Attribute.mk.injEq .. ▸ ⟨h.name, h.value.eq⟩

theorem Promise.Matches.eq {p q : Promise μ} (h : p.Matches (.same μ) q) : p = q := by
  cases p
  cases q
  exact Promise.mk.injEq .. ▸
    ⟨h.promiser, rel_eq h.promisee fun _ _ h => h.eq, forall₂_eq h.attributes fun _ _ h => h.eq⟩

theorem Clause.Matches.eq {x y : Clause μ} (h : x.Matches (.same μ) y) : x = y := by
  cases h with
  | guard h => rw [h]
  | promise h => rw [h.eq]

theorem PromiseType.Matches.eq {p q : PromiseType μ} (h : p.Matches (.same μ) q) : p = q := by
  cases p
  cases q
  exact PromiseType.mk.injEq .. ▸ ⟨h.name, Rows.eq h.clauses fun _ _ h => h.eq⟩

theorem Selection.Matches.eq {x y : Selection μ} (h : x.Matches (.same μ) y) : x = y := by
  cases h with
  | guard h => rw [h]
  | assignment h => rw [h.eq]

theorem Contents.Matches.eq {x y : Contents μ} (h : x.Matches (.same μ) y) : x = y := by
  cases h with
  | bundle h => rw [forall₂_eq h fun _ _ h => h.eq]
  | body h => rw [Rows.eq h fun _ _ h => h.eq]

theorem Block.Matches.eq {b c : Block μ} (h : b.Matches (.same μ) c) : b = c := by
  cases b
  cases c
  exact Block.mk.injEq .. ▸ ⟨h.type, h.name, h.parameters, h.contents.eq⟩

theorem Document.Matches.eq {d e : Document μ} (h : d.Matches (.same μ) e) : d = e :=
  forall₂_eq h fun _ _ h => h.eq

/-! ### One match after the other -/

section

variable {ρ : Type}

/-- What two bonds ask of marks, one after the other, is enough for a third. -/
structure Bond.Composes (b : Bond μ ν) (c : Bond ν ρ) (d : Bond μ ρ) : Prop where
  statement : ∀ standing m n r, b.statement standing m n → c.statement standing n r → d.statement standing m r
  element : ∀ standing m n r, b.element standing m n → c.element standing n r → d.element standing m r

variable {γ : Type} {S : β → γ → Prop}

theorem Rows.trans {δ : Type} {R : Standing → μ → ν → Prop} {R' : Standing → ν → ρ → Prop}
    {T : Standing → μ → ρ → Prop} {isGuard : β → Bool} {isGuard' : γ → Bool} {S' : γ → δ → Prop}
    {U : β → δ → Prop} {before : Option Bool} {xs : List (μ × β)} {ys : List (ν × γ)} {zs : List (ρ × δ)}
    (h : Rows R isGuard S before xs ys) (h' : Rows R' isGuard' S' before ys zs)
    (hMark : ∀ standing m n r, R standing m n → R' standing n r → T standing m r)
    (hGuard : ∀ x y, S x y → isGuard' y = isGuard x) (hItem : ∀ x y z, S x y → S' y z → U x z) :
    Rows T isGuard U before xs zs := by
  induction h generalizing zs with
  | nil =>
    cases h'
    exact .nil
  | cons hMarks hItems _ ih =>
    cases h' with
    | cons hMarks' hItems' hRest =>
      rw [hGuard _ _ hItems] at hMarks' hRest
      exact .cons (hMark _ _ _ _ hMarks hMarks') (hItem _ _ _ hItems hItems') (ih hRest)

variable {T : α → γ → Prop}

theorem forall₂_trans {xs : List α} {ys : List β} {zs : List γ} (h : List.Forall₂ R xs ys)
    (h' : List.Forall₂ S ys zs) (hItem : ∀ x y z, R x y → S y z → T x z) : List.Forall₂ T xs zs := by
  induction h generalizing zs with
  | nil =>
    cases h'
    exact .nil
  | cons hxy _ ih =>
    cases h' with
    | cons hyz hRest => exact .cons (hItem _ _ _ hxy hyz) (ih hRest)

theorem rel_trans {x : Option α} {y : Option β} {z : Option γ} (h : Option.Rel R x y) (h' : Option.Rel S y z)
    (hItem : ∀ x y z, R x y → S y z → T x z) : Option.Rel T x z := by
  cases h with
  | none =>
    cases h'
    exact .none
  | some h =>
    cases h' with
    | some h' => exact .some (hItem _ _ _ h h')

variable {b : Bond μ ν} {c : Bond ν ρ} {d : Bond μ ρ} (hBonds : b.Composes c d)
include hBonds

theorem Value.Matches.trans {x : Value μ} {y : Value ν} {z : Value ρ} (h : x.Matches b y) (h' : y.Matches c z) :
    x.Matches d z := by
  cases h with
  | single h =>
    cases h' with
    | single h' => exact .single (h.trans h')
  | list h =>
    cases h' with
    | list h' => exact .list (h.trans h' hBonds.element (fun _ _ _ => rfl) fun _ _ _ => Eq.trans)

theorem Attribute.Matches.trans {x : Attribute μ} {y : Attribute ν} {z : Attribute ρ} (h : x.Matches b y)
    (h' : y.Matches c z) : x.Matches d z :=
  ⟨h.name.trans h'.name, h.value.trans hBonds h'.value⟩

theorem Promise.Matches.trans {x : Promise μ} {y : Promise ν} {z : Promise ρ} (h : x.Matches b y)
    (h' : y.Matches c z) : x.Matches d z := by
  refine ⟨h.promiser.trans h'.promiser, rel_trans h.promisee h'.promisee ?_,
    forall₂_trans h.attributes h'.attributes ?_⟩
  · exact fun _ _ _ h h' => h.trans hBonds h'
  · exact fun _ _ _ h h' => h.trans hBonds h'

variable {x : Clause μ} {y : Clause ν}

omit hBonds in
theorem Clause.Matches.isGuard_eq (h : x.Matches b y) : y.isGuard = x.isGuard := by
  cases h <;> rfl

theorem Clause.Matches.trans {z : Clause ρ} (h : x.Matches b y) (h' : y.Matches c z) : x.Matches d z := by
  cases h with
  | guard h =>
    cases h' with
    | guard h' => exact .guard (h.trans h')
  | promise h =>
    cases h' with
    | promise h' => exact .promise (h.trans hBonds h')

theorem PromiseType.Matches.trans {x : PromiseType μ} {y : PromiseType ν} {z : PromiseType ρ} (h : x.Matches b y)
    (h' : y.Matches c z) : x.Matches d z :=
  ⟨h.name.trans h'.name, h.clauses.trans h'.clauses hBonds.statement (fun _ _ h => h.isGuard_eq)
    fun _ _ _ h h' => h.trans hBonds h'⟩

omit hBonds in
theorem Selection.Matches.isGuard_eq {x : Selection μ} {y : Selection ν} (h : x.Matches b y) :
    y.isGuard = x.isGuard := by
  cases h <;> rfl

theorem Selection.Matches.trans {x : Selection μ} {y : Selection ν} {z : Selection ρ} (h : x.Matches b y)
    (h' : y.Matches c z) : x.Matches d z := by
  cases h with
  | guard h =>
    cases h' with
    | guard h' => exact .guard (h.trans h')
  | assignment h =>
    cases h' with
    | assignment h' => exact .assignment (h.trans hBonds h')

theorem Contents.Matches.trans {x : Contents μ} {y : Contents ν} {z : Contents ρ} (h : x.Matches b y)
    (h' : y.Matches c z) : x.Matches d z := by
  cases h with
  | bundle h =>
    cases h' with
    | bundle h' => exact .bundle (forall₂_trans h h' fun _ _ _ h h' => h.trans hBonds h')
  | body h =>
    cases h' with
    | body h' =>
      exact .body (h.trans h' hBonds.statement (fun _ _ h => h.isGuard_eq) fun _ _ _ h h' => h.trans hBonds h')

theorem Block.Matches.trans {x : Block μ} {y : Block ν} {z : Block ρ} (h : x.Matches b y) (h' : y.Matches c z) :
    x.Matches d z :=
  ⟨h.type.trans h'.type, h.name.trans h'.name, h.parameters.trans h'.parameters, h.contents.trans hBonds h'.contents⟩

theorem Document.Matches.trans {x : Document μ} {y : Document ν} {z : Document ρ} (h : x.Matches b y)
    (h' : y.Matches c z) : x.Matches d z :=
  forall₂_trans h h' fun _ _ _ h h' => h.trans hBonds h'

end

/-! ### What is laid out -/

variable {β' α' : Type} {ys : List β} {f : α → α'} {g : β → β'}

theorem Rows.map {γ γ' : Type} {R : Standing → μ → ν → Prop} {isGuard' : β' → Bool} {S : β → γ → Prop}
    {S' : β' → γ' → Prop} {f : β → β'} {g : γ → γ'} {xs : List (μ × β)} {ys : List (ν × γ)}
    (h : Rows R isGuard S before xs ys) (hGuard : ∀ x, isGuard' (f x) = isGuard x)
    (hItem : ∀ x y, S x y → S' (f x) (g y)) :
    Rows R isGuard' S' before (xs.map fun (mark, x) => (mark, f x)) (ys.map fun (mark, y) => (mark, g y)) := by
  induction h with
  | nil => exact .nil
  | cons hMark h _ ih =>
    rw [← hGuard] at hMark ih
    exact .cons hMark (hItem _ _ h) ih

theorem forall₂_map {S : α' → β' → Prop} (h : List.Forall₂ R xs ys) (hItem : ∀ x y, R x y → S (f x) (g y)) :
    List.Forall₂ S (xs.map f) (ys.map g) :=
  List.forall₂_map_left_iff.2 (List.forall₂_map_right_iff.2 (h.imp hItem))

theorem rel_map {S : α' → β' → Prop} {y : Option β} (h : Option.Rel R x y) (hItem : ∀ x y, R x y → S (f x) (g y)) :
    Option.Rel S (x.map f) (y.map g) := by
  cases h with
  | none => exact .none
  | some h => exact .some (hItem _ _ h)

section

variable {bond : Bond μ ν}

theorem Value.Matches.bare {x : Value μ} {y : Value ν} (h : x.Matches bond y) : x.bare.Matches bond y.bare := by
  cases h with
  | single h => exact .single (congrArg Term.bare h)
  | list h => exact .list (h.map (fun _ => rfl) fun _ _ => congrArg Term.bare)

theorem Attribute.Matches.bare {x : Attribute μ} {y : Attribute ν} (h : x.Matches bond y) :
    x.bare.Matches bond y.bare := by
  unfold Attribute.bare
  rw [← h.name]
  split
  · exact h
  · exact ⟨rfl, h.value.bare⟩

theorem Promise.Matches.bare {x : Promise μ} {y : Promise ν} (h : x.Matches bond y) : x.bare.Matches bond y.bare := by
  exact ⟨h.promiser, rel_map h.promisee fun _ _ h => h.bare, forall₂_map h.attributes fun _ _ h => h.bare⟩

theorem Clause.Matches.bare {x : Clause μ} {y : Clause ν} (h : x.Matches bond y) : x.bare.Matches bond y.bare := by
  cases h with
  | guard h => exact .guard h
  | promise h => exact .promise h.bare

theorem PromiseType.Matches.bare {x : PromiseType μ} {y : PromiseType ν} (h : x.Matches bond y) :
    x.bare.Matches bond y.bare :=
  ⟨h.name, h.clauses.map (fun c => by cases c <;> rfl) fun _ _ h => h.bare⟩

theorem Contents.Matches.bare {x : Contents μ} {y : Contents ν} (h : x.Matches bond y) :
    x.bare.Matches bond y.bare := by
  cases h with
  | bundle h => exact .bundle (forall₂_map h fun _ _ h => h.bare)
  | body h => exact .body h

theorem Document.Matches.bare {d : Document μ} {e : Document ν} (h : d.Matches bond e) : d.bare.Matches bond e.bare :=
  forall₂_map h fun _ _ h => ⟨h.type, h.name, h.parameters, h.contents.bare⟩

end

/-! ### Promise types that go or move -/

theorem forall₂_mergeSort {le : α → α → Bool} {le' : β → β → Bool} (h : List.Forall₂ R xs ys)
    (hOrder : ∀ a b, R a b → ∀ c d, R c d → le a c = le' b d) :
    List.Forall₂ R (xs.mergeSort le) (ys.mergeSort le') := by
  obtain ⟨hLength, hPairs⟩ := List.forall₂_iff_zip.1 h
  -- Both lists are sorted at once, as a list of pairs.
  have hLeft := List.map_mergeSort (r := fun p q => le p.1 q.1) (s := le) (f := Prod.fst) (l := xs.zip ys)
    fun _ _ _ _ => rfl
  have hRight := List.map_mergeSort (r := fun p q => le p.1 q.1) (s := le') (f := Prod.snd) (l := xs.zip ys)
    fun p hp q hq => hOrder _ _ (hPairs hp) _ _ (hPairs hq)
  rw [List.map_fst_zip (Nat.le_of_eq hLength)] at hLeft
  rw [List.map_snd_zip (Nat.le_of_eq hLength.symm)] at hRight
  rw [← hLeft, ← hRight, List.forall₂_map_left_iff, List.forall₂_map_right_iff, List.forall₂_same]
  exact fun p hp => hPairs (List.mem_mergeSort.1 hp)

section

variable {bond : Bond μ ν}

theorem PromiseType.Matches.isEmpty_eq {x : PromiseType μ} {y : PromiseType ν} (h : x.Matches bond y) :
    x.clauses.isEmpty = y.clauses.isEmpty := by
  obtain ⟨-, hClauses⟩ := h
  generalize x.clauses = xs, y.clauses = ys at hClauses ⊢
  cases hClauses <;> rfl

theorem Contents.Matches.tidy {x : Contents μ} {y : Contents ν} (h : x.Matches bond y) (t : Policy.Tidying) :
    (x.tidy t).Matches bond (y.tidy t) := by
  cases h with
  | body h => exact .body h
  | @bundle ps qs h =>
    refine .bundle ?_
    have hKept : List.Forall₂ (PromiseType.Matches bond)
        (if t.removesEmptyPromiseTypes then ps.filter (fun p => !p.clauses.isEmpty) else ps)
        (if t.removesEmptyPromiseTypes then qs.filter (fun p => !p.clauses.isEmpty) else qs) := by
      split
      · exact List.rel_filter (fun p q hpq => by simp only [hpq.isEmpty_eq]) h
      · exact h
    split
    · exact forall₂_mergeSort hKept fun a b hab c d hcd => by rw [hab.name, hcd.name]
    · exact hKept

theorem Document.Matches.tidy {d : Document μ} {e : Document ν} (h : d.Matches bond e) (t : Policy.Tidying) :
    (d.tidy t).Matches bond (e.tidy t) :=
  forall₂_map h fun _ _ h => ⟨h.type, h.name, h.parameters, h.contents.tidy t⟩

end

end PolicyFormat.Abstract
