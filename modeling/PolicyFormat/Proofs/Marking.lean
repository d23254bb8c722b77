import PolicyFormat.Policy.BlankLine
import PolicyFormat.Proofs.Relabel

/-! Marking blank lines changes nothing in a tree but the marks. -/
namespace PolicyFormat.Policy

/-! ### Walks in step -/

theorem Element.visitEach_eq {σ : Type} (f : Bool → Traits → StateM σ Traits) (entries : List (Entry Element)) :
    Element.visitEach f entries = ItemList.visitParts.visitEntries (Element.visit f) entries := by
  induction entries with
  | nil => simp [Element.visitEach, ItemList.visitParts.visitEntries]
  | cons entry rest ih => cases entry <;> simp [Element.visitEach, ItemList.visitParts.visitEntries, ih]

theorem Element.visit_call {σ : Type} (f : Bool → Traits → StateM σ Traits) (traits : Traits) (name : Leaf)
    (arguments : ItemList Element) :
    Element.visit f (.call traits name arguments) = (do
      let traits ← f true traits
      let name ← name.visit f
      let arguments ← arguments.visit f (Element.visit f)
      return .call traits name arguments) := by
  obtain ⟨argTraits, opening, entries, closing⟩ := arguments
  simp only [Element.visit, Element.visitEach_eq, ItemList.visit, ItemList.visitParts, bind_assoc, pure_bind]

/-- Walks through a promisee that may be missing. -/
def visitPromisee {σ : Type} (f : Bool → Traits → StateM σ Traits) : Option Value → StateM σ (Option Value)
  | some value => do return some (← value.visit f)
  | none => return none

theorem Promise.visit_eq {σ : Type} (f : Bool → Traits → StateM σ Traits) (p : Promise) : p.visit f = (do
      let traits ← f true p.traits
      let promiser ← p.promiser.visit f
      let promisee ← visitPromisee f p.promisee
      let comma ← visitOptional f p.comma
      let constraints ← p.constraints.visit f (Assignment.visit f)
      let semicolon ← p.semicolon.visit f
      return { traits, promiser, promisee, comma, constraints, semicolon }) := by
  obtain ⟨traits, promiser, promisee, comma, constraints, semicolon⟩ := p
  cases promisee <;> rfl

/-- Two computations go in step: states that belong together lead to such states, and the second result is
the first one changed. -/
def InStep {σ τ α β : Type} (R : σ → τ → Prop) (change : α → β) (x : StateM σ α) (y : StateM τ β) : Prop :=
  ∀ s t, R s t → (y.run t).1 = change (x.run s).1 ∧ R (x.run s).2 (y.run t).2

section

variable {σ τ : Type} {R : σ → τ → Prop}

theorem run_bind {α β : Type} (x : StateM σ α) (k : α → StateM σ β) (state : σ) :
    (x >>= k).run state = (k (x.run state).1).run (x.run state).2 := rfl

theorem InStep.pure {α β : Type} (change : α → β) (a : α) :
    InStep R change (Pure.pure a : StateM σ α) (Pure.pure (change a) : StateM τ β) :=
  fun _ _ h => ⟨rfl, h⟩

theorem InStep.bind {α β γ δ : Type} {change : α → β} {after : γ → δ} {x : StateM σ α} {y : StateM τ β}
    {k : α → StateM σ γ} {l : β → StateM τ δ} (h : InStep R change x y)
    (hNext : ∀ a, InStep R after (k a) (l (change a))) : InStep R after (x >>= k) (y >>= l) := by
  intro s t hStates
  obtain ⟨hValue, hAfter⟩ := h s t hStates
  rw [run_bind, run_bind, hValue]
  exact hNext _ _ _ hAfter

variable {r : Relabel} {f : Bool → Traits → StateM σ Traits} {g : Bool → Traits → StateM τ Traits}
  (hVisit : ∀ takesBlank t, InStep R r.node (f takesBlank t) (g takesBlank (r.node t)))
include hVisit

theorem Leaf.visit_inStep (l : Leaf) : InStep R (Leaf.relabel r) (l.visit f) ((l.relabel r).visit g) :=
  (hVisit true l.traits).bind fun _ => .pure _ _

theorem visitOptional_inStep (l : Option Leaf) : InStep R (Option.map (Leaf.relabel r)) (visitOptional f l)
      (visitOptional g (l.map (Leaf.relabel r))) := by
  cases l with
  | none => exact .pure _ _
  | some l => exact (Leaf.visit_inStep hVisit l).bind fun _ => .pure (Option.map (Leaf.relabel r)) (some _)

section

variable {α : Type} {change : α → α} {visit : α → StateM σ α} {again : α → StateM τ α}

omit hVisit in
theorem ItemList.visitEntries_inStep (entries : List (Entry α))
    (hItem : ∀ x, .item x ∈ entries → InStep R change (visit x) (again (change x))) :
    InStep R (List.map (Entry.relabel r change)) (ItemList.visitParts.visitEntries visit entries)
      (ItemList.visitParts.visitEntries again (entries.map (Entry.relabel r change))) := by
  induction entries with
  | nil => exact .pure _ _
  | cons entry rest ih =>
    have hRest := ih fun x hx => hItem x (List.mem_cons_of_mem _ hx)
    cases entry with
    | item x =>
      exact (hItem x List.mem_cons_self).bind fun _ => hRest.bind fun _ =>
        .pure (List.map (Entry.relabel r change)) (.item _ :: _)
    | comment c => exact hRest.bind fun _ => .pure (List.map (Entry.relabel r change)) (.comment _ :: _)

theorem ItemList.visitParts_inStep (g' : ItemList α) (traits : Traits)
    (hItem : ∀ x ∈ g'.items, InStep R change (visit x) (again (change x))) :
    InStep R (ItemList.relabel r change) (ItemList.visitParts f visit { g' with traits })
      (ItemList.visitParts g again { g'.relabel r change with traits := r.node traits }) := by
  refine (visitOptional_inStep hVisit g'.opening).bind fun _ => ?_
  refine (ItemList.visitEntries_inStep g'.entries fun x hx => hItem x (ItemList.mem_items.2 hx)).bind fun _ => ?_
  exact (visitOptional_inStep hVisit g'.closing).bind fun _ => .pure (ItemList.relabel r change) ⟨_, _, _, _⟩

theorem ItemList.visit_inStep (g' : ItemList α) (takesBlank : Bool)
    (hItem : ∀ x ∈ g'.items, InStep R change (visit x) (again (change x))) :
    InStep R (ItemList.relabel r change) (g'.visit f visit takesBlank)
      ((g'.relabel r change).visit g again takesBlank) :=
  (hVisit takesBlank g'.traits).bind fun traits => ItemList.visitParts_inStep hVisit g' traits hItem

end

theorem Element.visit_inStep (e : Element) : InStep R (Element.relabel r) (e.visit f) ((e.relabel r).visit g) := by
  induction e using Element.induction with
  | leaf word =>
    simp only [Element.relabel_leaf, Element.visit]
    refine (Leaf.visit_inStep hVisit word).bind fun word => ?_
    simpa only [Element.relabel_leaf] using InStep.pure (Element.relabel r) (.leaf word)
  | call traits name arguments ih =>
    simp only [Element.relabel_call, Element.visit_call]
    refine (hVisit true traits).bind fun traits => ?_
    refine (Leaf.visit_inStep hVisit name).bind fun name => ?_
    refine (ItemList.visit_inStep hVisit arguments true ih).bind fun arguments => ?_
    simpa only [Element.relabel_call] using InStep.pure (Element.relabel r) (.call traits name arguments)

theorem Value.visit_inStep (v : Value) : InStep R (Value.relabel r) (v.visit f) ((v.relabel r).visit g) := by
  cases v with
  | single element => exact (Element.visit_inStep hVisit element).bind fun _ => .pure (Value.relabel r) (.single _)
  | list elements =>
    exact (ItemList.visit_inStep hVisit elements true fun x _ => Element.visit_inStep hVisit x).bind
      fun _ => .pure (Value.relabel r) (.list _)

theorem Assignment.visit_inStep (a : Assignment) :
    InStep R (Assignment.relabel r) (a.visit f) ((a.relabel r).visit g) := by
  refine (hVisit true a.traits).bind fun traits => ?_
  refine (Leaf.visit_inStep hVisit a.name).bind fun name => ?_
  refine (Leaf.visit_inStep hVisit a.arrow).bind fun arrow => ?_
  refine (Value.visit_inStep hVisit a.value).bind fun value => ?_
  exact (visitOptional_inStep hVisit a.comma).bind fun comma =>
    .pure (Assignment.relabel r) ⟨traits, name, arrow, value, comma⟩

theorem Guard.visit_inStep (x : Guard) : InStep R (Guard.relabel r) (x.visit f) ((x.relabel r).visit g) := by
  refine (hVisit true x.traits).bind fun traits => ?_
  exact (Leaf.visit_inStep hVisit x.expression).bind fun expression => .pure (Guard.relabel r) ⟨traits, expression⟩

theorem visitPromisee_inStep (v : Option Value) : InStep R (Option.map (Value.relabel r)) (visitPromisee f v)
      (visitPromisee g (v.map (Value.relabel r))) := by
  cases v with
  | none => exact .pure _ _
  | some v => exact (Value.visit_inStep hVisit v).bind fun _ => .pure (Option.map (Value.relabel r)) (some _)

theorem Promise.visit_inStep (x : Promise) : InStep R (Promise.relabel r) (x.visit f) ((x.relabel r).visit g) := by
  rw [Promise.visit_eq, Promise.visit_eq]
  refine (hVisit true x.traits).bind fun traits => ?_
  refine (Leaf.visit_inStep hVisit x.promiser).bind fun promiser => ?_
  refine (visitPromisee_inStep hVisit x.promisee).bind fun promisee => ?_
  refine (visitOptional_inStep hVisit x.comma).bind fun comma => ?_
  refine (ItemList.visit_inStep hVisit x.constraints true fun x _ => Assignment.visit_inStep hVisit x).bind
    fun constraints => ?_
  exact (Leaf.visit_inStep hVisit x.semicolon).bind fun semicolon =>
    .pure (Promise.relabel r) ⟨traits, promiser, promisee, comma, constraints, semicolon⟩

theorem Clause.visit_inStep (c : Clause) : InStep R (Clause.relabel r) (c.visit f) ((c.relabel r).visit g) := by
  cases c with
  | guard x => exact (Guard.visit_inStep hVisit x).bind fun _ => .pure (Clause.relabel r) (.guard _)
  | promise x => exact (Promise.visit_inStep hVisit x).bind fun _ => .pure (Clause.relabel r) (.promise _)

theorem PromiseType.visit_inStep (x : PromiseType) :
    InStep R (PromiseType.relabel r) (x.visit f) ((x.relabel r).visit g) := by
  refine (hVisit true x.traits).bind fun traits => ?_
  refine (Leaf.visit_inStep hVisit x.name).bind fun name => ?_
  exact (ItemList.visit_inStep hVisit x.clauses false fun c _ => Clause.visit_inStep hVisit c).bind
    fun clauses => .pure (PromiseType.relabel r) ⟨traits, name, clauses⟩

theorem Selection.visit_inStep (s : Selection) :
    InStep R (Selection.relabel r) (s.visit f) ((s.relabel r).visit g) := by
  cases s with
  | guard x => exact (Guard.visit_inStep hVisit x).bind fun _ => .pure (Selection.relabel r) (.guard _)
  | assignment a =>
    exact (Assignment.visit_inStep hVisit a).bind fun _ => .pure (Selection.relabel r) (.assignment _)

theorem Contents.visit_inStep (c : Contents) : InStep R (Contents.relabel r) (c.visit f) ((c.relabel r).visit g) := by
  cases c with
  | bundle statements =>
    exact (ItemList.visit_inStep hVisit statements true fun x _ => PromiseType.visit_inStep hVisit x).bind
      fun _ => .pure (Contents.relabel r) (.bundle _)
  | body selections =>
    exact (ItemList.visit_inStep hVisit selections true fun x _ => Selection.visit_inStep hVisit x).bind
      fun _ => .pure (Contents.relabel r) (.body _)

theorem Block.visit_inStep (b : Block) : InStep R (Block.relabel r) (b.visit f) ((b.relabel r).visit g) := by
  refine (hVisit true b.traits).bind fun traits => ?_
  refine (Leaf.visit_inStep hVisit b.keyword).bind fun keyword => ?_
  refine (Leaf.visit_inStep hVisit b.type).bind fun type => ?_
  refine (Leaf.visit_inStep hVisit b.name).bind fun name => ?_
  refine (ItemList.visit_inStep hVisit b.parameters true fun l _ => Leaf.visit_inStep hVisit l).bind
    fun parameters => ?_
  exact (Contents.visit_inStep hVisit b.contents).bind fun contents =>
    .pure (Block.relabel r) ⟨traits, keyword, type, name, parameters, contents⟩

/-- Walks through a file and through the relabeled file go in step. Where the file itself is said to be does
not matter. -/
theorem Specification.visit_inStep (s : Specification) (other : Traits) :
    InStep R (fun s : Specification => { s.relabel r with traits := other }) (s.visit f)
      (Specification.visit g { s.relabel r with traits := other }) := by
  refine (visitOptional_inStep hVisit s.opening).bind fun opening => ?_
  refine (ItemList.visitEntries_inStep s.entries fun x _ => Block.visit_inStep hVisit x).bind fun entries => ?_
  exact (visitOptional_inStep hVisit s.closing).bind fun closing =>
    .pure (fun s : Specification => { s.relabel r with traits := other }) ⟨s.traits, opening, entries, closing⟩

end

/-! ### Walks that change nothing -/

section

variable {σ : Type}

/-- Leaves a node as it is. -/
def leave (_ : Bool) (t : Traits) : StateM σ Traits :=
  pure t

@[simp] theorem Leaf.visit_leave (l : Leaf) : l.visit leave = (pure l : StateM σ Leaf) := rfl

@[simp] theorem visitOptional_leave (l : Option Leaf) : visitOptional leave l = (pure l : StateM σ _) := by
  cases l <;> rfl

@[simp] theorem ItemList.visitParts_leave {α : Type} {visit : α → StateM σ α} (g : ItemList α)
    (h : ∀ x ∈ g.items, visit x = pure x) : g.visitParts leave visit = pure g := by
  have hEntries : ∀ entries : List (Entry α), (∀ x, .item x ∈ entries → visit x = pure x) →
      ItemList.visitParts.visitEntries visit entries = pure entries := by
    intro entries hEach
    induction entries with
    | nil => rfl
    | cons entry rest ih =>
      have hRest := ih fun x hx => hEach x (List.mem_cons_of_mem _ hx)
      cases entry with
      | item x => rw [visitParts.visitEntries, hRest, hEach x List.mem_cons_self]; rfl
      | comment c => rw [visitParts.visitEntries, hRest]; rfl
  simp [visitParts, hEntries g.entries fun x hx => h x (mem_items.2 hx)]

theorem ItemList.visit_leave {α : Type} {visit : α → StateM σ α} (g : ItemList α) (takesBlank : Bool)
    (h : ∀ x ∈ g.items, visit x = pure x) : g.visit leave visit takesBlank = pure g :=
  visitParts_leave g h

@[simp] theorem Element.visit_leave (e : Element) : e.visit leave = (pure e : StateM σ _) := by
  induction e using Element.induction with
  | leaf word => rfl
  | call traits name arguments ih => rw [visit_call, ItemList.visit_leave _ _ ih]; rfl

@[simp] theorem Value.visit_leave (v : Value) : v.visit leave = (pure v : StateM σ _) := by
  cases v <;> simp [Value.visit, ItemList.visit_leave]

@[simp] theorem Assignment.visit_leave (a : Assignment) : a.visit leave = (pure a : StateM σ _) := by
  simp [Assignment.visit, leave]

@[simp] theorem Guard.visit_leave (g : Guard) : g.visit leave = (pure g : StateM σ _) := rfl

@[simp] theorem Promise.visit_leave (p : Promise) : p.visit leave = (pure p : StateM σ _) := by
  obtain ⟨_, _, _ | _, _, _, _⟩ := p <;> simp [Promise.visit, leave, ItemList.visit_leave]

@[simp] theorem Clause.visit_leave (c : Clause) : c.visit leave = (pure c : StateM σ _) := by
  cases c <;> simp [Clause.visit]

@[simp] theorem PromiseType.visit_leave (p : PromiseType) : p.visit leave = (pure p : StateM σ _) := by
  simp [PromiseType.visit, leave, ItemList.visit_leave]

@[simp] theorem Selection.visit_leave (s : Selection) : s.visit leave = (pure s : StateM σ _) := by
  cases s <;> simp [Selection.visit]

@[simp] theorem Contents.visit_leave (c : Contents) : c.visit leave = (pure c : StateM σ _) := by
  cases c <;> simp [Contents.visit, ItemList.visit_leave]

@[simp] theorem Block.visit_leave (b : Block) : b.visit leave = (pure b : StateM σ _) := by
  have hParameters := ItemList.visit_leave b.parameters true fun l _ => Leaf.visit_leave (σ := σ) l
  simp [Block.visit, leave, hParameters]

theorem Specification.visit_leave (s : Specification) : s.visit leave = (pure s : StateM σ _) :=
  ItemList.visitParts_leave s fun b _ => Block.visit_leave b

end
/-! ### The marks of blank lines -/

/-- Notes the line on which a node starts. -/
def noteLine (takesBlank : Bool) (t : Traits) : StateM (List Int) Traits := do
  if takesBlank then modify (t.startLineWithComment :: ·)
  return t

/-- Gives a node the next mark. -/
def takeMark (takesBlank : Bool) (t : Traits) : StateM (List Bool) Traits := do
  if takesBlank then
    let marks ← get
    set marks.tail
    return if marks.head?.getD false then { t with afterBlank := true } else t
  else return t

theorem Specification.startLines_eq (s : Specification) : s.startLines = ((s.visit noteLine).run []).2.reverse :=
  rfl

theorem Specification.markBlankLines_eq (isEmpty : Int → Bool) (s : Specification) :
    s.markBlankLines isEmpty = ((s.visit takeMark).run (markAfterBlank isEmpty s.startLines)).1 :=
  rfl

theorem Specification.relabel_markBlankLines (isEmpty : Int → Bool) (s : Specification) :
    (s.markBlankLines isEmpty).relabel unmark = s.relabel unmark := by
  have hMark : ∀ takesBlank t, InStep (fun _ _ => True) unmark.node (takeMark takesBlank t)
      (leave takesBlank (unmark.node t) : StateM Unit Traits) := by
    intro takesBlank t marks _ _
    obtain _ | _ := takesBlank
    · exact ⟨rfl, trivial⟩
    · obtain _ | ⟨_ | _, _⟩ := marks <;> exact ⟨rfl, trivial⟩
  have hStep := ItemList.visitParts_inStep hMark s s.traits fun b _ => Block.visit_inStep hMark b
  have hSame := (hStep (markAfterBlank isEmpty s.startLines) () trivial).1
  exact hSame.symm.trans (congrArg (fun x => (x.run ()).1) (visit_leave (s.relabel unmark)))

section

variable (isEmpty : Int → Bool) (s : Specification)

theorem Specification.formed_markBlankLines {P : Comment → Prop} :
    Specification.Formed P (s.markBlankLines isEmpty) ↔ Specification.Formed P s := by
  rw [← formed_unmark, relabel_markBlankLines, formed_unmark]

theorem Specification.tally_markBlankLines {M : Type} [AddCommMonoid M] (t : Tally M) :
    (s.markBlankLines isEmpty).tally t = s.tally t := by
  have hUnmark : ∀ s : Specification, (s.relabel unmark).tally t = s.tally t := tally_relabel t {}
  rw [← hUnmark, relabel_markBlankLines, hUnmark]

theorem Specification.meaning_markBlankLines {μ : Type} {v : Abstract.View μ}
    (hView : ∀ a b, v.next (unmark.node a) (unmark.node b) = v.next a b) :
    (s.markBlankLines isEmpty).meaning v = s.meaning v := by
  rw [← meaning_relabel hView, relabel_markBlankLines, meaning_relabel hView]

end

end PolicyFormat.Policy
