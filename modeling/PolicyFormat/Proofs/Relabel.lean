import PolicyFormat.Proofs.Tally

/-! Trees whose labels are changed: the traits of the nodes and the comments between elements of lists.
What the words say is left alone, so the tree still says the same. -/
namespace PolicyFormat.Policy

variable {α : Type} {f : α → α} {g : ItemList α}

/-- A change to the traits of all nodes and to all comments between elements. -/
structure Relabel where
  node : Traits → Traits
  comment : Comment → Comment := id

variable (r : Relabel)

/-! ### Relabeled trees -/

/-- A relabeled word. -/
def Leaf.relabel (l : Leaf) : Leaf :=
  { l with traits := r.node l.traits }

section

variable {α : Type} (f : α → α)

def Entry.relabel : Entry α → Entry α
  | .item x => .item (f x)
  | .comment c => .comment (r.comment c)

def ItemList.relabel (g : ItemList α) : ItemList α :=
  { traits := r.node g.traits
    opening := g.opening.map (Leaf.relabel r)
    entries := g.entries.map (Entry.relabel r f)
    closing := g.closing.map (Leaf.relabel r) }

end

mutual

def Element.relabel : Element → Element
  | .leaf word => .leaf (word.relabel r)
  | .call traits name ⟨argTraits, opening, entries, closing⟩ =>
    .call (r.node traits) (name.relabel r)
      ⟨r.node argTraits, opening.map (Leaf.relabel r), Element.relabelEach entries, closing.map (Leaf.relabel r)⟩

/-- Relabeled arguments. -/
def Element.relabelEach : List (Entry Element) → List (Entry Element)
  | [] => []
  | .item value :: rest => .item value.relabel :: Element.relabelEach rest
  | .comment c :: rest => .comment (r.comment c) :: Element.relabelEach rest

end

theorem Element.relabelEach_eq (entries : List (Entry Element)) :
    Element.relabelEach r entries = entries.map (Entry.relabel r (Element.relabel r)) := by
  induction entries with
  | nil => simp [Element.relabelEach]
  | cons entry rest ih => cases entry <;> simp [Element.relabelEach, Entry.relabel, ih]

@[simp] theorem Element.relabel_leaf (word : Leaf) : (Element.leaf word).relabel r = .leaf (word.relabel r) := by
  simp [Element.relabel]

@[simp] theorem Element.relabel_call (traits : Traits) (name : Leaf) (arguments : ItemList Element) :
    (Element.call traits name arguments).relabel r =
      .call (r.node traits) (name.relabel r) (arguments.relabel r (Element.relabel r)) := by
  obtain ⟨_, _, entries, _⟩ := arguments
  simp [Element.relabel, Element.relabelEach_eq, ItemList.relabel]

def Value.relabel : Value → Value
  | .single element => .single (element.relabel r)
  | .list elements => .list (elements.relabel r (Element.relabel r))

def Assignment.relabel (a : Assignment) : Assignment :=
  { traits := r.node a.traits
    name := a.name.relabel r
    arrow := a.arrow.relabel r
    value := a.value.relabel r
    comma := a.comma.map (Leaf.relabel r) }

def Guard.relabel (g : Guard) : Guard :=
  { traits := r.node g.traits, expression := g.expression.relabel r }

def Promise.relabel (p : Promise) : Promise :=
  { traits := r.node p.traits
    promiser := p.promiser.relabel r
    promisee := p.promisee.map (Value.relabel r)
    comma := p.comma.map (Leaf.relabel r)
    constraints := p.constraints.relabel r (Assignment.relabel r)
    semicolon := p.semicolon.relabel r }

def Clause.relabel : Clause → Clause
  | .guard g => .guard (g.relabel r)
  | .promise p => .promise (p.relabel r)

def PromiseType.relabel (p : PromiseType) : PromiseType :=
  { traits := r.node p.traits
    name := p.name.relabel r
    clauses := p.clauses.relabel r (Clause.relabel r) }

def Selection.relabel : Selection → Selection
  | .guard g => .guard (g.relabel r)
  | .assignment a => .assignment (a.relabel r)

def Contents.relabel : Contents → Contents
  | .bundle statements => .bundle (statements.relabel r (PromiseType.relabel r))
  | .body selections => .body (selections.relabel r (Selection.relabel r))

def Block.relabel (b : Block) : Block :=
  { traits := r.node b.traits
    keyword := b.keyword.relabel r
    type := b.type.relabel r
    name := b.name.relabel r
    parameters := b.parameters.relabel r (Leaf.relabel r)
    contents := b.contents.relabel r }

/-- A relabeled policy file. -/
def Specification.relabel (s : Specification) : Specification :=
  ItemList.relabel r (Block.relabel r) s

/-! ### Elements of relabeled lists -/

section

variable {α : Type} {f : α → α}

@[simp] theorem ItemList.items_relabel (g : ItemList α) : (g.relabel r f).items = g.items.map f := by
  simp only [ItemList.items, ItemList.relabel, List.filterMap_map, List.map_filterMap]
  apply List.filterMap_congr
  intro entry _
  cases entry <;> rfl

end

@[simp] theorem Element.traits_relabel (e : Element) : (e.relabel r).traits = r.node e.traits := by
  cases e <;> simp [Element.traits, Leaf.relabel]

@[simp] theorem Value.traits_relabel (v : Value) : (v.relabel r).traits = r.node v.traits := by
  cases v <;> simp [Value.relabel, Value.traits, ItemList.relabel]

@[simp] theorem Clause.traits_relabel (c : Clause) : (c.relabel r).traits = r.node c.traits := by
  cases c <;> rfl

@[simp] theorem Selection.traits_relabel (s : Selection) : (s.relabel r).traits = r.node s.traits := by
  cases s <;> rfl

@[simp] theorem Contents.traits_relabel (c : Contents) : (c.relabel r).traits = r.node c.traits := by
  cases c <;> rfl

/-! ### Trees without the marks of blank lines -/

/-- Takes away the marks of blank lines. -/
def unmark : Relabel where
  node t := { t with afterBlank := false }

@[simp] theorem span_unmark (t : Traits) : (unmark.node t).span = t.span :=
  rfl

theorem ItemList.entries_relabel (node : Traits → Traits) :
    (g.relabel ⟨node, id⟩ f).entries = (g.mapItems f).entries :=
  List.map_congr_left fun entry _ => by cases entry <;> rfl

section

variable {P : Comment → Prop} {F : α → Prop}

theorem ItemList.formed_unmark (hItem : ∀ x ∈ g.items, (F (f x) ↔ F x)) :
    (g.relabel unmark f).Formed P F ↔ g.Formed P F := by
  have hMapped : (g.relabel unmark f).Formed P F ↔ (g.mapItems f).Formed P F := by
    rw [ItemList.formed_iff, ItemList.formed_iff, unmark, ItemList.entries_relabel]
    rfl
  rw [hMapped, ItemList.formed_mapItems, ItemList.formed_iff, ItemList.formed_iff]
  exact and_congr_right fun _ => and_congr_left fun _ => forall₂_congr fun x hx => hItem x (mem_items.2 hx)

theorem ItemList.silentBrackets_unmark : (g.relabel unmark f).SilentBrackets ↔ g.SilentBrackets := by
  simp only [SilentBrackets, ItemList.relabel, Option.forall_mem_map]
  rfl

theorem Element.formed_unmark {keepsBlank : Bool} (e : Element) :
    (e.relabel unmark).Formed P keepsBlank ↔ e.Formed P keepsBlank := by
  induction e using Element.induction generalizing keepsBlank with
  | leaf word =>
    rw [Element.relabel_leaf, Element.formed_leaf, Element.formed_leaf]
    rfl
  | call traits name arguments ih =>
    rw [Element.relabel_call, Element.formed_call, Element.formed_call, ItemList.formed_unmark fun x hx => ih x hx,
      ItemList.silentBrackets_unmark]
    rfl

theorem Value.formed_unmark (v : Value) : (v.relabel unmark).Formed P ↔ v.Formed P := by
  cases v with
  | single element =>
    simp only [Value.relabel, Value.Formed, Element.formed_unmark, Element.traits_relabel]
    rfl
  | list elements =>
    simp only [Value.relabel, Value.Formed, ItemList.listsValues_iff,
      ItemList.formed_unmark fun x _ => Element.formed_unmark x]
    simp only [ItemList.relabel, Option.forall_mem_map]
    rfl

theorem Assignment.formed_unmark (a : Assignment) : (a.relabel unmark).Formed P ↔ a.Formed P := by
  simp only [formed_iff, relabel, Value.formed_unmark, Option.forall_mem_map]
  rfl

theorem Assignment.constrains_unmark (a : Assignment) : (a.relabel unmark).Constrains P ↔ a.Constrains P := by
  rw [constrains_iff, constrains_iff, formed_unmark]
  rfl

theorem Guard.formed_unmark (g : Guard) : (g.relabel unmark).Formed P ↔ g.Formed P := by
  rw [formed_iff, formed_iff]
  rfl

theorem Promise.formed_unmark (p : Promise) : (p.relabel unmark).Formed P ↔ p.Formed P := by
  have hEnds : (p.constraints.relabel unmark (Assignment.relabel unmark)).EndsInItem ↔ p.constraints.EndsInItem := by
    rw [ItemList.EndsInItem, unmark, ItemList.entries_relabel]
    exact ItemList.endsInItem_mapItems
  simp only [formed_iff, relabel, Option.forall_mem_map, Value.formed_unmark, ItemList.silentBrackets_unmark, hEnds,
    ItemList.formed_unmark fun x _ => Assignment.constrains_unmark x]
  rfl

theorem Clause.formed_unmark (c : Clause) : (c.relabel unmark).Formed P ↔ c.Formed P := by
  cases c with
  | guard g => exact g.formed_unmark
  | promise p => exact p.formed_unmark

theorem PromiseType.formed_unmark (p : PromiseType) : (p.relabel unmark).Formed P ↔ p.Formed P := by
  simp only [formed_iff, relabel, ItemList.silentBrackets_unmark,
    ItemList.formed_unmark fun x _ => Clause.formed_unmark x]
  rfl

theorem Selection.formed_unmark (s : Selection) : (s.relabel unmark).Formed P ↔ s.Formed P := by
  cases s with
  | guard g => exact g.formed_unmark
  | assignment a => exact a.formed_unmark

theorem ItemList.braced_unmark (hItem : ∀ x ∈ g.items, (F (f x) ↔ F x)) :
    (g.relabel unmark f).Braced P F ↔ g.Braced P F := by
  have hBrace : ∀ text leaf, BraceFormed P text (leaf.map (Leaf.relabel unmark)) ↔ BraceFormed P text leaf := by
    rintro text (_ | l) <;> simp [BraceFormed, Leaf.relabel, unmark, Traits.Keeps, Traits.Holds]
  rw [braced_iff, braced_iff, formed_unmark hItem]
  exact and_congr_right fun _ => and_congr (hBrace _ _) (hBrace _ _)

theorem Contents.formed_unmark (c : Contents) : (c.relabel unmark).Formed P ↔ c.Formed P := by
  cases c with
  | bundle statements => exact ItemList.braced_unmark fun x _ => x.formed_unmark
  | body selections =>
    simp [Contents.relabel, Contents.Formed, ItemList.braced_unmark fun x _ => Selection.formed_unmark x]

theorem Block.formed_unmark (b : Block) : (b.relabel unmark).Formed P ↔ b.Formed P := by
  have hWord : (b.contents.relabel unmark).word = b.contents.word := by cases b.contents <;> rfl
  simp only [formed_iff, relabel, hWord, ItemList.silentBrackets_unmark, Contents.formed_unmark,
    ItemList.formed_unmark fun (l : Leaf) _ => (Iff.rfl : (l.relabel unmark).IsParameter P ↔ l.IsParameter P)]
  rfl

theorem Specification.formed_unmark (s : Specification) :
    Specification.Formed P (s.relabel unmark) ↔ Specification.Formed P s := by
  rw [formed_iff, formed_iff, relabel, ItemList.formed_unmark fun x _ => Block.formed_unmark x,
    ItemList.silentBrackets_unmark]

end

section

/-- Nodes keep their comments, and comments their lines. -/
structure Relabel.KeepsNotes : Prop where
  node : ∀ t, (r.node t).comments = t.comments := by exact fun _ => rfl
  comment : ∀ c, (r.comment c).lines = c.lines := by exact fun _ => rfl

variable {r} {M : Type} [AddCommMonoid M] (t : Tally M) {weigh : α → M} (hr : r.KeepsNotes)
include hr

theorem ItemList.tally_relabel (hItem : ∀ x ∈ g.items, weigh (f x) = weigh x) :
    (g.relabel r f).tally t weigh = g.tally t weigh := by
  simp only [ItemList.tally, ItemList.relabel, List.map_map]
  refine congrArg List.sum (List.map_congr_left fun entry hEntry => ?_)
  cases entry with
  | item x => exact hItem x (ItemList.mem_items.2 hEntry)
  | comment c => simp [Entry.relabel, Entry.tally, Comment.tally, hr.comment]

theorem ItemList.bracketTally_relabel (hItem : ∀ x ∈ g.items, weigh (f x) = weigh x) :
    (g.relabel r f).bracketTally t weigh = g.bracketTally t weigh := by
  rw [ItemList.bracketTally, ItemList.bracketTally, ItemList.tally_relabel t hr hItem]
  congr 1
  simp only [unclosedTally, ItemList.relabel, List.getLast?_map]
  rcases g.entries.getLast? with _ | _ | _ <;> rfl

theorem Traits.tally_relabel (x : Traits) : (r.node x).tally t = x.tally t := by
  rw [Traits.tally, hr.node, Traits.tally]

theorem Leaf.tally_relabel (l : Leaf) : (l.relabel r).tally t = l.tally t :=
  Traits.tally_relabel t hr l.traits

theorem ItemList.blockTally_relabel (hItem : ∀ x ∈ g.items, weigh (f x) = weigh x) :
    (g.relabel r f).blockTally t weigh = g.blockTally t weigh := by
  have hBrace : ∀ l : Option Leaf, (l.map (Leaf.relabel r)).elim 0 (Leaf.tally t) = l.elim 0 (Leaf.tally t) := by
    rintro (_ | l) <;> simp [Leaf.tally_relabel t hr]
  rw [ItemList.blockTally, ItemList.blockTally, ItemList.tally_relabel t hr hItem]
  simp only [ItemList.relabel, hBrace]

theorem Element.tally_relabel (e : Element) : (e.relabel r).tally t = e.tally t := by
  induction e using Element.induction with
  | leaf word => simp [Element.tally_leaf, Leaf.tally_relabel t hr]
  | call traits name arguments ih =>
    simp [Element.tally_call, ItemList.bracketTally_relabel t hr ih, Traits.tally_relabel t hr]

theorem Value.tally_relabel (v : Value) : (v.relabel r).tally t = v.tally t := by
  cases v with
  | single element => exact element.tally_relabel t hr
  | list elements =>
    simp only [Value.relabel, Value.tally, ItemList.tally_relabel t hr fun x _ => Element.tally_relabel t hr x]
    cases hClosing : elements.closing <;> simp [ItemList.relabel, hClosing, Leaf.relabel, hr.node]

theorem Assignment.tally_relabel (a : Assignment) : (a.relabel r).tally t = a.tally t := by
  simp [Assignment.tally, Assignment.relabel, Traits.tally_relabel t hr, Value.tally_relabel t hr]

theorem Promise.tally_relabel (p : Promise) : (p.relabel r).tally t = p.tally t := by
  simp only [Promise.tally, Promise.relabel, Traits.tally_relabel t hr,
    ItemList.tally_relabel t hr fun x _ => Assignment.tally_relabel t hr x]
  cases p.promisee <;> simp [Value.tally_relabel t hr]

theorem Clause.tally_relabel (c : Clause) : (c.relabel r).tally t = c.tally t := by
  cases c with
  | guard g => exact Traits.tally_relabel t hr g.traits
  | promise p => exact p.tally_relabel t hr

theorem PromiseType.tally_relabel (p : PromiseType) : (p.relabel r).tally t = p.tally t := by
  simp only [PromiseType.tally, PromiseType.relabel, Traits.tally_relabel t hr, Leaf.tally_relabel t hr,
    ItemList.tally_relabel t hr fun x _ => Clause.tally_relabel t hr x]

theorem Selection.tally_relabel (s : Selection) : (s.relabel r).tally t = s.tally t := by
  cases s with
  | guard g => exact Traits.tally_relabel t hr g.traits
  | assignment a => exact a.tally_relabel t hr

theorem Contents.tally_relabel (c : Contents) : (c.relabel r).tally t = c.tally t := by
  cases c with
  | bundle statements => exact ItemList.blockTally_relabel t hr fun x _ => x.tally_relabel t hr
  | body selections => exact ItemList.blockTally_relabel t hr fun x _ => x.tally_relabel t hr

theorem Block.tally_relabel (b : Block) : (b.relabel r).tally t = b.tally t := by
  simp only [Block.tally, Block.relabel, Traits.tally_relabel t hr, Contents.tally_relabel t hr,
    ItemList.bracketTally_relabel t hr fun x _ => Leaf.tally_relabel t hr x]

/-- A policy file adds up to the same if no note is lost. -/
theorem Specification.tally_relabel (s : Specification) : (s.relabel r).tally t = s.tally t :=
  ItemList.tally_relabel t hr fun x _ => Block.tally_relabel t hr x

end

/-! ### What a relabeled tree says -/

theorem Element.term_relabel (e : Element) : (e.relabel r).term = e.term := by
  induction e using Element.induction with
  | leaf word => simp [Leaf.relabel]
  | call traits name arguments ih =>
    simp only [Element.relabel_call, Element.term_call, ItemList.items_relabel, List.map_map]
    exact congrArg _ (List.map_congr_left ih)

section

variable {r} {μ : Type} {v : Abstract.View μ} (hView : ∀ a b, v.next (r.node a) (r.node b) = v.next a b)
include hView

theorem along_relabel {β : Type} {traits : α → Traits} {meaning : α → β}
    (hTraits : ∀ x, traits (f x) = r.node (traits x)) (hMeaning : ∀ x, meaning (f x) = meaning x) (xs : List α) :
    v.along traits meaning (xs.map f) = v.along traits meaning xs := by
  have hAfter : ∀ (xs : List α) previous,
      v.after traits meaning (r.node previous) (xs.map f) = v.after traits meaning previous xs := by
    intro xs
    induction xs with
    | nil => intro previous; rfl
    | cons x xs ih =>
      intro previous
      simp [Abstract.View.after, hTraits, hMeaning, hView, ih]
  cases xs with
  | nil => rfl
  | cons x xs => simp [Abstract.View.along, hTraits, hMeaning, hAfter]

theorem Value.meaning_relabel (x : Value) : (x.relabel r).meaning v = x.meaning v := by
  cases x with
  | single element => simp [Value.relabel, Value.meaning, Element.term_relabel]
  | list elements =>
    simp only [Value.relabel, Value.meaning, ItemList.items_relabel]
    rw [along_relabel hView (Element.traits_relabel r) (Element.term_relabel r)]

theorem Assignment.meaning_relabel (a : Assignment) : (a.relabel r).meaning v = a.meaning v := by
  simp [Assignment.meaning, Assignment.relabel, Leaf.relabel, Value.meaning_relabel hView]

theorem Promise.meaning_relabel (p : Promise) : (p.relabel r).meaning v = p.meaning v := by
  simp [Promise.meaning, Promise.relabel, Leaf.relabel, Function.comp_def, Value.meaning_relabel hView,
    Assignment.meaning_relabel hView]

theorem Clause.meaning_relabel (c : Clause) : (c.relabel r).meaning v = c.meaning v := by
  cases c with
  | guard g => rfl
  | promise p => simp [Clause.relabel, Clause.meaning, Promise.meaning_relabel hView]

theorem PromiseType.meaning_relabel (p : PromiseType) : (p.relabel r).meaning v = p.meaning v := by
  simp only [PromiseType.meaning, PromiseType.relabel, Leaf.relabel, ItemList.items_relabel]
  rw [along_relabel hView (Clause.traits_relabel r) (Clause.meaning_relabel hView)]

theorem Selection.meaning_relabel (s : Selection) : (s.relabel r).meaning v = s.meaning v := by
  cases s with
  | guard g => rfl
  | assignment a => simp [Selection.relabel, Selection.meaning, Assignment.meaning_relabel hView]

theorem Contents.meaning_relabel (c : Contents) : (c.relabel r).meaning v = c.meaning v := by
  cases c with
  | bundle statements =>
    simp [Contents.relabel, Contents.meaning, Function.comp_def, PromiseType.meaning_relabel hView]
  | body selections =>
    simp only [Contents.relabel, Contents.meaning, ItemList.items_relabel]
    rw [along_relabel hView (Selection.traits_relabel r) (Selection.meaning_relabel hView)]

theorem Block.meaning_relabel (b : Block) : (b.relabel r).meaning v = b.meaning v := by
  simp [Block.meaning, Block.relabel, Leaf.relabel, Function.comp_def, Contents.meaning_relabel hView]

/-- A relabeled policy file says the same, as far as the labels do not show. -/
theorem Specification.meaning_relabel (s : Specification) :
    Specification.meaning v (s.relabel r) = Specification.meaning v s := by
  simp [Specification.meaning, Specification.relabel, Function.comp_def, Block.meaning_relabel hView]

end

/-! ### The blank lines of lists -/

/-- Takes away the marks of blank lines and the ranks of nodes. -/
def unranked : Relabel where
  node t := { t with afterBlank := false, yields := none }

theorem ItemList.relabel_mapItems {change : α → α} (h : ∀ x, f (change x) = f x) (g : ItemList α) :
    (g.mapItems change).relabel r f = g.relabel r f := by
  simp only [ItemList.relabel, ItemList.mapItems, List.map_map]
  congr 1
  exact List.map_congr_left fun entry _ => by cases entry <;> simp [Entry.relabel, h]

theorem Value.relabel_plain (v : Value) : v.plain.relabel unranked = v.relabel unranked := by
  have hElement (e : Element) : e.unmarked.relabel unranked = e.relabel unranked := by
    cases e <;> simp [Element.unmarked, Element.withTraits, Leaf.relabel, unranked]
  cases v with
  | single element => rfl
  | list elements => exact congrArg Value.list (ItemList.relabel_mapItems _ hElement elements)

theorem Assignment.relabel_plain (a : Assignment) : a.plain.relabel unranked = a.relabel unranked := by
  simp [Assignment.plain, Assignment.relabel, Value.relabel_plain]

theorem Promise.relabel_plain (p : Promise) : p.plain.relabel unranked = p.relabel unranked := by
  simp [Promise.plain, Promise.relabel, ItemList.relabel_mapItems _ Assignment.relabel_plain, Function.comp_def,
    Value.relabel_plain]

theorem Clause.relabel_plain (c : Clause) : c.plain.relabel unranked = c.relabel unranked := by
  cases c with
  | guard g => rfl
  | promise p => exact congrArg Clause.promise p.relabel_plain

theorem PromiseType.relabel_plain (p : PromiseType) : p.plain.relabel unranked = p.relabel unranked := by
  simp [PromiseType.plain, PromiseType.relabel, ItemList.relabel_mapItems _ Clause.relabel_plain]

theorem Selection.relabel_plain (s : Selection) : s.plain.relabel unranked = s.relabel unranked := by
  cases s with
  | guard g => rfl
  | assignment a => exact congrArg Selection.assignment a.relabel_plain

theorem Block.relabel_plain (b : Block) : b.plain.relabel unranked = b.relabel unranked := by
  obtain ⟨traits, keyword, type, name, parameters, statements | selections⟩ := b
  · simp [Block.plain, Block.relabel, Contents.plain, Contents.relabel,
      ItemList.relabel_mapItems _ PromiseType.relabel_plain]
  · simp [Block.plain, Block.relabel, Contents.plain, Contents.relabel,
      ItemList.relabel_mapItems _ Selection.relabel_plain]

theorem Specification.relabel_plain (s : Specification) : s.plain.relabel unranked = s.relabel unranked :=
  ItemList.relabel_mapItems _ Block.relabel_plain s

/-- Policy files that differ only in the blank lines of lists say the same. -/
theorem Specification.meaning_of_plain {s u : Specification} (hPlain : u.plain = s.plain) :
    u.meaning Abstract.blind = s.meaning Abstract.blind := by
  have hSame := meaning_relabel (r := unranked) (v := Abstract.blind) fun _ _ => rfl
  rw [← hSame u, ← relabel_plain, hPlain, relabel_plain, hSame]

/-- A policy file adds up to the same if it differs only in the blank lines of lists. -/
theorem Specification.tally_of_plain {M : Type} [AddCommMonoid M] (t : Tally M) {s u : Specification}
    (hPlain : u.plain = s.plain) : u.tally t = s.tally t := by
  have hSame : ∀ s : Specification, (s.relabel unranked).tally t = s.tally t := tally_relabel t {}
  rw [← hSame u, ← relabel_plain, hPlain, relabel_plain, hSame]

end PolicyFormat.Policy
