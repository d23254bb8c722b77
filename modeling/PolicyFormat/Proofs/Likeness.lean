import PolicyFormat.Proofs.Formed
import PolicyFormat.Proofs.TreeInk

/-! Trees that a layout cannot tell apart: they say the same, up to the brackets that no calls need, and
have the same blank lines. The blank lines of a list that was put on one line do not count, and neither
do those before what comes first. -/
namespace PolicyFormat.Policy

open Layout

/-- No comment at all. -/
abbrev Comment.Never (_ : Comment) : Prop :=
  False

/-- Whether a blank line is kept before the node, where its surroundings may decide that. -/
def Traits.kept (t : Traits) (keeps : Option Bool) : Bool :=
  t.afterBlank && keeps.getD t.keepsBlank

/-- The entries of two lists without comments are alike one by one. -/
inductive EntriesAlike {α : Type} (keepsBlank : Bool → Option Bool)
    (alike : Option Bool → α → α → Prop) : (isFirst : Bool) → List (Entry α) → List (Entry α) → Prop where
  | nil {isFirst : Bool} : EntriesAlike keepsBlank alike isFirst [] []
  | cons {isFirst : Bool} {x y : α} {xs ys : List (Entry α)} (h : alike (keepsBlank isFirst) x y)
      (hRest : EntriesAlike keepsBlank alike false xs ys) :
      EntriesAlike keepsBlank alike isFirst (.item x :: xs) (.item y :: ys)

/-! ### Values -/

/-- The elements say the same. -/
def Element.Says (braceless : Bool) (e d : Element) : Prop :=
  e.term.bareIf braceless = d.term.bareIf braceless

/-- The elements of lists say the same, and have the same blank line if the first starts a line. -/
def Element.Alike (braceless : Bool) (keeps : Option Bool) (e d : Element) : Prop :=
  e.Says braceless d ∧ (e.traits.yields = none → e.traits.kept keeps = d.traits.kept keeps)

inductive Value.Alike (braceless : Bool) : Value → Value → Prop where
  | single {e d : Element} (h : e.Says braceless d) : Alike braceless (.single e) (.single d)
  | list {g l : ItemList Element}
      (h : EntriesAlike bracedInk.keepsBlank (Element.Alike braceless) true g.entries l.entries) :
      Alike braceless (.list g) (.list l)

/-- The attributes are alike, apart from the blank lines before them. -/
structure Assignment.BodyAlike (braceless : Bool) (a b : Assignment) : Prop where
  name : a.name.text = b.name.text
  value : a.value.Alike (braceless && !functionAttributes.contains a.name.text) b.value

structure Assignment.Alike (braceless : Bool) (keeps : Option Bool) (a b : Assignment) : Prop
    extends a.BodyAlike braceless b where
  kept : a.traits.kept keeps = b.traits.kept keeps

/-! ### Promises -/

structure Promise.Alike (keeps : Option Bool) (p q : Promise) : Prop where
  kept : p.traits.kept keeps = q.traits.kept keeps
  promiser : p.promiser.text = q.promiser.text
  promisee : Option.Rel (Value.Alike true) p.promisee q.promisee
  constraints : EntriesAlike constraintsInk.keepsBlank (Assignment.Alike true) true
    p.constraints.entries q.constraints.entries

structure Guard.Alike (keeps : Option Bool) (g h : Guard) : Prop where
  kept : g.traits.kept keeps = h.traits.kept keeps
  expression : g.expression.text = h.expression.text

inductive Clause.Alike (keeps : Option Bool) : Clause → Clause → Prop where
  | guard {g l : Guard} (h : g.Alike keeps l) : Alike keeps (.guard g) (.guard l)
  | promise {p q : Promise} (h : p.Alike keeps q) : Alike keeps (.promise p) (.promise q)

structure PromiseType.Alike (p q : PromiseType) : Prop where
  name : p.name.text = q.name.text
  clauses : EntriesAlike clausesInk.keepsBlank Clause.Alike true p.clauses.entries q.clauses.entries

/-! ### Blocks -/

inductive Selection.Alike (keeps : Option Bool) : Selection → Selection → Prop where
  | guard {g l : Guard} (h : g.Alike keeps l) : Alike keeps (.guard g) (.guard l)
  | assignment {a b : Assignment} (h : a.Alike false keeps b) : Alike keeps (.assignment a) (.assignment b)

inductive Contents.Alike : Contents → Contents → Prop where
  | bundle {g l : ItemList PromiseType}
      (h : EntriesAlike spacedInk.keepsBlank (fun _ => PromiseType.Alike) true g.entries l.entries) :
      Alike (.bundle g) (.bundle l)
  | body {g l : ItemList Selection}
      (h : EntriesAlike selectionsInk.keepsBlank Selection.Alike true g.entries l.entries) :
      Alike (.body g) (.body l)

structure Block.Alike (b c : Block) : Prop where
  type : b.type.text = c.type.text
  name : b.name.text = c.name.text
  parameters : b.parameters.items.map Leaf.text = c.parameters.items.map Leaf.text
  contents : b.contents.Alike c.contents

/-- The policy files are alike. -/
def Specification.Alike (s t : Specification) : Prop :=
  EntriesAlike spacedInk.keepsBlank (fun _ => Block.Alike) true s.entries t.entries

/-! ### Lists without their blank lines -/

theorem ItemList.mayBreak_unmarked (g : ItemList Element) : (g.mapItems Element.unmarked).mayBreak = g.mayBreak := by
  simp only [ItemList.mayBreak, ItemList.mapItems, List.length_map, List.any_map]
  congr 2
  funext entry
  cases entry with
  | item e => cases e <;> rfl
  | comment c => rfl

end PolicyFormat.Policy
