import PolicyFormat.Layout.Policy
import PolicyFormat.Policy.Evaluation
import PolicyFormat.Policy.Placement

/-! What a policy file says, without places and commas. The entries of lists in braces, of promise
types and of bodies carry marks, by which blank lines between them are told; with marks of one
value only the text counts. -/
namespace PolicyFormat.Abstract

/-- A word, or a call with its arguments. -/
inductive Term where
  | word (text : String)
  | call (name : String) (arguments : List Term)
deriving Inhabited

mutual

/-- Whether two terms are the same. -/
def Term.decEq : (a b : Term) → Decidable (a = b)
  | .word s, .word t => decidable_of_iff (s = t) (by simp)
  | .call name arguments, .call other others =>
    have : Decidable (arguments = others) := Term.decEqEach arguments others
    decidable_of_iff (name = other ∧ arguments = others) (by simp)
  | .word _, .call _ _ => .isFalse (by simp)
  | .call _ _, .word _ => .isFalse (by simp)

/-- Whether the terms of two lists are the same. -/
def Term.decEqEach : (as bs : List Term) → Decidable (as = bs)
  | [], [] => .isTrue rfl
  | a :: as, b :: bs =>
    have : Decidable (a = b) := Term.decEq a b
    have : Decidable (as = bs) := Term.decEqEach as bs
    decidable_of_iff (a = b ∧ as = bs) (by simp)
  | [], _ :: _ => .isFalse (by simp)
  | _ :: _, [] => .isFalse (by simp)

end

instance : DecidableEq Term :=
  Term.decEq

variable (μ : Type)

/-- What is assigned. -/
inductive Value where
  | single (term : Term)
  | list (terms : List (μ × Term))
deriving DecidableEq

/-- An attribute and its value. -/
structure Attribute where
  name : String
  value : Value μ
deriving DecidableEq

/-- A promise. -/
structure Promise where
  promiser : String
  promisee : Option (Value μ)
  attributes : List (Attribute μ)
deriving DecidableEq

/-- What stands under a promise type. -/
inductive Clause where
  | guard (expression : String)
  | promise (value : Promise μ)
deriving DecidableEq

/-- The promises of one type. -/
structure PromiseType where
  name : String
  clauses : List (μ × Clause μ)
deriving DecidableEq

/-- What stands in a body. -/
inductive Selection where
  | guard (expression : String)
  | assignment (value : Attribute μ)
deriving DecidableEq

/-- The part of a block between its braces. -/
inductive Contents where
  | bundle (promiseTypes : List (PromiseType μ))
  | body (selections : List (μ × Selection μ))
deriving DecidableEq

/-- A bundle or a body. A block without parameters is one with an empty list of them. -/
structure Block where
  type : String
  name : String
  parameters : List String
  contents : Contents μ
deriving DecidableEq

/-- A policy file. -/
abbrev Document := List (Block μ)

variable {μ}

/-! ### The policy that is laid out -/

namespace Term

mutual

/-- Calls without arguments become plain words. -/
def bare : Term → Term
  | word text => word text
  | call name arguments =>
    if arguments.isEmpty then word name else call name (bareEach arguments)

/-- Calls without arguments become plain words in each term. -/
def bareEach : List Term → List Term
  | [] => []
  | t :: rest => t.bare :: bareEach rest

end

/-- What holds of words, and of a call if it holds of its arguments, holds of every term. -/
@[elab_as_elim]
theorem induction {P : Term → Prop} (word : ∀ text, P (.word text))
    (call : ∀ name arguments, (∀ t ∈ arguments, P t) → P (.call name arguments)) (t : Term) :
    P t := by
  refine @Term.rec P (fun ts => ∀ t ∈ ts, P t) word call ?_ ?_ t
  · simp
  · intro t ts ht hts
    simpa using ⟨ht, hts⟩

theorem bareEach_eq (terms : List Term) : bareEach terms = terms.map bare := by
  induction terms with
  | nil => rfl
  | cons t terms ih => simp [bareEach, ih]

/-- Calls without arguments become plain words if it is asked for. -/
def bareIf (braceless : Bool) (t : Term) : Term :=
  if braceless then t.bare else t

theorem bareIf_word (braceless : Bool) (text : String) : (Term.word text).bareIf braceless = .word text := by
  cases braceless <;> simp [bareIf, bare]

theorem bareIf_call {braceless : Bool} {name : String} {arguments : List Term}
    (h : braceless = false ∨ arguments ≠ []) :
    (Term.call name arguments).bareIf braceless = .call name (arguments.map (Term.bareIf braceless)) := by
  cases braceless with
  | false =>
    have hSame : Term.bareIf false = id := rfl
    simp [hSame]
  | true =>
    have hBare : Term.bareIf true = Term.bare := rfl
    have hNonempty : arguments.isEmpty = false := by simpa using h
    simp [hBare, bare, hNonempty, bareEach_eq]

end Term

/-- Calls without arguments become plain words. -/
def Value.bare : Value μ → Value μ
  | single term => single term.bare
  | list terms => list (terms.map (fun (mark, term) => (mark, term.bare)))

def Attribute.bare (a : Attribute μ) : Attribute μ :=
  if Layout.functionAttributes.contains a.name then a else { a with value := a.value.bare }

def Promise.bare (p : Promise μ) : Promise μ :=
  { p with
    promisee := p.promisee.map Value.bare
    attributes := p.attributes.map Attribute.bare }

def Clause.bare : Clause μ → Clause μ
  | guard expression => guard expression
  | promise value => promise value.bare

def PromiseType.bare (p : PromiseType μ) : PromiseType μ :=
  { p with clauses := p.clauses.map (fun (mark, clause) => (mark, clause.bare)) }

/-- Calls without arguments become plain words where they cannot be calls of functions. In a body
all of them can. -/
def Contents.bare : Contents μ → Contents μ
  | bundle promiseTypes => bundle (promiseTypes.map PromiseType.bare)
  | body selections => body selections

/-- Promise types without promises go and the others are sorted into the order of evaluation, each
as far as it is asked for. -/
def Contents.tidy (t : Policy.Tidying) : Contents μ → Contents μ
  | bundle promiseTypes =>
    let kept :=
      if t.removesEmptyPromiseTypes then promiseTypes.filter (fun p => !p.clauses.isEmpty)
      else promiseTypes
    bundle (if t.sortsPromiseTypes then
        kept.mergeSort (fun a b => Policy.evaluationRank a.name ≤ Policy.evaluationRank b.name)
      else kept)
  | body selections => body selections

namespace Document

/-- Calls without arguments become plain words where they cannot be calls of functions. -/
def bare (p : Document μ) : Document μ :=
  p.map (fun b => { b with contents := b.contents.bare })

/-- Promise types are removed and sorted as far as it is asked for. -/
def tidy (t : Policy.Tidying) (p : Document μ) : Document μ :=
  p.map (fun b => { b with contents := b.contents.tidy t })

/-- What is left of a policy when it is laid out. -/
def normal (t : Policy.Tidying) (p : Document μ) : Document μ :=
  (p.tidy t).bare

end Document

/-! ### The meaning of a tree -/

/-- How the entries of a list are marked: the first one, and each other one by what is known of the
one before it and of itself. -/
structure View (μ : Type) where
  first : μ
  next : Policy.Traits → Policy.Traits → μ

namespace View

variable {α β : Type} (v : View μ) (traits : α → Policy.Traits) (f : α → β)

/-- Marks the entries that follow one. -/
def after (previous : Policy.Traits) : List α → List (μ × β)
  | [] => []
  | x :: rest => (v.next previous (traits x), f x) :: after (traits x) rest

/-- Marks the entries of a list. -/
def along : List α → List (μ × β)
  | [] => []
  | x :: rest => (v.first, f x) :: v.after traits f (traits x) rest

theorem after_map {γ : Type} (g : γ → α) (previous : Policy.Traits) (xs : List γ) :
    v.after traits f previous (xs.map g) = v.after (fun x => traits (g x)) (fun x => f (g x)) previous xs := by
  induction xs generalizing previous with
  | nil => rfl
  | cons x xs ih => simp [after, ih]

theorem along_map {γ : Type} (g : γ → α) (xs : List γ) :
    v.along traits f (xs.map g) = v.along (fun x => traits (g x)) (fun x => f (g x)) xs := by
  cases xs with
  | nil => rfl
  | cons x xs => simp [along, after_map]

theorem along_ne_nil {xs : List α} (h : xs ≠ []) : v.along traits f xs ≠ [] := by
  obtain ⟨x, rest, rfl⟩ := List.exists_cons_of_ne_nil h
  simp [along]

end View

/-- All entries are marked alike. -/
def blind : View Unit where
  first := ()
  next _ _ := ()

/-- Entries without marks. -/
def unmarked {α : Type} (xs : List α) : List (Unit × α) :=
  xs.map (fun x => ((), x))

theorem View.after_blind {α β : Type} (traits : α → Policy.Traits) (f : α → β) (previous : Policy.Traits)
    (xs : List α) : blind.after traits f previous xs = unmarked (xs.map f) := by
  induction xs generalizing previous with
  | nil => rfl
  | cons x xs ih => simp [View.after, unmarked, ih, blind]

theorem View.along_blind {α β : Type} (traits : α → Policy.Traits) (f : α → β) (xs : List α) :
    blind.along traits f xs = unmarked (xs.map f) := by
  cases xs with
  | nil => rfl
  | cons x xs =>
    rw [View.along, View.after_blind]
    rfl

theorem unmarked_inj {α : Type} {xs ys : List α} (h : unmarked xs = unmarked ys) : xs = ys := by
  simpa [unmarked, Function.comp_def] using congrArg (List.map Prod.snd) h

end PolicyFormat.Abstract

namespace PolicyFormat.Policy

open Abstract (View)

mutual

/-- The meaning of a word or a call. -/
def Element.term : Element → Abstract.Term
  | .leaf word => .word word.text
  | .call _ name ⟨_, _, entries, _⟩ => .call name.text (Element.terms entries)

/-- The meanings of the arguments of a call. -/
def Element.terms : List (Entry Element) → List Abstract.Term
  | [] => []
  | .item value :: rest => value.term :: Element.terms rest
  | .comment _ :: rest => Element.terms rest

end

theorem Entry.mem_items {α : Type} {x : α} {entries : List (Entry α)} :
    x ∈ entries.filterMap Entry.item? ↔ .item x ∈ entries := by
  rw [List.mem_filterMap]
  constructor
  · rintro ⟨entry, hEntry, hItem⟩
    cases entry with
    | item y =>
      cases hItem
      exact hEntry
    | comment c => cases hItem
  · intro hEntry
    exact ⟨.item x, hEntry, rfl⟩

theorem Entry.eq_map_items {α : Type} {entries : List (Entry α)} (h : ∀ c, .comment c ∉ entries) :
    entries = (entries.filterMap Entry.item?).map .item := by
  induction entries with
  | nil => rfl
  | cons entry rest ih =>
    cases entry with
    | item x =>
      have hRest := ih fun c hc => h c (List.mem_cons_of_mem _ hc)
      simp [Entry.item?, ← hRest]
    | comment c => exact absurd List.mem_cons_self (h c)

theorem ItemList.mem_items {α : Type} {x : α} {g : ItemList α} : x ∈ g.items ↔ .item x ∈ g.entries :=
  Entry.mem_items

/-- What holds of words, and of a call if it holds of its arguments, holds of every element. -/
@[elab_as_elim]
theorem Element.induction {P : Element → Prop} (leaf : ∀ word, P (.leaf word))
    (call : ∀ traits name (arguments : ItemList Element),
      (∀ e ∈ arguments.items, P e) → P (.call traits name arguments)) (e : Element) : P e := by
  refine @Element.rec P (fun g => ∀ e ∈ g.items, P e) (fun entries => ∀ e, .item e ∈ entries → P e)
    (fun entry => ∀ e, entry = .item e → P e) leaf call ?_ ?_ ?_ ?_ ?_ e
  · intro traits opening entries closing ih e he
    exact ih e (ItemList.mem_items.1 he)
  · simp
  · intro entry rest ihEntry ihRest e he
    rcases List.mem_cons.1 he with h | h
    · exact ihEntry e h.symm
    · exact ihRest e h
  · rintro value ih e h
    cases h
    exact ih
  · rintro c e h
    cases h

theorem Element.terms_eq (entries : List (Entry Element)) :
    Element.terms entries = (entries.filterMap Entry.item?).map Element.term := by
  induction entries with
  | nil => rfl
  | cons entry rest ih => cases entry <;> simp [Element.terms, Entry.item?, List.filterMap_cons, ih]

@[simp] theorem Element.term_leaf (word : Leaf) : (Element.leaf word).term = .word word.text := rfl

@[simp] theorem Element.term_call (traits : Traits) (name : Leaf) (arguments : ItemList Element) :
    (Element.call traits name arguments).term = .call name.text (arguments.items.map Element.term) := by
  obtain ⟨_, _, entries, _⟩ := arguments
  simp [Element.term, Element.terms_eq, ItemList.items]

@[simp] theorem Element.term_withTraits (change : Traits → Traits) (e : Element) :
    (e.withTraits change).term = e.term := by
  cases e <;> simp [Element.withTraits]

theorem Element.traits_withTraits (change : Traits → Traits) (e : Element) :
    (e.withTraits change).traits = change e.traits := by
  cases e <;> rfl

variable {μ : Type} (v : View μ)

/-- The meaning of a value. -/
def Value.meaning : Value → Abstract.Value μ
  | .single element => .single element.term
  | .list elements => .list (v.along Element.traits Element.term elements.items)

def Assignment.meaning (a : Assignment) : Abstract.Attribute μ :=
  { name := a.name.text, value := a.value.meaning v }

def Promise.meaning (p : Promise) : Abstract.Promise μ :=
  { promiser := p.promiser.text
    promisee := p.promisee.map (Value.meaning v)
    attributes := p.constraints.items.map (Assignment.meaning v) }

def Clause.meaning : Clause → Abstract.Clause μ
  | .guard g => .guard g.expression.text
  | .promise p => .promise (p.meaning v)

def PromiseType.meaning (p : PromiseType) : Abstract.PromiseType μ :=
  { name := p.name.text
    clauses := v.along Clause.traits (Clause.meaning v) p.clauses.items }

def Selection.meaning : Selection → Abstract.Selection μ
  | .guard g => .guard g.expression.text
  | .assignment a => .assignment (a.meaning v)

def Contents.meaning : Contents → Abstract.Contents μ
  | .bundle statements => .bundle (statements.items.map (PromiseType.meaning v))
  | .body selections => .body (v.along Selection.traits (Selection.meaning v) selections.items)

def Block.meaning (b : Block) : Abstract.Block μ :=
  { type := b.type.text
    name := b.name.text
    parameters := b.parameters.items.map Leaf.text
    contents := b.contents.meaning v }

/-- The meaning of a policy file. -/
def Specification.meaning (s : Specification) : Abstract.Document μ :=
  (ItemList.items s).map (Block.meaning v)

end PolicyFormat.Policy
