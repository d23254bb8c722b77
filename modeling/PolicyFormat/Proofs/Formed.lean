import Mathlib.Data.Option.Basic
import Mathlib.Tactic.MkIffOfInductiveProp
import PolicyFormat.Policy.Parse
import PolicyFormat.Proofs.Rescan
import PolicyFormat.Proofs.Meaning

/-! What is known of the trees that are laid out: the kinds of their words, and which nodes hold
comments. A node that hands its comments on has none, and does not keep a blank line. -/
namespace PolicyFormat.Policy

open Layout Lexeme

variable {P : Comment → Prop} {keepsBlank : Bool} {e : Element}

/-- The comment has lines, and each starts with a number sign. -/
def Comment.Legible (c : Comment) : Prop :=
  c.lines ≠ [] ∧ ∀ line ∈ c.lines, IsNote line

/-- The word is a token of one of the given kinds. -/
def Leaf.Is (kinds : TokenKind → Prop) (l : Leaf) : Prop :=
  IsToken l.text ∧ kinds (kindOf l.text)

namespace Traits

/-- The node holds no comments and keeps no blank line. -/
def Silent (t : Traits) : Prop :=
  t.comments = [] ∧ t.keepsBlank = false

variable (P : Comment → Prop)

/-- The node holds comments of the given sort only. -/
def Holds (t : Traits) : Prop :=
  ∀ c ∈ t.comments, P c ∧ c.keepsBlank = false

/-- The node holds comments of the given sort only, and keeps no blank line. -/
def Keeps (t : Traits) : Prop :=
  t.Holds P ∧ t.keepsBlank = false

end Traits

variable {t : Traits}

theorem Traits.Holds.legible (hP : ∀ c, P c → c.Legible) (h : t.Holds P) : t.Holds Comment.Legible :=
  fun c hc => ⟨hP c (h c hc).1, (h c hc).2⟩

theorem Traits.Holds.comments_nil (h : t.Holds P) (hNone : ∀ c, ¬ P c) : t.comments = [] :=
  List.eq_nil_iff_forall_not_mem.2 fun c hc => hNone c (h c hc).1

section

variable (P : Comment → Prop)

/-- The list holds no comments itself, and its elements and the comments between them are as they
should be. -/
@[mk_iff]
structure ItemList.Formed {α : Type} (F : α → Prop) (g : ItemList α) : Prop where
  silent : g.traits.Silent
  items : ∀ x, .item x ∈ g.entries → F x
  comments : ∀ c, .comment c ∈ g.entries → P c

variable {P} in
theorem ItemList.Formed.of_mem {α : Type} {F : α → Prop} {g : ItemList α} (h : g.Formed P F) {x : α}
    (hx : x ∈ g.items) : F x :=
  h.items x (ItemList.mem_items.1 hx)

/-- The brackets of the list hold no comments. -/
def ItemList.SilentBrackets {α : Type} (g : ItemList α) : Prop :=
  (∀ l ∈ g.opening, l.traits.Silent) ∧ ∀ l ∈ g.closing, l.traits.Silent

inductive Element.Formed : (keepsBlank : Bool) → Element → Prop where
  | leaf {keepsBlank : Bool} {word : Leaf} (hWord : word.Is (Parser.startsElement ·))
      (hHolds : word.traits.Holds P) (hKeeps : word.traits.keepsBlank = keepsBlank) :
      Formed keepsBlank (.leaf word)
  | call {keepsBlank : Bool} {traits : Traits} {name : Leaf} {arguments : ItemList Element}
      (hHolds : traits.Holds P) (hKeeps : traits.keepsBlank = keepsBlank)
      (hName : name.Is (Parser.startsCall ·)) (hNameSilent : name.traits.Silent)
      (hSilent : arguments.traits.Silent) (hItems : ∀ e, .item e ∈ arguments.entries → Formed false e)
      (hComments : ∀ c, .comment c ∈ arguments.entries → P c) (hBrackets : arguments.SilentBrackets) :
      Formed keepsBlank (.call traits name arguments)

/-- A list in braces that is a value is as it should be. Only its closing brace holds comments. -/
@[mk_iff]
structure ItemList.ListsValues (g : ItemList Element) : Prop extends g.Formed P (Element.Formed P true) where
  opening : ∀ l ∈ g.opening, l.traits.Silent
  closing : ∀ l ∈ g.closing, l.traits.Keeps P

/-- A value is as it should be. A single value hands its comments on. -/
def Value.Formed : Value → Prop
  | .single element => element.Formed P false ∧ element.traits.comments = []
  | .list elements => elements.ListsValues P

@[mk_iff]
structure Assignment.Formed (a : Assignment) : Prop where
  holds : a.traits.Holds P
  unranked : a.traits.yields = none
  name : a.name.Is (· = .ident)
  silent : a.name.traits.Silent
  arrow : a.arrow.traits.Silent
  value : a.value.Formed P
  comma : ∀ l ∈ a.comma, l.traits.Silent

/-- An attribute of a promise is as it should be. -/
@[mk_iff]
structure Assignment.Constrains (a : Assignment) : Prop extends a.Formed P where
  keeps : a.traits.keepsBlank = false

@[mk_iff]
structure Guard.Formed (g : Guard) : Prop where
  holds : g.traits.Holds P
  unranked : g.traits.yields = none
  expression : g.expression.Is (· = .guard)
  silent : g.expression.traits.Silent

/-- The last entry of the list is no comment. -/
def ItemList.EndsInItem {α : Type} (g : ItemList α) : Prop :=
  ∀ c, g.entries.getLast? ≠ some (.comment c)

@[mk_iff]
structure Promise.Formed (p : Promise) : Prop where
  holds : p.traits.Holds P
  unranked : p.traits.yields = none
  promiser : p.promiser.Is (· = .quoted)
  silent : p.promiser.traits.Silent
  lines : p.promiser.traits.span.endLine = p.promiser.traits.span.startLine + lineFeeds p.promiser.text
  promisee : ∀ v ∈ p.promisee, v.Formed P
  comma : ∀ l ∈ p.comma, l.traits.Silent
  constraints : p.constraints.Formed P (Assignment.Constrains P)
  brackets : p.constraints.SilentBrackets
  ends : p.constraints.EndsInItem
  semicolon : p.semicolon.traits.Silent

def Clause.Formed : Clause → Prop
  | .guard g => g.Formed P
  | .promise p => p.Formed P

@[mk_iff]
structure PromiseType.Formed (p : PromiseType) : Prop where
  keeps : p.traits.Keeps P
  name : p.name.Is (· = .promiseType)
  nameKeeps : p.name.traits.Keeps P
  clauses : p.clauses.Formed P (Clause.Formed P)
  brackets : p.clauses.SilentBrackets

def Selection.Formed : Selection → Prop
  | .guard g => g.Formed P
  | .assignment a => a.Formed P

/-- A brace of a block is as it should be. -/
def BraceFormed (text : String) (leaf : Option Leaf) : Prop :=
  ∃ l, leaf = some l ∧ l.text = text ∧ l.traits.Keeps P

/-- A list in the braces of a block is as it should be. -/
@[mk_iff]
structure ItemList.Braced {α : Type} (F : α → Prop) (g : ItemList α) : Prop extends g.Formed P F where
  opening : BraceFormed P "\x7b" g.opening
  closing : BraceFormed P "\x7d" g.closing

/-- What stands between the braces of a block is as it should be. A body is never empty. -/
def Contents.Formed : Contents → Prop
  | .bundle statements => statements.Braced P (PromiseType.Formed P)
  | .body selections => selections.Braced P (Selection.Formed P) ∧ selections.items ≠ []

/-- A parameter of a block is as it should be. -/
def Leaf.IsParameter (l : Leaf) : Prop :=
  l.Is (· = .ident) ∧ l.traits.Keeps P

/-- The word that a block starts with. -/
def Contents.word : Contents → String
  | .bundle _ => "bundle"
  | .body _ => "body"

@[mk_iff]
structure Block.Formed (b : Block) : Prop where
  keeps : b.traits.Keeps P
  keyword : b.keyword.text = b.contents.word
  keywordSilent : b.keyword.traits.Silent
  type : b.type.Is (· = .ident)
  typeSilent : b.type.traits.Silent
  name : b.name.Is (· = .ident)
  nameSilent : b.name.traits.Silent
  parameters : b.parameters.Formed P (Leaf.IsParameter P)
  brackets : b.parameters.SilentBrackets
  contents : b.contents.Formed P

/-- A policy file is as it should be. -/
@[mk_iff]
structure Specification.Formed (s : Specification) : Prop extends ItemList.Formed P (Block.Formed P) s where
  brackets : ItemList.SilentBrackets s

end

theorem Element.formed_leaf {word : Leaf} : (Element.leaf word).Formed P keepsBlank ↔
      word.Is (Parser.startsElement ·) ∧ word.traits.Holds P ∧ word.traits.keepsBlank = keepsBlank :=
  ⟨fun | .leaf hWord hHolds hKeeps => ⟨hWord, hHolds, hKeeps⟩,
    fun ⟨hWord, hHolds, hKeeps⟩ => .leaf hWord hHolds hKeeps⟩

theorem Element.formed_call {name : Leaf} {arguments : ItemList Element} :
    (Element.call t name arguments).Formed P keepsBlank ↔
      t.Holds P ∧ t.keepsBlank = keepsBlank ∧ name.Is (Parser.startsCall ·) ∧ name.traits.Silent ∧
        arguments.Formed P (Element.Formed P false) ∧ arguments.SilentBrackets :=
  ⟨fun
    | .call hHolds hKeeps hName hNameSilent hSilent hItems hComments hBrackets =>
      ⟨hHolds, hKeeps, hName, hNameSilent, ⟨hSilent, hItems, hComments⟩, hBrackets⟩,
    fun ⟨hHolds, hKeeps, hName, hNameSilent, hArguments, hBrackets⟩ =>
      .call hHolds hKeeps hName hNameSilent hArguments.silent hArguments.items hArguments.comments hBrackets⟩

theorem Element.Formed.holds (h : e.Formed P keepsBlank) : e.traits.Holds P := by
  cases h with
  | leaf hWord hHolds => exact hHolds
  | call hHolds => exact hHolds

theorem Element.Formed.keeps (h : e.Formed P keepsBlank) : e.traits.keepsBlank = keepsBlank := by
  cases h with
  | leaf hWord hHolds hKeeps => exact hKeeps
  | call hHolds hKeeps => exact hKeeps

theorem Clause.Formed.unranked {c : Clause} (h : c.Formed P) : c.traits.yields = none := by
  cases c with
  | guard g => exact Guard.Formed.unranked h
  | promise p => exact Promise.Formed.unranked h

theorem Selection.Formed.unranked {s : Selection} (h : s.Formed P) : s.traits.yields = none := by
  cases s with
  | guard g => exact Guard.Formed.unranked h
  | assignment a => exact Assignment.Formed.unranked h

/-! ### Trees without the blank lines of their lists

Whether the elements of a list in braces have blank lines between them is lost if the list is laid
out on one line. No layout looks at the rank with which an element hands on its comments, so in a tree
that was laid out it tells the two kinds of lists apart. -/

/-- The element without the mark of a blank line before it, with the rank of one that shares a line. -/
def Element.unmarked (e : Element) : Element :=
  e.withTraits (fun t => { t with afterBlank := false, yields := some 1 })

/-- The element with the rank of one that starts a line. -/
def Element.lined (e : Element) : Element :=
  e.withTraits (fun t => { t with yields := none })

/-- The value without the blank lines of its list. -/
def Value.plain : Value → Value
  | .single element => .single element
  | .list elements => .list (elements.mapItems Element.unmarked)

def Assignment.plain (a : Assignment) : Assignment :=
  { a with value := a.value.plain }

def Promise.plain (p : Promise) : Promise :=
  { p with
    promisee := p.promisee.map Value.plain
    constraints := p.constraints.mapItems Assignment.plain }

def Clause.plain : Clause → Clause
  | .guard g => .guard g
  | .promise p => .promise p.plain

def PromiseType.plain (p : PromiseType) : PromiseType :=
  { p with clauses := p.clauses.mapItems Clause.plain }

def Selection.plain : Selection → Selection
  | .guard g => .guard g
  | .assignment a => .assignment a.plain

def Contents.plain : Contents → Contents
  | .bundle statements => .bundle (statements.mapItems PromiseType.plain)
  | .body selections => .body (selections.mapItems Selection.plain)

def Block.plain (b : Block) : Block :=
  { b with contents := b.contents.plain }

/-- The policy file without the blank lines of its lists. -/
def Specification.plain (s : Specification) : Specification :=
  ItemList.mapItems Block.plain s

section

variable {P : Comment → Prop} {α : Type}

theorem ItemList.items_mapItems (f : α → α) (g : ItemList α) : (g.mapItems f).items = g.items.map f := by
  simp only [ItemList.items, ItemList.mapItems, List.filterMap_map, List.map_filterMap]
  apply List.filterMap_congr
  intro entry _
  cases entry <;> rfl

variable {f : α → α} {g : ItemList α}

theorem ItemList.item_mem_mapItems {x : α} :
    .item x ∈ (g.mapItems f).entries ↔ ∃ y, .item y ∈ g.entries ∧ f y = x := by
  simp only [ItemList.mapItems, List.mem_map]
  constructor
  · rintro ⟨entry, hEntry, hItem⟩
    cases entry with
    | item y => exact ⟨y, hEntry, by simpa using hItem⟩
    | comment c => simp at hItem
  · rintro ⟨y, hy, rfl⟩
    exact ⟨.item y, hy, rfl⟩

theorem ItemList.comment_mem_mapItems {c : Comment} :
    .comment c ∈ (g.mapItems f).entries ↔ .comment c ∈ g.entries := by
  simp only [ItemList.mapItems, List.mem_map]
  constructor
  · rintro ⟨entry, hEntry, hComment⟩
    cases entry with
    | item y => simp at hComment
    | comment d => simpa [← hComment] using hEntry
  · intro hc
    exact ⟨.comment c, hc, rfl⟩

variable {F : α → Prop}

theorem ItemList.formed_mapItems : (g.mapItems f).Formed P F ↔ g.Formed P (fun x => F (f x)) := by
  simp only [formed_iff, item_mem_mapItems, comment_mem_mapItems, forall_exists_index, and_imp,
    forall_apply_eq_imp_iff₂]
  rfl

theorem ItemList.braced_mapItems : (g.mapItems f).Braced P F ↔ g.Braced P (fun x => F (f x)) := by
  simp only [braced_iff, formed_mapItems]
  rfl

theorem ItemList.endsInItem_mapItems : (g.mapItems f).EndsInItem ↔ g.EndsInItem := by
  simp only [EndsInItem, mapItems, List.getLast?_map, ne_eq, Option.map_eq_some_iff, not_exists, not_and]
  constructor
  · intro h c hc
    exact h c (.comment c) hc rfl
  · rintro h c (x | d) hLast hSame
    · cases hSame
    · cases hSame
      exact h c hLast

theorem Element.formed_withTraits {change : Traits → Traits} (hComments : ∀ t, (change t).comments = t.comments)
    (hKeeps : ∀ t, (change t).keepsBlank = t.keepsBlank) :
    (e.withTraits change).Formed P keepsBlank ↔ e.Formed P keepsBlank := by
  cases e <;> simp [Element.withTraits, formed_leaf, formed_call, Leaf.Is, Traits.Holds, hComments, hKeeps]

theorem Element.formed_unmarked : e.unmarked.Formed P keepsBlank ↔ e.Formed P keepsBlank := by
  apply formed_withTraits <;> exact fun _ => rfl

theorem Element.formed_lined : e.lined.Formed P keepsBlank ↔ e.Formed P keepsBlank := by
  apply formed_withTraits <;> exact fun _ => rfl

theorem Value.formed_plain {v : Value} : v.plain.Formed P ↔ v.Formed P := by
  cases v with
  | single element => exact Iff.rfl
  | list elements =>
    simp only [Value.plain, Value.Formed, ItemList.listsValues_iff, ItemList.formed_mapItems, Element.formed_unmarked]
    rfl

variable {a : Assignment}

theorem Assignment.formed_plain : a.plain.Formed P ↔ a.Formed P := by
  simp [formed_iff, plain, Value.formed_plain]

theorem Assignment.constrains_plain : a.plain.Constrains P ↔ a.Constrains P := by
  rw [constrains_iff, constrains_iff, formed_plain]
  rfl

theorem Promise.formed_plain {p : Promise} : p.plain.Formed P ↔ p.Formed P := by
  simp only [formed_iff, plain, ItemList.formed_mapItems, Assignment.constrains_plain, ItemList.endsInItem_mapItems,
    Option.forall_mem_map, Value.formed_plain]
  rfl

theorem Clause.formed_plain {c : Clause} : c.plain.Formed P ↔ c.Formed P := by
  cases c with
  | guard g => exact Iff.rfl
  | promise p => exact Promise.formed_plain

theorem PromiseType.formed_plain {p : PromiseType} : p.plain.Formed P ↔ p.Formed P := by
  simp only [formed_iff, plain, ItemList.formed_mapItems, Clause.formed_plain]
  rfl

theorem Selection.formed_plain {s : Selection} : s.plain.Formed P ↔ s.Formed P := by
  cases s with
  | guard g => exact Iff.rfl
  | assignment a => exact Assignment.formed_plain

theorem Contents.formed_plain {c : Contents} : c.plain.Formed P ↔ c.Formed P := by
  cases c with
  | bundle statements =>
    simp [Contents.plain, Contents.Formed, ItemList.braced_mapItems, PromiseType.formed_plain]
  | body selections =>
    simp [Contents.plain, Contents.Formed, ItemList.braced_mapItems, Selection.formed_plain, ItemList.items_mapItems]

theorem Contents.word_plain (c : Contents) : c.plain.word = c.word := by
  cases c <;> rfl

theorem Block.formed_plain {b : Block} : b.plain.Formed P ↔ b.Formed P := by
  simp [formed_iff, plain, Contents.formed_plain, Contents.word_plain]

variable {s : Specification}

theorem Specification.formed_plain : Specification.Formed P s.plain ↔ Specification.Formed P s := by
  simp only [formed_iff, plain, ItemList.formed_mapItems, Block.formed_plain]
  rfl

theorem Specification.formed_of_plain {t : Specification} (hPlain : t.plain = s.plain)
    (h : Specification.Formed P s) : Specification.Formed P t := by
  rw [← formed_plain, hPlain]
  exact formed_plain.2 h

end

end PolicyFormat.Policy
