import Mathlib.Algebra.BigOperators.Group.List.Basic
import Mathlib.Tactic.Abel
import PolicyFormat.Proofs.Formed

/-! What a tree adds up to: its comment lines, those of them that are not laid out, and its
bracketed lists that are not closed. -/
namespace PolicyFormat.Policy

/-- What is counted: comment lines that are laid out, comment lines that are not, and lists of
arguments or parameters that a comment ends, whose closing bracket is missing. -/
structure Tally (M : Type) where
  note : String → M
  hidden : String → M
  unclosed : M

variable {M : Type} [AddCommMonoid M] (t : Tally M)

/-! ### Sums over trees -/

/-- The sum of the lines of a comment. -/
def Comment.tally (c : Comment) : M :=
  (c.lines.map t.note).sum

/-- The sum of the lines of a comment that is not laid out. -/
def Comment.hiddenTally (c : Comment) : M :=
  (c.lines.map t.hidden).sum

def Traits.tally (x : Traits) : M :=
  (x.comments.map (Comment.tally t)).sum

def Leaf.tally (l : Leaf) : M :=
  l.traits.tally t

section

variable {α : Type} (f : α → M)

def Entry.tally : Entry α → M
  | .item x => f x
  | .comment c => c.tally t

def ItemList.tally (g : ItemList α) : M :=
  (g.entries.map (Entry.tally t f)).sum

/-- Counts the list if its last entry is a comment. -/
def unclosedTally (entries : List (Entry α)) : M :=
  match entries.getLast? with
  | some (.comment _) => t.unclosed
  | _ => 0

/-- The sum of a list of arguments or parameters. -/
def ItemList.bracketTally (g : ItemList α) : M :=
  g.tally t f + unclosedTally t g.entries

end

mutual

def Element.tally : Element → M
  | .leaf word => word.tally t
  | .call traits _ ⟨_, _, entries, _⟩ =>
    traits.tally t + (Element.tallyEach entries + unclosedTally t entries)

/-- The sum of the arguments of a call. -/
def Element.tallyEach : List (Entry Element) → M
  | [] => 0
  | .item value :: rest => value.tally + Element.tallyEach rest
  | .comment c :: rest => c.tally t + Element.tallyEach rest

end

theorem Element.tallyEach_eq (entries : List (Entry Element)) :
    Element.tallyEach t entries = (entries.map (Entry.tally t (Element.tally t))).sum := by
  induction entries with
  | nil => simp [Element.tallyEach]
  | cons entry rest ih => cases entry <;> simp [Element.tallyEach, Entry.tally, ih]

theorem Element.tally_leaf (word : Leaf) : (Element.leaf word).tally t = word.tally t := by
  simp [Element.tally]

theorem Element.tally_call (traits : Traits) (name : Leaf) (arguments : ItemList Element) :
    (Element.call traits name arguments).tally t = traits.tally t + arguments.bracketTally t (Element.tally t) := by
  obtain ⟨_, _, entries, _⟩ := arguments
  simp [Element.tally, Element.tallyEach_eq, ItemList.bracketTally, ItemList.tally]

/-- The sum of a value. The comments of the closing brace of a list are not laid out. -/
def Value.tally : Value → M
  | .single element => element.tally t
  | .list elements =>
    elements.tally t (Element.tally t) +
      elements.closing.elim 0 (fun l => (l.traits.comments.map (Comment.hiddenTally t)).sum)

def Assignment.tally (a : Assignment) : M :=
  a.traits.tally t + a.value.tally t

def Promise.tally (p : Promise) : M :=
  p.traits.tally t + p.promisee.elim 0 (Value.tally t) + p.constraints.tally t (Assignment.tally t)

def Clause.tally : Clause → M
  | .guard g => g.traits.tally t
  | .promise p => p.tally t

def PromiseType.tally (p : PromiseType) : M :=
  p.traits.tally t + p.name.tally t + p.clauses.tally t (Clause.tally t)

def Selection.tally : Selection → M
  | .guard g => g.traits.tally t
  | .assignment a => a.tally t

/-- The sum of a list in the braces of a block. -/
def ItemList.blockTally {α : Type} (f : α → M) (g : ItemList α) : M :=
  g.opening.elim 0 (Leaf.tally t) + g.tally t f + g.closing.elim 0 (Leaf.tally t)

def Contents.tally : Contents → M
  | .bundle statements => statements.blockTally t (PromiseType.tally t)
  | .body selections => selections.blockTally t (Selection.tally t)

def Block.tally (b : Block) : M :=
  b.traits.tally t + b.parameters.bracketTally t (Leaf.tally t) + b.contents.tally t

/-- The sum of a policy file. -/
def Specification.tally (s : Specification) : M :=
  ItemList.tally t (Block.tally t) s

/-! ### Blank lines do not count -/

section

variable {α : Type} {f : α → M} {change : α → α}

theorem ItemList.tally_mapItems {g : ItemList α} (h : ∀ x ∈ g.items, f (change x) = f x) :
    (g.mapItems change).tally t f = g.tally t f := by
  simp only [ItemList.tally, ItemList.mapItems, List.map_map]
  refine congrArg List.sum (List.map_congr_left fun entry hEntry => ?_)
  cases entry with
  | item x => exact h x (ItemList.mem_items.2 hEntry)
  | comment c => rfl

end

/-! ### Counting two things at once -/

/-- Counts both. -/
instance : Add (Tally M) where
  add a b :=
    { note line := a.note line + b.note line
      hidden line := a.hidden line + b.hidden line
      unclosed := a.unclosed + b.unclosed }

section

variable (a b : Tally M)

theorem sum_map_of_add {β : Type} {f g h : β → M} {xs : List β} (hEach : ∀ x ∈ xs, h x = f x + g x) :
    (xs.map h).sum = (xs.map f).sum + (xs.map g).sum := by
  rw [List.map_congr_left hEach, List.sum_map_add]

theorem Comment.tally_add (c : Comment) : c.tally (a + b) = c.tally a + c.tally b :=
  sum_map_of_add fun _ _ => rfl

theorem Comment.hiddenTally_add (c : Comment) : c.hiddenTally (a + b) = c.hiddenTally a + c.hiddenTally b :=
  sum_map_of_add fun _ _ => rfl

theorem Traits.tally_add (x : Traits) : x.tally (a + b) = x.tally a + x.tally b :=
  sum_map_of_add fun c _ => c.tally_add a b

section

variable {α : Type} {f g h : α → M}

theorem ItemList.tally_add {x : ItemList α} (hItem : ∀ y ∈ x.items, h y = f y + g y) :
    x.tally (a + b) h = x.tally a f + x.tally b g := by
  refine sum_map_of_add ?_
  rintro (y | c) hEntry
  · exact hItem y (ItemList.mem_items.2 hEntry)
  · exact c.tally_add a b

theorem ItemList.bracketTally_add {x : ItemList α} (hItem : ∀ y ∈ x.items, h y = f y + g y) :
    x.bracketTally (a + b) h = x.bracketTally a f + x.bracketTally b g := by
  have hUnclosed : unclosedTally (a + b) x.entries = unclosedTally a x.entries + unclosedTally b x.entries := by
    unfold unclosedTally
    split
    · rfl
    · simp
  rw [ItemList.bracketTally, ItemList.tally_add a b hItem, hUnclosed, add_add_add_comm]
  rfl

theorem optional_add {β : Type} {f g h : β → M} (hEach : ∀ x, h x = f x + g x) (x : Option β) :
    x.elim 0 h = x.elim 0 f + x.elim 0 g := by
  cases x <;> simp [hEach]

theorem ItemList.blockTally_add {x : ItemList α} (hItem : ∀ y ∈ x.items, h y = f y + g y) :
    x.blockTally (a + b) h = x.blockTally a f + x.blockTally b g := by
  have hBrace : ∀ l : Leaf, l.tally (a + b) = l.tally a + l.tally b :=
    fun l => l.traits.tally_add a b
  simp only [ItemList.blockTally, ItemList.tally_add a b hItem, optional_add hBrace]
  abel

end

theorem Element.tally_add (e : Element) : e.tally (a + b) = e.tally a + e.tally b := by
  induction e using Element.induction with
  | leaf word =>
    simp only [Element.tally_leaf]
    exact word.traits.tally_add a b
  | call traits name arguments ih =>
    simp only [Element.tally_call, Traits.tally_add, ItemList.bracketTally_add a b ih]
    abel

theorem Value.tally_add (v : Value) : v.tally (a + b) = v.tally a + v.tally b := by
  cases v with
  | single element => exact element.tally_add a b
  | list elements =>
    have hHidden : ∀ l : Leaf, (l.traits.comments.map (Comment.hiddenTally (a + b))).sum =
        (l.traits.comments.map (Comment.hiddenTally a)).sum + (l.traits.comments.map (Comment.hiddenTally b)).sum :=
      fun l => sum_map_of_add fun c _ => c.hiddenTally_add a b
    simp only [Value.tally, ItemList.tally_add a b fun e _ => Element.tally_add a b e, optional_add hHidden]
    abel

theorem Assignment.tally_add (x : Assignment) : x.tally (a + b) = x.tally a + x.tally b := by
  simp only [Assignment.tally, Traits.tally_add, Value.tally_add]
  abel

theorem Promise.tally_add (p : Promise) : p.tally (a + b) = p.tally a + p.tally b := by
  simp only [Promise.tally, Traits.tally_add, optional_add (Value.tally_add a b),
    ItemList.tally_add a b fun x _ => Assignment.tally_add a b x]
  abel

theorem Clause.tally_add (c : Clause) : c.tally (a + b) = c.tally a + c.tally b := by
  cases c with
  | guard g => exact g.traits.tally_add a b
  | promise p => exact p.tally_add a b

theorem PromiseType.tally_add (p : PromiseType) : p.tally (a + b) = p.tally a + p.tally b := by
  simp only [PromiseType.tally, Leaf.tally, Traits.tally_add,
    ItemList.tally_add a b fun c _ => Clause.tally_add a b c]
  abel

theorem Selection.tally_add (s : Selection) : s.tally (a + b) = s.tally a + s.tally b := by
  cases s with
  | guard g => exact g.traits.tally_add a b
  | assignment x => exact x.tally_add a b

theorem Contents.tally_add (c : Contents) : c.tally (a + b) = c.tally a + c.tally b := by
  cases c with
  | bundle statements => exact ItemList.blockTally_add a b fun p _ => p.tally_add a b
  | body selections => exact ItemList.blockTally_add a b fun s _ => s.tally_add a b

theorem Block.tally_add (x : Block) : x.tally (a + b) = x.tally a + x.tally b := by
  have hLeaf : ∀ l : Leaf, l.tally (a + b) = l.tally a + l.tally b :=
    fun l => l.traits.tally_add a b
  simp only [Block.tally, Traits.tally_add, ItemList.bracketTally_add a b fun l _ => hLeaf l, Contents.tally_add]
  abel

/-- The sum of a policy file that counts two things is the sum of the two. -/
theorem Specification.tally_add (s : Specification) : s.tally (a + b) = s.tally a + s.tally b :=
  ItemList.tally_add a b fun x _ => x.tally_add a b

end

end PolicyFormat.Policy
