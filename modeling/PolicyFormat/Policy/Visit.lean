import PolicyFormat.Policy.Tree

/-!
Walking a tree in source order, each node before its parts, with a change to the traits of every
node. The flag tells whether the node takes the blank line before it; the list under a promise
type leaves that line to its first element.
-/
namespace PolicyFormat.Policy

variable {m : Type → Type} [Monad m]

def Leaf.visit (f : Bool → Traits → m Traits) (l : Leaf) : m Leaf := do
  return { l with traits := ← f true l.traits }

def visitOptional (f : Bool → Traits → m Traits) : Option Leaf → m (Option Leaf)
  | some l => do return some (← l.visit f)
  | none => return none

/-- Walks the brackets and elements of a list, but not the list node itself. -/
def ItemList.visitParts {α : Type} (f : Bool → Traits → m Traits) (visitItem : α → m α) (g : ItemList α) :
    m (ItemList α) := do
  let opening ← visitOptional f g.opening
  let entries ← visitEntries g.entries
  let closing ← visitOptional f g.closing
  return { g with opening, entries, closing }
where
  /-- Walks the elements; comments are no nodes. -/
  visitEntries : List (Entry α) → m (List (Entry α))
  | [] => return []
  | .item value :: rest => do
    let value ← visitItem value
    return .item value :: (← visitEntries rest)
  | .comment c :: rest => do return .comment c :: (← visitEntries rest)

/-- Walks a list node and its parts. -/
def ItemList.visit {α : Type} (f : Bool → Traits → m Traits) (visitItem : α → m α) (g : ItemList α)
    (takesBlank : Bool := true) : m (ItemList α) := do
  let traits ← f takesBlank g.traits
  ItemList.visitParts f visitItem { g with traits }

mutual

def Element.visit (f : Bool → Traits → m Traits) : Element → m Element
  | .leaf word => do return .leaf (← word.visit f)
  | .call traits name ⟨argTraits, opening, entries, closing⟩ => do
    let traits ← f true traits
    let name ← name.visit f
    let argTraits ← f true argTraits
    let opening ← visitOptional f opening
    let entries ← Element.visitEach f entries
    let closing ← visitOptional f closing
    return .call traits name ⟨argTraits, opening, entries, closing⟩

/-- Walks the arguments of a call. -/
def Element.visitEach (f : Bool → Traits → m Traits) :
    List (Entry Element) → m (List (Entry Element))
  | [] => return []
  | .item value :: rest => do
    let value ← value.visit f
    return .item value :: (← Element.visitEach f rest)
  | .comment c :: rest => do return .comment c :: (← Element.visitEach f rest)

end

def Value.visit (f : Bool → Traits → m Traits) : Value → m Value
  | .single element => do return .single (← element.visit f)
  | .list elements => do return .list (← elements.visit f (Element.visit f))

def Assignment.visit (f : Bool → Traits → m Traits) (a : Assignment) : m Assignment := do
  return {
    traits := ← f true a.traits
    name := ← a.name.visit f
    arrow := ← a.arrow.visit f
    value := ← a.value.visit f
    comma := ← visitOptional f a.comma }

/-- Walks a class expression. -/
def Guard.visit (f : Bool → Traits → m Traits) (g : Guard) : m Guard := do
  return { traits := ← f true g.traits, expression := ← g.expression.visit f }

def Promise.visit (f : Bool → Traits → m Traits) (p : Promise) : m Promise := do
  let traits ← f true p.traits
  let promiser ← p.promiser.visit f
  let promisee ←
    match p.promisee with
    | some value => do pure (some (← value.visit f))
    | none => pure none
  let comma ← visitOptional f p.comma
  let constraints ← p.constraints.visit f (Assignment.visit f)
  let semicolon ← p.semicolon.visit f
  return { traits, promiser, promisee, comma, constraints, semicolon }

/-- Walks what stands under a promise type. -/
def Clause.visit (f : Bool → Traits → m Traits) : Clause → m Clause
  | .guard value => do return .guard (← value.visit f)
  | .promise value => do return .promise (← value.visit f)

def PromiseType.visit (f : Bool → Traits → m Traits) (p : PromiseType) : m PromiseType := do
  let traits ← f true p.traits
  let name ← p.name.visit f
  let clauses ← p.clauses.visit f (Clause.visit f) false
  return { traits, name, clauses }

/-- Walks what stands in a body. -/
def Selection.visit (f : Bool → Traits → m Traits) : Selection → m Selection
  | .guard value => do return .guard (← value.visit f)
  | .assignment value => do return .assignment (← value.visit f)

/-- Walks what stands between the braces of a block. -/
def Contents.visit (f : Bool → Traits → m Traits) : Contents → m Contents
  | .bundle statements => do return .bundle (← statements.visit f (PromiseType.visit f))
  | .body selections => do return .body (← selections.visit f (Selection.visit f))

def Block.visit (f : Bool → Traits → m Traits) (b : Block) : m Block := do
  return {
    traits := ← f true b.traits
    keyword := ← b.keyword.visit f
    type := ← b.type.visit f
    name := ← b.name.visit f
    parameters := ← b.parameters.visit f (Leaf.visit f)
    contents := ← b.contents.visit f }

/-- Walks all nodes below a file. -/
def Specification.visit (f : Bool → Traits → m Traits) (s : Specification) : m Specification :=
  ItemList.visitParts f (Block.visit f) s

end PolicyFormat.Policy
