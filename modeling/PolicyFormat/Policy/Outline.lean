import PolicyFormat.Policy.Tree

/-!
A tree with one kind of node, for those who look at a file as a whole.
-/
namespace PolicyFormat.Policy

/-- The kinds of nodes that have parts. -/
inductive NodeKind where
  | specification
  | bundle
  | body
  | parameters
  | promiseTypes
  | promiseType
  | clauses
  | guard
  | promise
  | constraints
  | constraint
  | selections
  | selection
  | call
  | arguments
  | list
deriving Repr, DecidableEq

/-- The name of a kind of node. Parameters are a list of arguments too. -/
def NodeKind.name : NodeKind → String
  | .specification => "Specification"
  | .bundle => "Bundle"
  | .body => "Body"
  | .parameters => "ArgumentList"
  | .promiseTypes => "PromiseTypeList"
  | .promiseType => "PromiseType"
  | .clauses => "ClassPromiseList"
  | .guard => "Class"
  | .promise => "Promise"
  | .constraints => "ConstraintList"
  | .constraint => "Constraint"
  | .selections => "ClassSelectionList"
  | .selection => "Selection"
  | .call => "Function"
  | .arguments => "ArgumentList"
  | .list => "List"

/-- A node with its parts in source order, a leaf, or a comment that stands in a list. -/
inductive Outline where
  | comment (value : Comment)
  | leaf (value : Leaf)
  | node (kind : NodeKind) (traits : Traits) (parts : List Outline)
deriving Inhabited

def optionalOutline (leaf : Option Leaf) : List Outline :=
  (leaf.map Outline.leaf).toList

def ItemList.outline {α : Type} (kind : NodeKind) (item : α → Outline) (g : ItemList α) : Outline :=
  let entries := g.entries.map fun
    | .item value => item value
    | .comment c => .comment c
  .node kind g.traits (optionalOutline g.opening ++ entries ++ optionalOutline g.closing)

mutual

def Element.outline : Element → Outline
  | .leaf word => .leaf word
  | .call traits name ⟨argTraits, opening, entries, closing⟩ =>
    .node .call traits [.leaf name,
      .node .arguments argTraits
        (optionalOutline opening ++ Element.outlines entries ++ optionalOutline closing)]

/-- The arguments of a call. -/
def Element.outlines : List (Entry Element) → List Outline
  | [] => []
  | .item value :: rest => value.outline :: Element.outlines rest
  | .comment c :: rest => .comment c :: Element.outlines rest

end

def Value.outline : Value → Outline
  | .single element => element.outline
  | .list elements => elements.outline .list Element.outline

def Assignment.outline (kind : NodeKind) (a : Assignment) : Outline :=
  .node kind a.traits
    ([.leaf a.name, .leaf a.arrow, a.value.outline] ++ optionalOutline a.comma)

def Guard.outline (g : Guard) : Outline :=
  .node .guard g.traits [.leaf g.expression]

def Promise.outline (p : Promise) : Outline :=
  .node .promise p.traits
    ([.leaf p.promiser] ++ (p.promisee.map Value.outline).toList ++ optionalOutline p.comma
      ++ [p.constraints.outline .constraints (Assignment.outline .constraint), .leaf p.semicolon])

def Clause.outline : Clause → Outline
  | .guard value => value.outline
  | .promise value => value.outline

def PromiseType.outline (p : PromiseType) : Outline :=
  .node .promiseType p.traits [.leaf p.name, p.clauses.outline .clauses Clause.outline]

def Selection.outline : Selection → Outline
  | .guard value => value.outline
  | .assignment value => value.outline .selection

/-- The outline of what stands between the braces of a block. -/
def Contents.outline : Contents → Outline
  | .bundle statements => statements.outline .promiseTypes PromiseType.outline
  | .body selections => selections.outline .selections Selection.outline

def Block.outline (b : Block) : Outline :=
  let kind : NodeKind :=
    match b.contents with
    | .bundle _ => .bundle
    | .body _ => .body
  .node kind b.traits [.leaf b.keyword, .leaf b.type, .leaf b.name,
    b.parameters.outline .parameters .leaf, b.contents.outline]

def Specification.outline (s : Specification) : Outline :=
  ItemList.outline .specification Block.outline s

end PolicyFormat.Policy
