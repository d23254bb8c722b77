import PolicyFormat.Policy.Tree

/-!
Bringing the lists of a tree into their final form: promise types without promises go, the others
are put into the order in which they are evaluated, and no blank line stays after a class
expression.
-/
namespace PolicyFormat.Policy

/-- The promise types in the order in which they are evaluated. -/
def evaluationOrder : List String :=
  ["meta:", "vars:", "defaults:", "classes:", "users:", "files:", "packages:",
   "guest_environments:", "methods:", "processes:", "services:", "commands:", "storage:",
   "databases:", "access:", "roles:", "measurements:", "delete_lines:", "field_edits:",
   "insert_lines:", "replace_patterns:", "reports:"]

/-- The place of a promise type in the order of evaluation. Unknown ones come last. -/
def evaluationRank (name : String) : Nat :=
  evaluationOrder.findIdx (· == name)

/-- What is done to promise types. -/
structure Tidying where
  removesEmptyPromiseTypes : Bool := true
  sortsPromiseTypes : Bool := true
deriving Repr, DecidableEq

namespace PromiseType

/-- Nothing stands under the promise type and no comment belongs to it. -/
def isVacant (p : PromiseType) : Bool :=
  p.clauses.entries.isEmpty && p.traits.comments.isEmpty && p.name.traits.comments.isEmpty
    && p.clauses.traits.comments.isEmpty

end PromiseType

def removeVacant (entries : List (Entry PromiseType)) : List (Entry PromiseType) :=
  entries.filter fun
    | .item p => !p.isVacant
    | .comment _ => true

/-- Cuts a list into elements, each with the comments directly before it, and the comments after
the last element. -/
def withComments {α : Type} : List (Entry α) → List (List Comment × α) × List Comment
  | [] => ([], [])
  | .comment c :: rest =>
    match withComments rest with
    | ((comments, item) :: items, trailing) => ((c :: comments, item) :: items, trailing)
    | ([], trailing) => ([], c :: trailing)
  | .item value :: rest =>
    let (items, trailing) := withComments rest
    (([], value) :: items, trailing)

/-- Sorts promise types into the order of evaluation. Comments stay before what they stood
before, and comments at the end stay there. -/
def sortToEvaluationOrder (entries : List (Entry PromiseType)) : List (Entry PromiseType) :=
  let (items, trailing) := withComments entries
  let sorted := items.mergeSort
    (fun a b => evaluationRank a.2.name.text ≤ evaluationRank b.2.name.text)
  sorted.flatMap (fun (comments, item) => comments.map .comment ++ [.item item])
    ++ trailing.map .comment

/-- What follows a class expression, unless it is another one, keeps no blank line before it.
Comments keep theirs otherwise. -/
def settleAfterGuards {α : Type} (isGuard : α → Bool) (change : (Traits → Traits) → α → α) :
    (afterGuard : Bool) → List (Entry α) → List (Entry α)
  | _, [] => []
  | afterGuard, .comment c :: rest =>
    .comment { c with keepsBlank := !afterGuard } :: settleAfterGuards isGuard change false rest
  | afterGuard, .item value :: rest =>
    let settled :=
      if afterGuard && !isGuard value then change (fun t => { t with keepsBlank := false }) value
      else value
    .item settled :: settleAfterGuards isGuard change (isGuard value) rest

def ItemList.mapItems {α : Type} (f : α → α) (g : ItemList α) : ItemList α :=
  { g with entries := g.entries.map fun
      | .item value => .item (f value)
      | .comment c => .comment c }

namespace PromiseType

def settle (p : PromiseType) : PromiseType :=
  { p with clauses := { p.clauses with
      entries := settleAfterGuards Clause.isGuard Clause.withTraits false p.clauses.entries } }

end PromiseType

/-- Brings the promise types of a bundle into their final form. -/
def Tidying.apply (t : Tidying) (entries : List (Entry PromiseType)) : List (Entry PromiseType) :=
  let entries := if t.removesEmptyPromiseTypes then removeVacant entries else entries
  if t.sortsPromiseTypes then sortToEvaluationOrder entries else entries

namespace Contents

/-- Brings the contents of a block into their final form. -/
def tidy (t : Tidying) : Contents → Contents
  | .bundle statements =>
    let settled := statements.mapItems PromiseType.settle
    .bundle { settled with entries := t.apply settled.entries }
  | .body selections =>
    .body { selections with
      entries := settleAfterGuards Selection.isGuard Selection.withTraits false selections.entries }

end Contents

/-- Brings a file into its final form. -/
def Specification.tidy (t : Tidying) (s : Specification) : Specification :=
  ItemList.mapItems (fun b : Block => { b with contents := b.contents.tidy t }) s

end PolicyFormat.Policy
