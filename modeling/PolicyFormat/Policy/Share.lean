import PolicyFormat.Policy.Comment

/-!
Sharing comments out among nodes that follow each other in the source. The comments are taken in
order, and so are the nodes: once a comment has passed a node, no later comment goes to it.
-/
namespace PolicyFormat.Policy

/-- How comments are shared out. With `inserts`, standalone comments stand between the nodes;
without it every comment goes to some node. `owns` tells whether a node keeps a comment that
stands after it and before the next node. -/
structure Sharing (α : Type) where
  span : α → Span
  inserts : Bool
  owns : α → Comment → Bool := fun _ _ => false

/-- A node, the comments inserted before it and the comments given to it. -/
structure Slot (α : Type) where
  before : List Comment
  node : α
  given : List Comment
deriving Repr

/-- The nodes with their comments, and the comments inserted after all nodes. -/
structure Shares (α : Type) where
  slots : List (Slot α)
  trailing : List Comment
deriving Repr

/-- The comment ends within the node, starts on one of its lines, and no later node touches that
line. -/
def Comment.trails (c : Comment) (node : Span) (later : List Span) : Bool :=
  c.span.endLine ≤ node.endLine && node.covers c.span.startLine
    && !later.any (·.covers c.span.startLine)

namespace Sharing

variable {α : Type} (s : Sharing α)

/-- The comment is inserted before the node. -/
def precedes (node : α) (c : Comment) : Bool :=
  s.inserts && c.isStandalone && c.span.startLine < (s.span node).startLine

/-- No node after this one can take the comment. -/
def isBeforeNext (later : List α) (c : Comment) : Bool :=
  match later with
  | [] => true
  | next :: _ => c.isStandalone && c.span.startLine < (s.span next).startLine

/-- The comment is given to the node. -/
def wants (node : α) (later : List α) (c : Comment) : Bool :=
  (!s.inserts && later.isEmpty)
    || c.span.endLine < (s.span node).endLine
    || c.trails (s.span node) (later.map s.span)
    || (s.inserts && s.isBeforeNext later c && s.owns node c)

/-- Takes comments for the node from the front: those that stand before it, those given to it,
and the rest, which starts with the first comment that passes the node. -/
def collect (node : α) (later : List α) : List Comment → List Comment × List Comment × List Comment
  | [] => ([], [], [])
  | c :: rest =>
    if s.precedes node c then
      let (before, given, left) := collect node later rest
      (c :: before, given, left)
    else if s.wants node later c then
      let (before, given, left) := collect node later rest
      (before, c :: given, left)
    else ([], [], c :: rest)

/-- Shares the comments out among the nodes. -/
def share : List α → List Comment → Shares α
  | [], comments => ⟨[], comments⟩
  | node :: later, comments =>
    let (before, given, left) := s.collect node later comments
    let shares := share later left
    { shares with slots := ⟨before, node, given⟩ :: shares.slots }

end Sharing

/-- Shares comments out among the parts of a node, which are numbered, and gives the share of
each part. -/
def shareAmongParts (parts : List (Nat × Span)) (comments : List Comment) (part : Nat) : List Comment :=
  let sharing : Sharing (Nat × Span) := { span := (·.2), inserts := false }
  let shares := sharing.share parts comments
  (shares.slots.filter (fun slot => slot.node.1 == part)).flatMap (·.given)

end PolicyFormat.Policy
