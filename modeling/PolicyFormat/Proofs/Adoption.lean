import Mathlib.Data.List.Basic
import PolicyFormat.Proofs.Placing

/-! Comments that a node gives up. They go up from node to node to the nearest one that keeps comments, and no
other node changes. On the way they get the rank of the node that they last went through. A node that allows no
comment at its line end turns all of them into comments of the code after them, those on lines of their own
included. -/
namespace PolicyFormat.Policy

/-- A node above others, and whether a comment may stand at its line end. -/
structure Ancestor where
  traits : Traits
  allowsTail : Bool := true
deriving Repr, DecidableEq

namespace Ancestor

def keeper (a : Ancestor) : Keeper :=
  ⟨a.traits.yields, a.allowsTail⟩

/-- The node keeps comments: it has no rank to hand them on with, or a rank of zero. -/
def Keeps (a : Ancestor) : Prop :=
  a.traits.yields = none ∨ a.traits.yields = some 0

instance (a : Ancestor) : Decidable a.Keeps :=
  inferInstanceAs (Decidable (_ ∨ _))

/-- The node with more comments. -/
def gain (a : Ancestor) (comments : List Comment) : Ancestor :=
  { a with traits := { a.traits with comments := a.traits.comments ++ comments } }

/-- Hands comments up a chain of nodes, innermost first. Each node adopts what the node below it hands on. The
second part is what the outermost one hands on. -/
def climb (handed : List Comment) : List Ancestor → List Ancestor × List Comment
  | [] => ([], handed)
  | a :: outer =>
    let (traits, handed) := a.traits.adopt handed a.allowsTail
    let (outer, left) := climb handed outer
    ({ a with traits } :: outer, left)

/-- The rank of comments that came through these nodes, innermost first, from a node of the given rank. -/
def rankAfter (rank : Int) (inner : List Ancestor) : Int :=
  (inner.filterMap (·.traits.yields)).getLastD rank

/-- The comment as the node is meant to keep it: only a comment at the end of a line changes, and only where
none may stand there. -/
def turn (a : Ancestor) (c : Comment) : Comment :=
  if !a.allowsTail && c.isEndOfLine then { c with affinity := some .nextNode } else c

variable {a : Ancestor} {inner outer nodes : List Ancestor} {rank : Int} {handed comments : List Comment}

/-! ### One node -/

theorem keeps_iff : a.Keeps ↔ a.traits.handsOn? = none := by
  unfold Keeps Traits.handsOn?
  cases a.traits.yields <;> simp

/-- A node that keeps no comments hands them on with its rank. -/
theorem exists_rank (h : ¬ a.Keeps) : ∃ rank, a.traits.yields = some rank ∧ a.traits.handsOn? = some rank := by
  obtain ⟨rank, hRank⟩ := Option.ne_none_iff_exists'.1 (mt keeps_iff.2 h)
  exact ⟨rank, (Option.filter_eq_some_iff.1 hRank).1, hRank⟩

theorem handOn_handOn (first second : Int) (cs : List Comment) :
    handOn second (handOn first cs) = handOn second cs := by
  simp [handOn]

/-- A node that is handed nothing stays as it is and hands nothing on. -/
theorem climb_nil (nodes : List Ancestor) : climb [] nodes = (nodes, []) := by
  induction nodes with
  | nil => rfl
  | cons a outer ih =>
    have hAdopt : a.traits.adopt [] a.allowsTail = (a.traits, []) := by
      by_cases h : a.Keeps
      · simp [Traits.adopt_of_keeps (keeps_iff.1 h), Keeper.settle]
      · obtain ⟨rank, -, hRank⟩ := exists_rank h
        exact Traits.adopt_of_handsOn hRank a.allowsTail
    rw [climb, hAdopt]
    simp only [ih]

theorem climb_of_keeps (h : a.Keeps) (handed : List Comment) (outer : List Ancestor) :
    climb handed (a :: outer) = (a.gain (a.keeper.settle handed) :: outer, []) := by
  rw [climb, Traits.adopt_of_keeps (keeps_iff.1 h)]
  simp only [climb_nil]
  rfl

theorem climb_of_handsOn (h : a.traits.handsOn? = some rank) (handed : List Comment) (outer : List Ancestor) :
    climb handed (a :: outer) = (a :: (climb (handOn rank handed) outer).1, (climb (handOn rank handed) outer).2) := by
  rw [climb, Traits.adopt_of_handsOn h]

/-! ### Chains -/

theorem settle_handOn (a : Ancestor) (rank : Int) (cs : List Comment) : a.keeper.settle (handOn rank cs) =
      cs.map (fun c => { c with rank, affinity := if a.allowsTail then c.affinity else some .nextNode }) := by
  cases hTail : a.allowsTail <;> simp [Keeper.settle, keeper, handOn, hTail]

/-- What a node keeps is what it is meant to keep, unless it takes a comment on lines of its own for one at the
end of a line. -/
theorem settle_eq_turn_iff (a : Ancestor) (cs : List Comment) : a.keeper.settle cs = cs.map a.turn ↔
      a.allowsTail = true ∨ ∀ c ∈ cs, c.affinity = some .endOfLine ∨ c.affinity = some .nextNode := by
  cases hTail : a.allowsTail with
  | true =>
    have hTurn : a.turn = id := funext fun c => by simp [turn, hTail]
    simp [Keeper.settle, keeper, hTail, hTurn]
  | false =>
    have hTurn : ∀ c : Comment, { c with affinity := some .nextNode } = a.turn c ↔
        c.affinity = some .endOfLine ∨ c.affinity = some .nextNode := by
      intro c
      by_cases hEnd : c.affinity = some .endOfLine
      · simp [turn, hTail, Comment.isEndOfLine, hEnd]
      · have hSame : a.turn c = c := by simp [turn, Comment.isEndOfLine, hEnd]
        rw [hSame]
        exact ⟨fun h => .inr (congrArg Comment.affinity h).symm, fun h => by
          cases c
          simp_all⟩
    simp [Keeper.settle, keeper, hTail, hTurn]

theorem rankAfter_cons (rank : Int) (h : a.traits.yields = some rank) (first : Int) (inner : List Ancestor) :
    rankAfter first (a :: inner) = rankAfter rank inner := by
  simp only [rankAfter, List.filterMap_cons, h, List.getLastD_cons]

/-- The nodes below the nearest keeper only pass the comments on, and the nodes above it are not reached. -/
theorem climb_eq (h : ∃ a ∈ nodes, a.Keeps) (rank : Int) (cs : List Comment) :
    ∃ inner a outer, nodes = inner ++ a :: outer ∧ (∀ b ∈ inner, ¬ b.Keeps) ∧ a.Keeps ∧ climb (handOn rank cs) nodes =
        (inner ++ a.gain (a.keeper.settle (handOn (rankAfter rank inner) cs)) :: outer, []) ∧
      Keeper.adoptAlong (handOn rank cs) (nodes.map keeper) =
        some (inner.map (fun _ => []) ++ a.keeper.settle (handOn (rankAfter rank inner) cs) ::
          outer.map (fun _ => [])) := by
  induction nodes generalizing rank with
  | nil => simp at h
  | cons a outer ih =>
    by_cases hKeeps : a.Keeps
    · have hSame : a.keeper.handsOn? = none := keeps_iff.1 hKeeps
      refine ⟨[], a, outer, rfl, by simp, hKeeps, climb_of_keeps hKeeps _ _, ?_⟩
      simp [Keeper.adoptAlong, hSame, rankAfter, Function.comp_def]
    · obtain ⟨next, hYields, hHands⟩ := exists_rank hKeeps
      have hSame : a.keeper.handsOn? = some next := hHands
      obtain ⟨inner, b, above, rfl, hInner, hb, hClimb, hAlong⟩ := ih (by simpa [hKeeps] using h) next
      refine ⟨a :: inner, b, above, rfl, List.forall_mem_cons.2 ⟨hKeeps, hInner⟩, hb, ?_, ?_⟩
      · rw [climb_of_handsOn hHands, handOn_handOn, hClimb, rankAfter_cons next hYields]
        rfl
      · simp only [List.map_cons, Keeper.adoptAlong, hSame, handOn_handOn, hAlong, rankAfter_cons next hYields]
        rfl

end Ancestor

open Ancestor

/-- Comments that a node of the given rank gives up reach the nearest node above it that keeps comments. They
come after the comments that it has, in order, and no other node changes. Each gets the rank of the node right
below the keeper. Nothing else changes but what the comments belong to, and that only at a keeper without
comments at its line end. There they all become comments of the code after them, although this is meant for those
at the end of a line only: it comes out as meant exactly if each is one of these or belongs to the code after it
already. -/
theorem comments_reach_nearest_keeper {nodes : List Ancestor} (hKeeper : ∃ a ∈ nodes, a.Keeps) (rank : Int)
    (comments : List Comment) :
    ∃ inner a outer kept, nodes = inner ++ a :: outer ∧ (∀ b ∈ inner, ¬ b.Keeps) ∧ a.Keeps ∧
      climb (handOn rank comments) nodes = (inner ++ a.gain kept :: outer, []) ∧
      Keeper.adoptAlong (handOn rank comments) (nodes.map keeper) =
        some (inner.map (fun _ => []) ++ kept :: outer.map (fun _ => [])) ∧
      kept = comments.map (fun c => { c with
        rank := rankAfter rank inner
        affinity := if a.allowsTail then c.affinity else some .nextNode }) ∧
      (kept = comments.map (fun c => a.turn { c with rank := rankAfter rank inner }) ↔
        a.allowsTail = true ∨ ∀ c ∈ comments, c.affinity = some .endOfLine ∨ c.affinity = some .nextNode) := by
  obtain ⟨inner, a, outer, hNodes, hInner, ha, hClimb, hAlong⟩ := climb_eq hKeeper rank comments
  refine ⟨inner, a, outer, _, hNodes, hInner, ha, hClimb, hAlong, settle_handOn a _ comments, ?_⟩
  have hTurn := settle_eq_turn_iff a (handOn (rankAfter rank inner) comments)
  simpa [handOn, Function.comp_def] using hTurn

/-- A word in a list in a block, as far as comments go: the list hands them on, and the block keeps them but not
at its line end. -/
def blockChain : List Ancestor :=
  [{ traits := { span := ⟨2, 2, 5, 9⟩, yields := some 2 } },
    { traits := { span := ⟨1, 4, 0, 20⟩, yields := some 0 }, allowsTail := false },
    { traits := { span := ⟨1, 9, 0, 50⟩ } }]

/-- A comment on a line of its own, with blank lines around it. -/
def loneNote : Comment :=
  { span := ⟨3, 3, 12, 15⟩, lines := ["# c"], affinity := some .standalone, column := 2 }

theorem blockChain_has_nearest_keeper :
    (∃ a ∈ blockChain, a.Keeps) ∧ ∃ inner a outer kept, blockChain = inner ++ a :: outer ∧
      (∀ b ∈ inner, ¬ b.Keeps) ∧ a.Keeps ∧
      climb (handOn 1 [loneNote]) blockChain = (inner ++ a.gain kept :: outer, []) ∧
      kept = [{ loneNote with
        rank := rankAfter 1 inner
        affinity := if a.allowsTail then loneNote.affinity else some .nextNode }] := by
  have hKeeper : ∃ a ∈ blockChain, a.Keeps := by decide
  obtain ⟨inner, a, outer, kept, hNodes, hInner, ha, hClimb, -, hKept, -⟩ :=
    comments_reach_nearest_keeper hKeeper 1 [loneNote]
  exact ⟨hKeeper, inner, a, outer, kept, hNodes, hInner, ha, hClimb, hKept⟩

/-- The comment is not at the end of a line, and nevertheless becomes one of the code after it. -/
theorem loneNote_is_turned :
    loneNote.affinity = some .standalone ∧
      Keeper.adoptAlong (handOn 1 [loneNote]) [{ yields := none, allowsTail := false }] =
        some [[{ loneNote with rank := 1, affinity := some .nextNode }]] := by
  decide

end PolicyFormat.Policy
