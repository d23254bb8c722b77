import PolicyFormat.Layout.Line

/-!
The place in which a node is laid out, and the choice between several layouts.
-/
namespace PolicyFormat.Layout

/-- Why a layout cannot be made: a layout to choose from, or a run to go on from, has no lines; or
a comment does not start with a number sign. None of these happens for a policy that was read
from a text. -/
inductive LayoutError where
  | emptyCandidate
  | nothingToContinue
  | malformedComment
deriving Repr, DecidableEq

/-- Lines, or the reason why there are none. -/
abbrev Lines := Except LayoutError (List Line)

/-- Where a node stands and what it may do. `indent` is how far the node's lines after the first
are moved to the right, and `ancestorIndent` how far its ancestors move it. `keepsBlank`, if set,
overrides what the node itself says about the blank line before it. -/
structure Frame where
  pageWidth : Int := 100
  indent : Int := 0
  ancestorIndent : Int := 0
  mayBreakConstraint : Bool := true
  keepsBlank : Option Bool := none
  allowsBraceless : Bool := true
deriving Repr, DecidableEq, Inhabited

namespace Frame

/-- How far the node is moved to the right in all. -/
def depth (f : Frame) : Int :=
  f.indent + f.ancestorIndent

def availableWidth (f : Frame) : Int :=
  f.pageWidth - f.depth

/-- The frame of a part that is moved to the right by `indent`. -/
def child (f : Frame) (indent : Int := 0) (keepsBlank : Option Bool := none) : Frame :=
  { f with ancestorIndent := f.ancestorIndent + f.indent, indent, keepsBlank }

def indentRest (f : Frame) : List Line → List Line
  | [] => []
  | first :: rest =>
    first :: rest.map (fun l => { l with indent := some (l.indent.getD 0 + f.indent) })

end Frame

/-- The column at which a part goes on after a run of lines. -/
def widthAfter (run : List Line) : Except LayoutError Int :=
  match run.getLast? with
  | some last => .ok last.width
  | none => .error .nothingToContinue

/-- The spaces of a number of indentation levels. -/
def tabs (count : Int) : String :=
  String.ofList (List.replicate (2 * count).toNat ' ')

/-- The layout chosen and how many were tried. -/
structure Choice where
  lines : List Line
  tried : Nat
deriving Repr, DecidableEq

/-- Tries layouts in turn and takes the first that fits into the width that is left, or else the
last. -/
def choose (f : Frame) : List (Frame → Lines) → Except LayoutError Choice
  | [] => .ok ⟨[], 0⟩
  | candidate :: rest => do
    let lines ← candidate f
    match widest? lines with
    | none => .error .emptyCandidate
    | some width =>
      if width ≤ f.availableWidth || rest.isEmpty then .ok ⟨lines, 1⟩
      else
        let choice ← choose f rest
        .ok { choice with tried := choice.tried + 1 }

def firstThatFits (f : Frame) (candidates : List (Frame → Lines)) : Lines := do
  let choice ← choose f candidates
  return choice.lines

end PolicyFormat.Layout
