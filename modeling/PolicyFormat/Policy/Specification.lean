import PolicyFormat.Policy.BlankLine
import PolicyFormat.Policy.Evaluation
import PolicyFormat.Policy.Parse
import PolicyFormat.Policy.Placement

/-!
From a policy text to its finished tree.
-/
namespace PolicyFormat.Policy.Specification

/-- The tree of a policy text with its comments placed, its blank lines marked and its lists in
their final form. -/
def ofText (tidying : Tidying) (text : String) : Except SyntaxError Specification :=
  let scan := Scan.ofText text
  match scan.parse with
  | .error refusal => .error (refusal.report text)
  | .ok parsed =>
    let empty := emptyLines text
    let isEmpty (line : Int) : Bool := empty.contains line
    let comments := Comment.markAll isEmpty
      (Comment.group text.toList isEmpty scan.lastLine scan.comments)
    let (placed, _) := Specification.receive parsed comments
    .ok ((placed.markBlankLines isEmpty).tidy tidying)

end PolicyFormat.Policy.Specification
