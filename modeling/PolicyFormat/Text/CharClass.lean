/-!
Classes of characters. A class is told by the lengths of the runs of code points that lie in turn
outside and inside of it, from the first code point on.
-/
namespace PolicyFormat.Text

/-- The code point lies in the class with the given runs, of which the first is `inside` or not. -/
def inRuns : (runs : List Nat) → (code : Nat) → (inside : Bool := false) → Bool
  | [], _, inside => inside
  | run :: runs, code, inside => if code < run then inside else inRuns runs (code - run) !inside

end PolicyFormat.Text
