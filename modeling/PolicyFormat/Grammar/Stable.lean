/-!
Repeating a step until it changes nothing.
-/
namespace PolicyFormat

/-- Repeats a step until it changes nothing, at most `limit` times. -/
def untilStable {α : Type} [BEq α] (step : α → α) : (limit : Nat) → α → α
  | 0, x => x
  | limit + 1, x =>
    let y := step x
    if y == x then x else untilStable step limit y

end PolicyFormat
