import PolicyFormat.Datum.Basic

/-!
What a scanner's routine does with a token.
-/
namespace PolicyFormat.Builder

/-- A step of a scanner's routine. -/
inductive Step where
  /-- Gives the token another kind. -/
  | retype (kind : Datum)
  /-- Gives the token another value. -/
  | revalue (value : Datum)
  /-- Counts the line feeds of the value as lines. -/
  | countLines
  | enter (state : String)
  /-- Enters a state from which one comes back. -/
  | push (state : String)
  /-- Comes back to the state before. -/
  | pop
  | skip (n : Int)
  /-- There is no token. -/
  | drop
deriving Repr, BEq

end PolicyFormat.Builder
