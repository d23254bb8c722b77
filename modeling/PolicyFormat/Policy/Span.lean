/-!
The stretch of text that a part of a policy file covers.
-/
namespace PolicyFormat.Policy

/-- First and last line, and the offsets of the first character and just after the last one.
Lines count from 1 and offsets from 0, in characters. -/
structure Span where
  startLine : Int
  endLine : Int
  start : Int
  stop : Int
deriving Repr, DecidableEq, Inhabited

namespace Span

def covers (s : Span) (line : Int) : Bool :=
  s.startLine ≤ line && line ≤ s.endLine

/-- The span written out: the lines, then the offsets. -/
def describe (s : Span) : String :=
  s!"({s.startLine}..{s.endLine}), ({s.start}..{s.stop})"

end Span

end PolicyFormat.Policy
