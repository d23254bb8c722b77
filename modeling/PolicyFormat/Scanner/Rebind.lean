import PolicyFormat.Scanner.Scan

/-!
Scanners with the expressions of another scanner and routines of their own.
-/
namespace PolicyFormat.Scanner

open Builder

def namesake? (routines : List Routine) (r : Routine) : Option Routine :=
  routines.find? (fun other => other.name == r.name)

/-- The same groups with other routines, if there is one for each. -/
def Alternatives.rebind? (routines : List Routine) (a : Alternatives) : Option Alternatives := do
  let found ← a.found.mapM fun
    | some { routine := some r, kind } => do
      let other ← namesake? routines r
      return some { routine := some other, kind }
    | found => return found
  return { a with found }

/-- The same scanner with other routines. Each state keeps only the last of its expressions. There has to be
a routine of the same name for each routine, and a handler for each state that is listed with one. -/
def rebind? (s : Scanner) (routines : List Routine) : Option Scanner := do
  let rules ← s.rules.entries.mapM fun (state, all) => do
    let all ← all.mapM (Alternatives.rebind? routines)
    return (state, all.getLast?.toList)
  let handlers ← s.handlers.entries.mapM fun (state, handler) => do
    return (state, some (← namesake? routines (← handler)))
  return { s with rules := ⟨rules⟩, handlers := ⟨handlers⟩ }

/-- Scans a text with other routines and then with the scanner's own. Both share the states to come back
to. -/
def runBoth? (s : Scanner) (routines : List Routine) (text : String) : Option (ScanRun × ScanRun) := do
  let other := (← s.rebind? routines).run text
  return (other, s.run text other.last.stack)

end PolicyFormat.Scanner
