/-!
The names of scanner rules. A name gives the states of its rule and the kind of token, with underscores
between them: a rule that is named `t_a_b_WORD` gives tokens of the kind `WORD` in the states `a` and `b`.
-/
namespace PolicyFormat.Scanner

def initialState : String := "INITIAL"

def anyState : String := "ANY"

/-- The states and the kind of token that a name gives. The last part of the name is never a state. Without
states, the rule belongs to the initial state. -/
def ruleName? (name : String) (states : List String) : Option (List String × String) :=
  match (name.splitOn "_").drop 1 with
  | [] => none
  | parts =>
    let leading := (parts.takeWhile (fun p => states.contains p || p == anyState)).length
    let count := min leading (parts.length - 1)
    let named := parts.take count
    let found :=
      if named.isEmpty then [initialState]
      else if named.contains anyState then states
      else named
    some (found, String.intercalate "_" (parts.drop count))

end PolicyFormat.Scanner
