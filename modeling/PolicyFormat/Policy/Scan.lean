import PolicyFormat.Text.Blank
import PolicyFormat.Policy.Lexeme

/-!
Reading a policy text piece by piece. A scan collects the tokens and the comments apart, and ends
at the end of the text or before the first character that starts no piece.
-/
namespace PolicyFormat.Policy

/-- Where and how a scan ends. After a complete scan the offset is one more than the place of the
end. -/
inductive Ending where
  | complete (line offset : Int)
  | unreadable (rest : String) (line offset : Int)
deriving Repr, DecidableEq, Inhabited

/-- What a scan finds. -/
structure Scan where
  tokens : List Token
  comments : List CommentToken
  ending : Ending
deriving Repr, DecidableEq, Inhabited

namespace Scan

/-- Scans a text that starts on the given line at the given offset. The first `pending`
characters belong to a piece that is already accounted for. -/
def scanFrom (line offset : Int) : (pending : Nat) → List Char → Scan
  | _, [] => ⟨[], [], .complete line (offset + 1)⟩
  | pending + 1, _ :: rest => scanFrom line offset pending rest
  | 0, c :: rest =>
    match Lexeme.front? (c :: rest) with
    | none => ⟨[], [], .unreadable (String.ofList (c :: rest)) line offset⟩
    | some (lexeme, piece) =>
      let after := scanFrom (line + piece.count '\n') (offset + piece.length) (piece.length - 1) rest
      match lexeme with
      | .space => after
      | .comment =>
        let text := String.ofList (Text.trimRight piece)
        { after with comments := ⟨text, line, offset⟩ :: after.comments }
      | .token kind =>
        { after with tokens := ⟨kind, String.ofList piece, line, offset⟩ :: after.tokens }

def ofText (text : String) : Scan :=
  scanFrom 1 0 0 text.toList

def lastLine (s : Scan) : Int :=
  match s.ending with
  | .complete line _ => line
  | .unreadable _ line _ => line

def lastOffset (s : Scan) : Int :=
  match s.ending with
  | .complete _ offset => offset
  | .unreadable _ _ offset => offset

end Scan

end PolicyFormat.Policy
