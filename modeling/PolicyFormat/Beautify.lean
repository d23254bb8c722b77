import PolicyFormat.Layout.Policy
import PolicyFormat.Policy.Specification

/-!
Beautifying a policy text.
-/
namespace PolicyFormat

open Policy Layout

/-- What a user can choose. Without a line ending, that of the text is kept. -/
structure Options where
  pageWidth : Int := 100
  tidying : Tidying := {}
  lineEnding : Option String := none
deriving Repr, DecidableEq

/-- The line ending to use: the one that is asked for, or else a carriage return and a line feed
if the text has these two together anywhere, or else a line feed. -/
def lineEndingFor (text : String) (asked : Option String) : String :=
  match asked.filter (fun e => !e.isEmpty) with
  | some ending => ending
  | none => if hasCarriageReturn text.toList then "\r\n" else "\n"
where
  /-- A carriage return with a line feed after it is somewhere in the text. -/
  hasCarriageReturn : List Char → Bool
  | '\r' :: '\n' :: _ => true
  | _ :: rest => hasCarriageReturn rest
  | [] => false

/-- Why a text could not be beautified. -/
inductive Failure where
  | syntaxError (error : SyntaxError)
  | layout (error : LayoutError)
deriving Repr, DecidableEq

/-- The lines of a beautified text. -/
def beautifiedLines (options : Options) (text : String) : Except Failure (List Line) :=
  match Specification.ofText options.tidying text with
  | .error error => .error (.syntaxError error)
  | .ok specification =>
    match specificationLines specification { pageWidth := options.pageWidth } with
    | .error error => .error (.layout error)
    | .ok lines => .ok lines

/-- The beautified text. -/
def beautify (options : Options) (text : String) : Except Failure String := do
  let lines ← beautifiedLines options text
  return renderLines (lineEndingFor text options.lineEnding) lines

end PolicyFormat
