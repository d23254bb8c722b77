/-!
Lines of laid out text, and how runs of lines are joined end to end.
-/
namespace PolicyFormat.Layout

/-- A line with its indentation, if it has one of its own, and the comments at its end. -/
structure Line where
  text : String
  indent : Option Int := none
  tail : List String := []
deriving Repr, DecidableEq, Inhabited

namespace Line

def width (l : Line) : Int :=
  l.text.length + l.indent.getD 0

/-- Two lines made one. The first indentation there is counts. -/
def join (a b : Line) : Line :=
  ⟨a.text ++ b.text, a.indent <|> b.indent, a.tail ++ b.tail⟩

/-- The line as text. An empty line gets no indentation. -/
def render (l : Line) : String :=
  let text := l.text ++ String.join l.tail
  match l.indent with
  | some n => if text.isEmpty then text else String.ofList (List.replicate n.toNat ' ') ++ text
  | none => text

/-- The line as a reader of a log sees it. -/
def describe (l : Line) : String :=
  let indent := match l.indent with
    | some n => toString n
    | none => "None"
  "Line(\"" ++ l.text ++ "\", " ++ indent ++ ")"

end Line

/-- Joins two runs of lines: the last line of the first run goes on with the first line of the
second. -/
def joinTwo : List Line → List Line → List Line
  | [], second => second
  | first, [] => first
  | [a], b :: rest => a.join b :: rest
  | a :: more, second => a :: joinTwo more second

def joinLines (runs : List (List Line)) : List Line :=
  runs.foldl joinTwo []

/-- Joins runs of which some may be missing. A missing run is like one without lines. -/
def joinPresent (runs : List (Option (List Line))) : List Line :=
  joinLines (runs.map (·.getD []))

def widest? : List Line → Option Int
  | [] => none
  | l :: rest => some (rest.foldl (fun w l => max w l.width) l.width)

/-- The run that joins what is before it and what is after it by a line break. -/
def lineBreak : List Line :=
  [{ text := "" }, { text := "" }]

end PolicyFormat.Layout
