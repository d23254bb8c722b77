import PolicyFormat.Policy.Error
import PolicyFormat.Policy.Scan

/-!
Reading a policy text token by token. A reader knows its place in the text; copies of a reader
go on by themselves but share the stack of states and the comments found.
-/
namespace PolicyFormat.Policy

/-- One reader. There is only one state that a policy reader can be in, its initial one. -/
structure Reader where
  text : Option String := none
  offset : Int := 0
  line : Int := 1
deriving Repr, DecidableEq

/-- The readers, current one first, and what they share. -/
structure Reading where
  current : Reader := {}
  others : List Reader := []
  states : List String := []
  comments : List CommentToken := []
deriving Repr, DecidableEq

/-- Why a step fails. -/
inductive ReadError where
  | syntaxError (error : SyntaxError)
  | noText
  | noMoreTokens
  | unknownState
  | noStateToReturnTo
  | outsideText
deriving Repr, DecidableEq

namespace Reader

def initialState : String := "INITIAL"

end Reader

namespace Reading

/-- A step changes the readers and has a result or fails; a step that fails may have changed
something too. -/
abbrev Step (α : Type) := ExceptT ReadError (StateM Reading) α

/-- The next token, or nothing at the end of the text. -/
def token : Step (Option Token) := do
  let r ← get
  let reader := r.current
  match reader.text with
  | none =>
    set { r with current := { reader with offset := reader.offset + 1 } }
    throw .noText
  | some text =>
    let cs := text.toList
    if reader.offset + cs.length < 0 then throw .outsideText
    let scan := Scan.scanFrom reader.line (max reader.offset 0) 0 (cs.drop reader.offset.toNat)
    match scan.tokens, scan.ending with
    | t :: _, _ =>
      let passed := scan.comments.filter (fun c => c.offset < t.offset)
      set { r with
        current := { reader with offset := t.stop, line := t.endLine }
        comments := r.comments ++ passed }
      return some t
    | [], .complete line offset =>
      let offset := max offset (reader.offset + 1)
      set { r with
        current := { reader with offset, line }
        comments := r.comments ++ scan.comments }
      return none
    | [], .unreadable rest line offset =>
      set { r with
        current := { reader with offset, line }
        comments := r.comments ++ scan.comments }
      throw (.syntaxError (.ofFragment rest line text offset))

def nextToken : Step Token := do
  match ← token with
  | some t => return t
  | none => throw .noMoreTokens

/-- Starts on a text. The line number goes on. -/
def input (text : String) : Step Unit :=
  modify fun r => { r with current := { r.current with text := some text, offset := 0 } }

/-- Moves the place in the text. -/
def skip (count : Int) : Step Unit :=
  modify fun r => { r with current := { r.current with offset := r.current.offset + count } }

def setLine (line : Int) : Step Unit :=
  modify fun r => { r with current := { r.current with line } }

def enter (state : String) : Step Unit := do
  if state != Reader.initialState then throw .unknownState

/-- Goes to a state and notes the current one. -/
def push (state : String) : Step Unit := do
  modify fun r => { r with states := r.states ++ [Reader.initialState] }
  enter state

/-- Goes back to the state noted last. -/
def pop : Step Unit := do
  let r ← get
  match r.states.getLast? with
  | none => throw .noStateToReturnTo
  | some state =>
    set { r with states := r.states.dropLast }
    enter state

/-- Goes on with a copy of the current reader. -/
def copy : Step Unit :=
  modify fun r => { r with others := r.current :: r.others }

/-- Goes back to the reader that was copied last. -/
def discard : Step Unit :=
  modify fun r =>
    match r.others with
    | reader :: others => { r with current := reader, others }
    | [] => r

end Reading

end PolicyFormat.Policy
