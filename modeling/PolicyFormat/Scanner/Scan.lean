import PolicyFormat.Scanner.Basic
import PolicyFormat.Text.Index

/-!
Scanning a text. At each place the skipped characters of the state are passed over, the expressions of the
state are tried in order, then the literals, and last the handler of the state is called.
-/
namespace PolicyFormat.Scanner

open Builder

/-- A token that was found. -/
structure Scanned where
  kind : Datum
  value : Datum
  line : Int
  position : Int
deriving Repr, BEq

/-- Why scanning stopped. -/
inductive ScanFault where
  /-- A routine returned a token of a kind that is not declared. -/
  | unknownKind (file : String) (r : Routine) (kind : Datum) (rest : String)
  /-- The handler did not move on. -/
  | stuck (c : Char) (rest : String)
  /-- No rule fits, and there is no handler. -/
  | illegal (c : Char) (position : Int) (rest : String)
  | unknownState
  /-- There is no state to come back to. -/
  | noStateBefore
  /-- The group that was matched has no rule. -/
  | groupWithoutRule
  /-- The group that was matched is beyond all rules. -/
  | groupBeyondRules
  | outsideText
  /-- Lines are counted in a value that is no text. -/
  | valueNotText
deriving Repr, BEq

def ScanFault.message : ScanFault → String
  | .unknownKind file r kind _ =>
    Place.text ⟨file, r.line⟩ ++ ": Rule '" ++ r.name ++ "' returned an unknown token type '"
      ++ kind.plain ++ "'"
  | .stuck c _ => "Scanning error. Illegal character '" ++ String.ofList [c] ++ "'"
  | .illegal c position _ =>
    "Illegal character '" ++ String.ofList [c] ++ "' at index " ++ toString position
  | .unknownState => "Undefined state"
  | _ => ""

def ScanFault.rest? : ScanFault → Option String
  | .unknownKind _ _ _ rest => some rest
  | .stuck _ rest => some rest
  | .illegal _ _ rest => some rest
  | _ => none

/-- A scanner at a place in a text. -/
structure Session where
  scanner : Scanner
  text : Array Char
  position : Int := 0
  line : Int := 1
  state : String := initialState
  /-- The states to come back to, the last first. -/
  stack : List String := []

abbrev Scan := ExceptT ScanFault (StateM Session)

/-- The text from a place on. -/
def Session.restFrom (s : Session) (position : Int) : String :=
  String.ofList (Text.dropFrom s.text.toList position)

def Session.charAt (s : Session) (position : Int) : Except ScanFault Char :=
  match Text.pick? s.text.toList position with
  | some (c, _) => .ok c
  | none => .error .outsideText

def enter (state : String) : Scan Unit := do
  if (← get).scanner.rules.contains state then modify (fun s => { s with state })
  else throw .unknownState

def doStep (t : Scanned) : Step → Scan Scanned
  | .retype kind => return { t with kind }
  | .revalue value => return { t with value }
  | .countLines => do
    match t.value with
    | .text value =>
      modify (fun s => { s with line := s.line + value.toList.count '\n' })
      return t
    | _ => throw .valueNotText
  | .enter state => do
    enter state
    return t
  | .push state => do
    modify (fun s => { s with stack := s.state :: s.stack })
    enter state
    return t
  | .pop => do
    match (← get).stack with
    | [] => throw .noStateBefore
    | state :: stack =>
      modify (fun s => { s with stack })
      enter state
      return t
  | .skip n => do
    modify (fun s => { s with position := s.position + n })
    return t
  | .drop => return t

/-- Calls a routine with a token. The result is the token, unless the routine drops it. -/
def call (r : Routine) (t : Scanned) : Scan (Option Scanned) := do
  let t ← r.steps.foldlM doStep t
  return if r.steps.contains .drop then none else some t

/-- The first expression of the state that fits at a place, and what it matched. -/
def Session.firstFit? (s : Session) (position : Int) : Option (Alternatives × Pattern.Reached) :=
  (s.scanner.rulesOf s.state).findSome? fun a =>
    (a.pattern.matchAt? s.text position.toNat).map (fun r => (a, r))

/-- What is done for a match. -/
def foundBy (a : Alternatives) (r : Pattern.Reached) : Except ScanFault Found :=
  match a.found[r.lastGroup.getD 0]? with
  | none => .error .groupBeyondRules
  | some none => .error .groupWithoutRule
  | some (some found) => .ok found

/-- Finds the next token from a place on, where some characters are skipped. There is none at the end of the
text. -/
def nextFrom : (limit : Nat) → (position : Int) → (ignored : List Char) → Scan (Option Scanned)
  | 0, _, _ => return none
  | limit + 1, position, ignored => do
    let s ← get
    if position ≥ s.text.size then
      set { s with position := position + 1 }
      return none
    let c ← s.charAt position
    if ignored.contains c then return ← nextFrom limit (position + 1) ignored
    match s.firstFit? position with
    | some (a, reached) =>
      let value := String.ofList (s.text.extract position.toNat reached.position).toList
      let token (kind : String) : Scanned :=
        { kind := .text kind, value := .text value, line := s.line, position }
      match ← foundBy a reached with
      | { routine := none, kind } =>
        match kind.filter (fun k => !k.isEmpty) with
        | none => nextFrom limit reached.position ignored
        | some kind =>
          set { s with position := reached.position }
          return some (token kind)
      | { routine := some r, kind } =>
        set { s with position := reached.position }
        match ← call r (token (kind.getD "")) with
        | none =>
          let s ← get
          nextFrom limit s.position (s.scanner.ignoredIn s.state)
        | some t =>
          if s.scanner.checked && !s.scanner.tokens.contains t.kind then
            throw (.unknownKind s.scanner.file r t.kind (s.restFrom reached.position))
          return some t
    | none =>
      if s.scanner.literalChars.contains c then
        set { s with position := position + 1 }
        let value := Datum.text (String.ofList [c])
        return some { kind := value, value, line := s.line, position }
      set { s with position }
      match s.scanner.handlerOf? s.state with
      | none => throw (.illegal c position (s.restFrom position))
      | some r =>
        let t ← call r { kind := .text "error", value := .text (s.restFrom position), line := s.line, position }
        let after := (← get).position
        if after == position then throw (.stuck c (s.restFrom position))
        match t with
        | none => nextFrom limit after ignored
        | some t => return some t

def Session.limit (s : Session) : Nat :=
  (s.text.size + 2) * (s.text.size + 2) * (s.scanner.states.entries.length + 2)

def next : Scan (Option Scanned) := do
  let s ← get
  nextFrom s.limit s.position (s.scanner.ignoredIn s.state)

/-- A token, with the place and the state of the scanner after it. -/
structure ScannedAfter where
  token : Scanned
  position : Int
  state : String
deriving Repr, BEq

/-- The tokens of a text up to its end or a fault, and the session after them. -/
structure ScanRun where
  tokens : List ScannedAfter := []
  fault : Option ScanFault := none
  last : Session

def tokensUpTo : (limit : Nat) → Session → ScanRun
  | 0, s => { last := s }
  | limit + 1, s =>
    match next.run.run s with
    | (.error fault, s) => { fault := some fault, last := s }
    | (.ok none, s) => { last := s }
    | (.ok (some token), s) =>
      let run := tokensUpTo limit s
      { run with tokens := { token, position := s.position, state := s.state } :: run.tokens }

/-- Finds all tokens of a text. The states in `stack` are there to come back to. -/
def run (scanner : Scanner) (text : String) (stack : List String := []) : ScanRun :=
  let s : Session := { scanner, text := text.toList.toArray, stack }
  tokensUpTo s.limit s

end PolicyFormat.Scanner
