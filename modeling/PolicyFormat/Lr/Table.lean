import PolicyFormat.Lr.Lookahead
import PolicyFormat.Text.Pad

/-!
Parse tables. Each state has an action for some terminals and a target for some nonterminals. Where a
terminal allows more than one action, precedence and the order of the rules decide, and the decision is
noted as a conflict unless precedence made it. The construction keeps a log of all states.
-/
namespace PolicyFormat.Lr

open Text

/-- The way in which lookaheads are found. -/
inductive Method where
  | slr | lalr
deriving Repr, BEq, DecidableEq

def Method.name : Method → String
  | .slr => "SLR"
  | .lalr => "LALR"

def Method.ofName? : String → Option Method
  | "SLR" => some .slr
  | "LALR" => some .lalr
  | _ => none

/-- Why no table could be made. -/
inductive TableError where
  | unsupportedMethod (name : String)
  | undefinedSymbol (name : String)
  | unknownConflict (state : Nat)
  | shiftShift (state : Nat)
deriving Repr, BEq

def TableError.message : TableError → String
  | .unsupportedMethod name => "Unsupported method " ++ name
  | .undefinedSymbol name => "Undefined symbol " ++ name
  | .unknownConflict state => "Unknown conflict in state " ++ toString state
  | .shiftShift state => "Shift/shift conflict in state " ++ toString state

/-- What to do in a state at a terminal. -/
inductive Action where
  | shift (state : Nat)
  | reduce (production : Nat)
  | accept
  | forbid
deriving Repr, BEq, DecidableEq

/-- The number for an action in tables: positive to shift, negative to reduce, zero to accept, and none for
an input that is forbidden. -/
def Action.code? : Action → Option Int
  | .shift state => some state
  | .reduce production => some (-(production : Int))
  | .accept => some 0
  | .forbid => none

def Action.ofCode : Option Int → Action
  | none => .forbid
  | some n => if n > 0 then .shift n.toNat else if n < 0 then .reduce (-n).toNat else .accept

/-- The outcome of a choice between shift and reduce. -/
inductive Resolution where
  | shift | reduce
deriving Repr, BEq

def Resolution.word : Resolution → String
  | .shift => "shift"
  | .reduce => "reduce"

/-- A choice between shift and reduce that precedence did not make. -/
structure ShiftReduce where
  state : Nat
  terminal : String
  resolution : Resolution
deriving Repr

/-- A choice between two reductions. -/
structure ReduceReduce where
  state : Nat
  chosen : Production
  rejected : Production
deriving Repr

/-- An action of a state, and the item that calls for it. -/
structure Entry where
  action : Action
  item : Item
deriving Repr

/-- An action that some item calls for, whether it is taken or not. -/
structure Proposal where
  terminal : String
  item : Item
  text : String

/-- A table under construction: finished rows, the row of the current state, and notes. -/
structure Building where
  actions : Array (Keyed String Action) := #[]
  gotos : Array (Keyed String Nat) := #[]
  row : Keyed String Entry := {}
  proposals : List Proposal := []
  shiftReduce : List ShiftReduce := []
  reduceReduce : List ReduceReduce := []
  reductions : Array Int := #[]
  log : List String := []

/-- Steps of the construction. The notes made before an error stay. -/
abbrev Build := ExceptT TableError (StateM Building)

namespace Build

def say (line : String) : Build Unit :=
  modify (fun b => { b with log := line :: b.log })

def enter (terminal : String) (action : Action) (item : Item) : Build Unit :=
  modify (fun b => { b with row := b.row.put terminal ⟨action, item⟩ })

def count (production : Nat) (n : Int) : Build Unit :=
  modify (fun b => { b with reductions := b.reductions.modify production (· + n) })

/-- Notes an action that an item calls for. -/
def propose (terminal : String) (item : Item) (text : String) : Build Unit :=
  modify (fun b => { b with proposals := ⟨terminal, item, text⟩ :: b.proposals })

def noteShiftReduce (state : Nat) (terminal : String) (r : Resolution) : Build Unit := do
  say ("  ! shift/reduce conflict for " ++ terminal ++ " resolved as " ++ r.word)
  modify (fun b => { b with shiftReduce := ⟨state, terminal, r⟩ :: b.shiftReduce })

def offerReduce (g : Grammar) (state : Nat) (item : Item) (terminal : String) : Build Unit := do
  let rule := item.rule g
  propose terminal item
    ("reduce using rule " ++ toString rule.number ++ " (" ++ item.text g ++ ")")
  let take : Build Unit := do
    enter terminal (.reduce rule.number) item
    count rule.number 1
  match (← get).row.get? terminal with
  | none => take
  | some ⟨.forbid, _⟩ => take
  | some ⟨.accept, _⟩ => throw (.unknownConflict state)
  | some ⟨.shift _, other⟩ =>
    let shifted := (other.rule g).precedence
    let here := g.precedenceOf terminal
    if shifted.level < here.level || (shifted.level == here.level && here.associativity == .left) then
      enter terminal (.reduce rule.number) item
      if shifted.level == 0 && here.level == 0 then noteShiftReduce state terminal .reduce
      count rule.number 1
    else if shifted.level == here.level && here.associativity == .nonassoc then
      enter terminal .forbid other
    else if here.level == 0 then noteShiftReduce state terminal .shift
  | some ⟨.reduce n, other⟩ =>
    let old := g.production n
    let (chosen, rejected, winner) ←
      if old.place.line > rule.place.line then do
        take
        count old.number (-1)
        pure (rule, old, item)
      else pure (old, rule, other)
    modify (fun b => { b with reduceReduce := ⟨state, chosen, rejected⟩ :: b.reduceReduce })
    say ("  ! reduce/reduce conflict for " ++ terminal ++ " resolved using rule "
      ++ toString winner.production ++ " (" ++ winner.text g ++ ")")

def offerShift (g : Grammar) (state : Nat) (item : Item) (terminal : String) (target : Nat) :
    Build Unit := do
  propose terminal item ("shift and go to state " ++ toString target)
  match (← get).row.get? terminal with
  | none => enter terminal (.shift target) item
  | some ⟨.forbid, _⟩ => enter terminal (.shift target) item
  | some ⟨.accept, _⟩ => throw (.unknownConflict state)
  | some ⟨.shift n, _⟩ => if n != target then throw (.shiftShift state)
  | some ⟨.reduce _, other⟩ =>
    let reduced := (other.rule g).precedence
    let here := g.precedenceOf terminal
    if here.level > reduced.level || (here.level == reduced.level && reduced.associativity == .right) then
      count other.production (-1)
      enter terminal (.shift target) item
      if reduced.level == 0 then noteShiftReduce state terminal .shift
    else if here.level == reduced.level && reduced.associativity == .nonassoc then
      enter terminal .forbid other
    else if here.level == 0 && reduced.level == 0 then noteShiftReduce state terminal .reduce

def offer (g : Grammar) (states : Array ItemSet) (state : Nat) (lookaheads : Item → List String)
    (item : Item) : Build Unit := do
  match item.next? g with
  | none =>
    if (item.rule g).name == Grammar.startName then enter Grammar.endSymbol .accept item
    else (lookaheads item).forM (offerReduce g state item)
  | some symbol =>
    if g.isTerminal symbol then
      match (states[state]?).bind (·.move? symbol) with
      | some target => offerShift g state item symbol target
      | none => return

/-- Logs the proposals of the current state: first those that were taken, then the others. -/
def sayProposals : Build Unit := do
  let b ← get
  let proposals := b.proposals.reverse
  let taken (p : Proposal) : Bool := ((b.row.get? p.terminal).map (·.item)) == some p.item
  let chosen := proposals.filter taken
  chosen.forM (fun p => say ("    " ++ padRight 15 p.terminal ++ " " ++ p.text))
  say ""
  let shown := chosen.map (fun p => (p.terminal, p.text))
  let others := (proposals.filter (fun p => !taken p)).map (fun p => (p.terminal, p.text))
  let others := addAllNew [] (others.filter (fun p => !shown.contains p))
  others.forM (fun p => say ("  ! " ++ padRight 15 p.1 ++ " [ " ++ p.2 ++ " ]"))
  if !others.isEmpty then say ""

def addState (g : Grammar) (states : Array ItemSet) (lookaheads : Nat → Item → List String)
    (state : Nat) (s : ItemSet) : Build Unit := do
  say ""
  say ("state " ++ toString state)
  say ""
  s.items.forM (fun i => say ("    (" ++ toString i.production ++ ") " ++ i.text g))
  say ""
  modify (fun b => { b with row := {}, proposals := [] })
  s.items.forM (offer g states state (lookaheads state))
  sayProposals
  let targets := s.moves.filter (fun m => g.isNonterminal m.1)
  targets.forM (fun m =>
    say ("    " ++ padRight 30 m.1 ++ " shift and go to state " ++ toString m.2))
  modify (fun b => { b with
    actions := b.actions.push (b.row.map (·.action))
    gotos := b.gotos.push ⟨targets⟩ })

def allStates (g : Grammar) (method : Method) : Build Unit := do
  match g.withoutRule? with
  | some name => throw (.undefinedSymbol name)
  | none =>
    say ("Parsing method: " ++ method.name)
    modify (fun b => { b with reductions := Array.replicate (g.rules.size + 1) 0 })
    let states := collection g
    let find : Nat → Item → List String := match method with
      | .lalr =>
        let looks := lookaheads g states
        fun state item => ((looks[state]?).bind (·.get? item)).getD []
      | .slr =>
        let follow := g.followSets
        fun _ item => Grammar.SymbolSets.of follow (item.rule g).name
    states.toList.zipIdx.forM (fun (s, n) => addState g states find n s)

end Build

/-- A finished parse table. -/
structure Table where
  method : Method
  actions : Array (Keyed String Action)
  gotos : Array (Keyed String Nat)
  shiftReduce : List ShiftReduce
  reduceReduce : List ReduceReduce
  reductions : List Int

/-- Makes the parse table of a grammar. The log is there also if the table fails. -/
def Table.ofGrammar (g : Grammar) (method : Method) : List String × Except TableError Table :=
  let (result, b) := (Build.allStates g method).run.run {}
  (b.log.reverse, result.map (fun _ =>
    { method, actions := b.actions, gotos := b.gotos, shiftReduce := b.shiftReduce.reverse
      reduceReduce := b.reduceReduce.reverse, reductions := b.reductions.toList }))

def Table.ofMethodName (g : Grammar) (name : String) : List String × Except TableError Table :=
  match Method.ofName? name with
  | some method => ofGrammar g method
  | none => ([], .error (.unsupportedMethod name))

end PolicyFormat.Lr
