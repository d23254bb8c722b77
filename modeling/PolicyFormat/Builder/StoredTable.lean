import PolicyFormat.Datum.Reader
import PolicyFormat.Lr.TableFile

/-!
Parse tables read back from files. A table is kept as source text, which lists the entries by symbol, or
packed, which keeps them by state.
-/
namespace PolicyFormat.Builder

/-- A production as it is kept in a file. -/
structure StoredProduction where
  text : String
  name : String
  length : Nat
  action : Option String
deriving Repr, BEq

/-- A parse table as it is kept in a file. States without entries may be missing. -/
structure StoredTable where
  method : String
  signature : String
  actions : List (Nat × Keyed String Lr.Action)
  gotos : List (Nat × Keyed String Nat)
  productions : List StoredProduction

/-- What a file holds. -/
inductive Loaded where
  | nothing
  | outdated
  | table (t : StoredTable)

namespace StoredTable

def actionOf? : Datum → Option Lr.Action
  | .number n => some (.ofCode (some n))
  | .nothing => some (.ofCode none)
  | _ => none

def stateOf? (d : Datum) : Option Nat :=
  d.number?.map Int.toNat

/-- A production as data: its text, its name, its length and its routine, if it has one. -/
def productionOf? (d : Datum) : Option StoredProduction := do
  match ← d.items? with
  | text :: name :: length :: action :: _ =>
    return { text := ← text.text?, name := ← name.text?, length := ← stateOf? length
             action := action.text? }
  | _ => none

/-- The rows of a table that is listed by symbol, in the order of the states. -/
def rowsBySymbol? {α : Type} (entry : Datum → Option α) (d : Datum) :
    Option (List (Nat × Keyed String α)) := do
  let columns ← (← d.fields?).mapM fun (symbol, cells) => do
    match ← cells.items? with
    | [states, entries] =>
      let states ← (← states.items?).mapM stateOf?
      let entries ← (← entries.items?).mapM entry
      return (symbol, states.zip entries)
    | _ => none
  let rows : Keyed Nat (Keyed String α) := columns.foldl (fun rows (symbol, cells) =>
    cells.foldl (fun rows (state, x) => rows.update state {} (·.put symbol x)) rows) {}
  return rows.entries.mergeSort (fun a b => a.1 ≤ b.1)

def rowsByState? {α : Type} (entry : Datum → Option α) (d : Datum) :
    Option (List (Nat × Keyed String α)) := do
  (← d.items?).mapM fun row => do
    match ← row.items? with
    | [state, cells] =>
      let cells ← (← cells.fields?).mapM (fun (symbol, x) => (entry x).map (fun x => (symbol, x)))
      return (← stateOf? state, ⟨cells⟩)
    | _ => none

def ofParts? (actions : Option (List (Nat × Keyed String Lr.Action)))
    (gotos : Option (List (Nat × Keyed String Nat))) (method signature productions : Datum) :
    Option StoredTable := do
  return { method := ← method.text?, signature := ← signature.text?, actions := ← actions
           gotos := ← gotos, productions := ← (← productions.items?).mapM productionOf? }

def ofSource (text : String) : Loaded :=
  let all := Datum.assignments text
  let get (name : String) : Datum := (all.lookup name).getD .nothing
  match get "_tabversion" with
  | .nothing => .nothing
  | version =>
    if version != .text Lr.tableVersion then .outdated
    else
      let table := ofParts? (rowsBySymbol? actionOf? (get "_lr_action_items"))
        (rowsBySymbol? stateOf? (get "_lr_goto_items")) (get "_lr_method") (get "_lr_signature")
        (get "_lr_productions")
      (table.map Loaded.table).getD .nothing

/-- The rows of a table as data, by state. -/
def rowsDatum {α : Type} (entry : α → Datum) (rows : Array (Keyed String α)) : Datum :=
  .list (rows.toList.zipIdx.map fun (row, state) =>
    .tuple [.number state, .record (row.map entry).entries])

/-- The end of the first record of a packed table. -/
def packedMark : String := "\np0\n."

def pack (t : Lr.Table) (productions : List Production) (signature : String) : String :=
  let action (a : Lr.Action) : Datum := (a.code?.map Datum.number).getD .nothing
  let production (p : Production) : Datum :=
    .tuple [.text p.text, .text p.name, .number p.symbols.length, (p.action.map Datum.text).getD .nothing]
  let data : Datum := .list [.text t.method.name, .text signature, rowsDatum action t.actions,
    rowsDatum (fun (n : Nat) => .number n) t.gotos, .list (productions.map production)]
  "V" ++ Lr.tableVersion ++ packedMark ++ data.shown

def ofPacked (text : String) : Loaded :=
  match text.splitOn packedMark with
  | version :: rest =>
    if rest.isEmpty || !version.startsWith "V" then .nothing
    else if version != "V" ++ Lr.tableVersion then .outdated
    else
      let data := String.intercalate packedMark rest
      let table := do
        match ← (← Datum.read? data.toList).items? with
        | [method, signature, actions, gotos, productions] =>
          ofParts? (rowsByState? actionOf? actions) (rowsByState? stateOf? gotos) method signature productions
        | _ => none
      (table.map Loaded.table).getD .nothing
  | [] => .nothing

end StoredTable

end PolicyFormat.Builder
