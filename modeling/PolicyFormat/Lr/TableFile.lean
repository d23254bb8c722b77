import PolicyFormat.Lr.Table

/-!
Parse tables as source text that makes the table again when it is loaded.
-/
namespace PolicyFormat.Lr

open Text

def tableVersion : String := "3.2"

/-- The columns of a table: for each symbol, the states that have an entry for it and the entries. -/
def columns {α : Type} (rows : List (Nat × Keyed String α)) : Keyed String (List (Nat × α)) :=
  rows.foldl (fun cols (state, row) =>
    row.entries.foldl (fun cols (symbol, x) => cols.update symbol [] (· ++ [(state, x)])) cols) {}

def columnsText {α : Type} (entry : α → String) (rows : List (Nat × Keyed String α)) : String :=
  let numbers (xs : List String) : String := String.join (xs.map (· ++ ","))
  "\x7b" ++ String.join ((columns rows).entries.map fun (symbol, cells) =>
    quote symbol ++ ":([" ++ numbers (cells.map (toString ·.1)) ++ "],["
      ++ numbers (cells.map (fun c => entry c.2)) ++ "]),") ++ "\x7d\n"

def Action.text (a : Action) : String :=
  match a.code? with
  | some n => toString n
  | none => "None"

def productionText (p : Production) : String :=
  let head := "  (" ++ quote p.text ++ "," ++ quote p.name ++ "," ++ toString p.symbols.length ++ ","
  match p.action with
  | some action =>
    head ++ quote action ++ "," ++ quote p.place.file ++ "," ++ toString p.place.line ++ "),\n"
  | none => head ++ "None,None,None),\n"

/-- The lines that spread the columns of actions over the states. -/
def actionLoop : String :=
  "\n_lr_action = \x7b \x7d\n"
    ++ "for _k, _v in _lr_action_items.items():\n"
    ++ "   for _x,_y in zip(_v[0],_v[1]):\n"
    ++ "      if not _x in _lr_action:  _lr_action[_x] = \x7b \x7d\n"
    ++ "      _lr_action[_x][_k] = _y\n"
    ++ "del _lr_action_items\n"

/-- The lines that spread the columns of targets over the states. -/
def gotoLoop : String :=
  "\n_lr_goto = \x7b \x7d\n"
    ++ "for _k, _v in _lr_goto_items.items():\n"
    ++ "   for _x,_y in zip(_v[0],_v[1]):\n"
    ++ "       if not _x in _lr_goto: _lr_goto[_x] = \x7b \x7d\n"
    ++ "       _lr_goto[_x][_k] = _y\n"
    ++ "del _lr_goto_items\n"

def Table.fileText (t : Table) (productions : List Production) (file signature : String) : String :=
  let numbered {α : Type} (rows : Array α) : List (Nat × α) :=
    rows.toList.zipIdx.map (fun (row, n) => (n, row))
  "\n# " ++ file ++ "\n# This file is automatically generated. Do not edit.\n_tabversion = "
    ++ quote tableVersion ++ "\n\n_lr_method = " ++ quote t.method.name
    ++ "\n\n_lr_signature = " ++ quote signature ++ "\n    \n_lr_action_items = "
    ++ columnsText Action.text (numbered t.actions) ++ actionLoop
    ++ "\n_lr_goto_items = " ++ columnsText (toString ·) (numbered t.gotos) ++ gotoLoop
    ++ "_lr_productions = [\n" ++ String.join (productions.map productionText) ++ "]\n"

/-- The last part of a dotted module name. -/
def moduleBase (module : String) : String :=
  (module.splitOn ".").getLastD module

def tableFileName (directory module : String) : String :=
  let base := moduleBase module
  let path :=
    if base.startsWith "/" then base
    else if directory.isEmpty || directory.endsWith "/" then directory ++ base
    else directory ++ "/" ++ base
  path ++ ".py"

end PolicyFormat.Lr
