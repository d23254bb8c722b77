import PolicyFormat.Beautify

/-!
The editor command: what it does to the view of a policy file.
-/
namespace PolicyFormat.Editor

/-- A stretch of the text, from where the user started to where the cursor is. -/
structure Region where
  a : Int
  b : Int
deriving Repr, DecidableEq

/-- A view of a file. -/
structure View where
  fileName : Option String
  text : String
  lineEndings : String := "Unix"
  selection : List Region := [⟨0, 0⟩]
  viewport : List Int := [0, 0]
  status : List (String × String) := []
  regions : List (String × List Region) := []
deriving Repr, DecidableEq

/-- What a user has set. A page width may be set to nothing, with which nothing can be laid
out. -/
structure Settings where
  beautifiesOnSave : Bool := true
  pageWidth : Option Int := some 100
  removesEmptyPromiseTypes : Bool := true
  sortsPromiseTypes : Bool := true
deriving Repr, DecidableEq

/-- What the command asks the view to do. -/
inductive Call where
  | replace (region : Region)
  | setStatus (key text : String)
  | addRegions (key : String) (regions : List Region) (scope icon : String)
  | eraseRegions (key : String)
  | showAtCenter (region : Region)
  | setViewport (position : List Int) (animate : Bool)
  | runCommand (name : String)
deriving Repr, DecidableEq

/-- What the command restores of a view. The regions that were selected are not copied: they are read from
the view once they are asked for. -/
structure ViewState where
  selection : View → List Region
  viewport : List Int

/-- What is to be restored of a view. -/
def View.state (view : View) : ViewState where
  selection now := now.selection
  viewport := view.viewport

/-- The options with which the text of a view is beautified. -/
def Settings.optionsFor (settings : Settings) (view : View) : Options where
  pageWidth := settings.pageWidth.getD 0
  tidying := {
    removesEmptyPromiseTypes := settings.removesEmptyPromiseTypes
    sortsPromiseTypes := settings.sortsPromiseTypes }
  lineEnding := some (if view.lineEndings == "Windows" then "\r\n" else "\n")

/-- Why the command breaks off. -/
inductive EditorError where
  | noFileName
  | noPageWidth
  | layout (error : Layout.LayoutError)
deriving Repr, DecidableEq

/-- The view while the command runs, with the calls made so far. -/
structure Editing where
  view : View
  calls : List Call := []

/-- A step of the command. -/
abbrev Edit (α : Type) := ExceptT EditorError (StateM Editing) α

/-- The name under which the command shows its status. -/
def statusKey : String := "cfengine-beautifier"

/-- The name of the regions that mark errors. -/
def errorKey : String := "parser_errors"

namespace Edit

/-- Notes a call and does to the view what it asks for. -/
def call (c : Call) (f : View → View := id) : Edit Unit :=
  modify fun e => { view := f e.view, calls := e.calls ++ [c] }

/-- Shows a text in the status bar. -/
def setStatus (text : String) : Edit Unit :=
  call (.setStatus statusKey text) fun v =>
    { v with status := (v.status.filter (·.1 != statusKey)) ++ [(statusKey, text)] }

/-- Marks the place of an error. -/
def markError (region : Region) : Edit Unit :=
  call (.addRegions errorKey [region] "invalid.illegal" "circle") fun v =>
    { v with regions := (v.regions.filter (·.1 != errorKey)) ++ [(errorKey, [region])] }

/-- Takes away the marks of errors. -/
def eraseErrors : Edit Unit :=
  call (.eraseRegions errorKey) fun v => { v with regions := v.regions.filter (·.1 != errorKey) }

/-- Scrolls to a position. -/
def setViewport (position : List Int) : Edit Unit :=
  call (.setViewport position false) fun v => { v with viewport := position }

/-- Puts a text in place of the whole text. -/
def replaceAll (text : String) : Edit Unit := do
  let size := (← get).view.text.length
  call (.replace ⟨0, size⟩) fun v => { v with text }

/-- Selects nothing. -/
def clearSelection : Edit Unit :=
  modify fun e => { e with view := { e.view with selection := [] } }

/-- Selects a region besides those that are selected already. -/
def select (region : Region) : Edit Unit :=
  modify fun e => { e with view := { e.view with selection := e.view.selection ++ [region] } }

/-- Selects regions one after the other. -/
def selectEach (regions : List Region) : Edit Unit :=
  regions.forM select

/-- Restores what was kept of a view. The viewport is moved away and back, and regions are selected in place
of those that are. -/
def restore (state : ViewState) : Edit Unit := do
  setViewport [0, 0]
  setViewport state.viewport
  clearSelection
  selectEach (state.selection (← get).view)

/-- Beautifies the text of a view. -/
def beautifyView (settings : Settings) (movesCursor : Bool) : Edit Unit := do
  let view := (← get).view
  match view.fileName with
  | none => throw .noFileName
  | some name =>
    if !name.endsWith ".cf" then return
    setStatus ""
    match beautify (settings.optionsFor view) view.text with
    | .ok text =>
      if settings.pageWidth.isNone then throw .noPageWidth
      replaceAll text
      restore view.state
      eraseErrors
    | .error (.syntaxError error) =>
      let region : Region := ⟨error.offset, error.offset + error.fragment.length⟩
      markError region
      if movesCursor then
        clearSelection
        select ⟨error.offset, error.offset⟩
        call (.showAtCenter region)
      setStatus error.message
    | .error (.layout error) => throw (.layout error)

/-- What happens before a file is saved. -/
def beforeSave (settings : Settings) : Edit Unit := do
  if settings.beautifiesOnSave then
    call (.runCommand "beautify_cfengine")
    beautifyView settings true

/-- What happens when a text was changed. -/
def afterChange : Edit Unit :=
  eraseErrors

end Edit

end PolicyFormat.Editor
