import Mathlib.Data.List.Basic
import PolicyFormat.Editor.View

/-! What the editor command does to a view whose text is accepted. The text is beautified and the viewport
comes back to where it was. The selection does not come back: what is kept of it is read from the view only after
it was cleared. -/
namespace PolicyFormat.Editor

namespace Edit

/-! ### Steps -/

/-- The step ends well, with this result and this view. -/
def Does {α : Type} (step : Edit α) (x : α) (before after : Editing) : Prop :=
  (ExceptT.run step).run before = (.ok x, after)

variable {α β : Type} {before middle after : Editing}

theorem Does.bind {step : Edit α} {next : α → Edit β} {x : α} {y : β} (h : Does step x before middle)
    (hNext : Does (next x) y middle after) : Does (step >>= next) y before after := by
  unfold Does at h ⊢
  rw [ExceptT.run_bind, StateT.run_bind, h]
  exact hNext

theorem does_get (e : Editing) : Does (get : Edit Editing) e e e :=
  rfl

theorem does_call (c : Call) (f : View → View) (e : Editing) : Does (call c f) () e ⟨f e.view, e.calls ++ [c]⟩ :=
  rfl

/-- Regions that are selected one after the other come after those that are selected already. -/
theorem does_selectEach (regions : List Region) (e : Editing) : Does (selectEach regions) () e
      { e with view := { e.view with selection := e.view.selection ++ regions } } := by
  induction regions generalizing e with
  | nil =>
    rw [List.append_nil]
    rfl
  | cons region regions ih =>
    have hRest := ih { e with view := { e.view with selection := e.view.selection ++ [region] } }
    rw [List.append_assoc, List.singleton_append] at hRest
    exact Does.bind (x := ()) rfl hRest

/-- Whatever was kept of a view, the viewport is restored. Selected is then what is read of the selection when
nothing is selected. -/
theorem does_restore (state : ViewState) (e : Editing) : Does (restore state) () e
      { view := { e.view with
          viewport := state.viewport
          selection := state.selection { e.view with viewport := state.viewport, selection := [] } }
        calls := e.calls ++ [.setViewport [0, 0] false, .setViewport state.viewport false] } := by
  refine Does.bind (x := ()) (does_call _ _ e) ?_
  refine Does.bind (x := ()) (does_call _ _ _) ?_
  refine Does.bind (x := ()) rfl ?_
  refine Does.bind (does_get _) ?_
  have hSelect := does_selectEach (state.selection { e.view with viewport := state.viewport, selection := [] })
    { view := { e.view with viewport := state.viewport, selection := [] }
      calls := e.calls ++ [.setViewport [0, 0] false] ++ [.setViewport state.viewport false] }
  rw [List.append_assoc, List.nil_append] at hSelect
  simpa using hSelect

/-! ### The command -/

/-- The view of an accepted text after the command: the text is beautified, errors are no longer marked, and
nothing is selected. -/
def beautifiedView (view : View) (output : String) : View :=
  { view with
    text := output
    selection := []
    status := view.status.filter (·.1 != statusKey) ++ [(statusKey, "")]
    regions := view.regions.filter (·.1 != errorKey) }

variable {settings : Settings} {movesCursor : Bool} {editing : Editing} {name output : String}

/-- The command on a policy file whose text is accepted. The text of the view becomes the beautified text, and
the viewport, the name and the line endings stay. The selection is as before only if nothing was selected. A copy
of the selected regions would have been restored. -/
theorem beautifyView_loses_selection (hFile : editing.view.fileName = some name)
    (hPolicy : name.endsWith ".cf" = true) (hWidth : settings.pageWidth ≠ none)
    (hText : beautify (settings.optionsFor editing.view) editing.view.text = .ok output) :
    Does (beautifyView settings movesCursor) () editing
        { view := beautifiedView editing.view output
          calls := editing.calls ++ [.setStatus statusKey "", .replace ⟨0, editing.view.text.length⟩,
            .setViewport [0, 0] false, .setViewport editing.view.viewport false, .eraseRegions errorKey] } ∧
      (beautifiedView editing.view output).text = output ∧
      (beautifiedView editing.view output).viewport = editing.view.viewport ∧
      ((beautifiedView editing.view output).selection = editing.view.selection ↔ editing.view.selection = []) ∧
      ∀ e, ∃ after, Does (restore ⟨fun _ => editing.view.selection, editing.view.viewport⟩) () e after ∧
        after.view.selection = editing.view.selection ∧ after.view.viewport = editing.view.viewport := by
  refine ⟨?_, rfl, rfl, eq_comm, fun e => ⟨_, does_restore _ e, rfl, rfl⟩⟩
  have hSet : settings.pageWidth.isNone = false := by
    simpa [Option.isNone_eq_false_iff, Option.isSome_iff_ne_none] using hWidth
  refine Does.bind (does_get editing) ?_
  simp only [hFile, hPolicy, hText, hSet, Bool.not_true, Bool.false_eq_true, if_false]
  refine Does.bind (x := ()) (does_call _ _ editing) ?_
  refine Does.bind (x := ()) (Does.bind (does_get _) (does_call _ _ _)) ?_
  refine Does.bind (does_restore _ _) ?_
  refine (does_call _ _ _).trans ?_
  simp [beautifiedView, View.state]

/-- A view of a policy file in which the first word is selected. -/
def selectedWord : View where
  fileName := some "a.cf"
  text := "body a b\x7bc=>\"d\";\x7d"
  selection := [⟨0, 4⟩]
  viewport := [3, 7]

theorem beautify_selectedWord : beautify (Settings.optionsFor {} selectedWord) selectedWord.text =
    .ok "body a b \x7b\n    c => \"d\";\n\x7d\n" := by
  decide +kernel

theorem selectedWord_is_beautified :
    (selectedWord.fileName = some "a.cf" ∧ ("a.cf".endsWith ".cf") = true ∧ ({} : Settings).pageWidth ≠ none) ∧
      ∃ after, Does (beautifyView {} true) () ⟨selectedWord, []⟩ after ∧
        after.view.text = "body a b \x7b\n    c => \"d\";\n\x7d\n" ∧ after.view.viewport = [3, 7] := by
  have hPolicy : "a.cf".endsWith ".cf" = true := by decide +kernel
  have hDoes := @beautifyView_loses_selection {} true ⟨selectedWord, []⟩ "a.cf" _ rfl hPolicy (by decide)
    beautify_selectedWord
  exact ⟨⟨rfl, hPolicy, by decide⟩, _, hDoes.1, hDoes.2.1, hDoes.2.2.1⟩

/-- The word is no longer selected. -/
theorem selectedWord_loses_selection :
    selectedWord.selection = [⟨0, 4⟩] ∧
      ((ExceptT.run (beautifyView {} true)).run ⟨selectedWord, []⟩).1 = .ok () ∧
      ((ExceptT.run (beautifyView {} true)).run ⟨selectedWord, []⟩).2.view.selection = [] := by
  decide +kernel

end Edit

end PolicyFormat.Editor
