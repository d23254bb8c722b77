import Mathlib.Data.List.Basic
import PolicyFormat.Command.Run

/-! What a run of the command does to files. The relations say what becomes of the files when a text is
delivered, when one file is processed and when all of them are. A run of the command does nothing else. -/
namespace PolicyFormat.Command

variable {before : World} {fs : Files}

/-! ### Files -/

namespace Files

theorem lookup_overwrite (entries : List (List String × String)) (place other : List String) (text : String) :
    (entries.map (fun (p, old) => (p, if p == place then text else old))).lookup other =
      (entries.lookup other).map (fun old => if other == place then text else old) := by
  induction entries with
  | nil => rfl
  | cons entry entries ih =>
    obtain ⟨p, old⟩ := entry
    simp only [List.map_cons, List.lookup_cons]
    cases hFound : other == p with
    | true => simp [eq_of_beq hFound]
    | false => exact ih

theorem isSome_text? (fs : Files) (place : List String) :
    (fs.text? place).isSome = fs.entries.any (·.1 == place) := by
  rw [Bool.eq_iff_iff]
  simp [text?, BEq.comm]

/-- A file holds what was put into it last. -/
theorem text?_put (fs : Files) (place other : List String) (text : String) :
    (fs.put place text).text? other = if other = place then some text else fs.text? other := by
  have hSome := fs.isSome_text? place
  unfold put
  split
  · rename_i hOld
    rw [hOld] at hSome
    obtain ⟨old, hText⟩ := Option.isSome_iff_exists.1 hSome
    rw [text?, lookup_overwrite]
    by_cases hPlace : other = place
    · subst hPlace
      rw [← text?, hText]
      simp
    · simp [hPlace, text?]
  · rename_i hNew
    rw [Bool.not_eq_true] at hNew
    rw [hNew] at hSome
    rw [text?, List.lookup_append, ← text?]
    by_cases hPlace : other = place
    · subst hPlace
      rw [Option.isSome_eq_false_iff, Option.isNone_iff_eq_none] at hSome
      simp [hSome]
    · have hOther : (other == place) = false := beq_eq_false_iff_ne.2 hPlace
      simp [hPlace, List.lookup_cons, hOther]

/-- The same paths lead to directories and to files. -/
structure SameNames (a b : Files) : Prop where
  directories : a.directories = b.directories
  names : a.entries.map (·.1) = b.entries.map (·.1)

variable {a b : Files}

theorem SameNames.isDirectory (h : SameNames a b) (path : List String) : a.isDirectory path = b.isDirectory path := by
  have hAny : ∀ fs : Files, fs.entries.any (fun (file, _) => path.isPrefixOf file && path != file) =
      (fs.entries.map (·.1)).any (fun file => path.isPrefixOf file && path != file) := by
    intro fs
    rw [List.any_map]
    rfl
  rw [Files.isDirectory, Files.isDirectory, hAny, hAny, h.directories, h.names]

theorem SameNames.isSome_text? (h : SameNames a b) (path : List String) :
    (a.text? path).isSome = (b.text? path).isSome := by
  have hSome : ∀ fs : Files, (fs.text? path).isSome = (fs.entries.map (·.1)).any (· == path) := by
    intro fs
    rw [Files.isSome_text?, List.any_map]
    rfl
  rw [hSome, hSome, h.names]

theorem SameNames.follow (h : SameNames a b) (current parts : List String) :
    a.follow current parts = b.follow current parts := by
  induction parts generalizing current with
  | nil => simp only [Files.follow, h.isDirectory, h.isSome_text?]
  | cons part parts ih => simp only [Files.follow, h.isDirectory, h.isSome_text?, ih]

theorem SameNames.lookup (h : SameNames a b) (path : String) : a.lookup path = b.lookup path := by
  simp only [Files.lookup, h.follow]

variable {place : List String}

theorem sameNames_put (h : (fs.text? place).isSome = true) (text : String) : SameNames fs (fs.put place text) := by
  rw [isSome_text?] at h
  unfold put
  rw [if_pos h]
  exact ⟨rfl, by simp⟩

theorem isSome_text?_of_follow {current parts : List String} (h : fs.follow current parts = .file place) :
    (fs.text? place).isSome = true := by
  induction parts generalizing current with
  | nil =>
    unfold follow at h
    split_ifs at h with hDirectory hFile
    cases h
    exact hFile
  | cons part parts ih =>
    unfold follow at h
    split_ifs at h
    · exact ih h
    · exact ih h
    · exact ih h

variable {path : String}

/-- A path that leads to a file leads to a text. -/
theorem isSome_text?_of_lookup (h : fs.lookup path = .file place) : (fs.text? place).isSome = true := by
  unfold lookup at h
  split_ifs at h
  · exact isSome_text?_of_follow h
  · exact isSome_text?_of_follow h

theorem write_eq_ok_iff {after : Files} {text : String} : fs.write path text = .ok after ↔
      ∃ place, (fs.lookup path = .file place ∨ fs.lookup path = .absent place) ∧ fs.put place text = after := by
  unfold write
  cases fs.lookup path <;> simp
  split_ifs <;> simp

/-- The text of the file that a path leads to, as it is read. -/
def input (fs : Files) (path : String) : String :=
  readFileText <| match fs.lookup path with
    | .file place => (fs.text? place).getD ""
    | _ => ""

theorem input_of_lookup {stored : String} (h : fs.lookup path = .file place)
    (hText : fs.text? place = some stored) : fs.input path = readFileText stored := by
  simp [input, h, hText]

/-- The files that a path stands for. -/
def expand? (fs : Files) (path : String) : Option (List String) :=
  match fs.lookup path with
  | .directory directory => some (fs.policyFiles path directory)
  | .file _ => some [path]
  | _ => none

end Files

/-! ### Steps of a run -/

namespace Run

variable {α β : Type}

/-- Where `P` holds, the step ends with a result of which `Q` holds, or it ends the run so that `E` holds. -/
structure Obeys (P : World → Prop) (step : Run α) (Q : α → World → Prop) (E : RunEnd → World → Prop) : Prop where
  ends : ∀ w, P w → match step.run.run w with
    | (.ok result, after) => Q result after
    | (.error runEnd, after) => E runEnd after

namespace Obeys

variable {P : World → Prop} {E : RunEnd → World → Prop}

variable {Q : α → World → Prop}

theorem pure {x : α} (h : ∀ w, P w → Q x w) : Obeys P (Pure.pure x : Run α) Q E :=
  ⟨h⟩

theorem throw {runEnd : RunEnd} (h : ∀ w, P w → E runEnd w) : Obeys P (MonadExcept.throw runEnd : Run α) Q E :=
  ⟨h⟩

variable {step : Run α}

theorem bind {Q : β → World → Prop} (R : α → World → Prop) {next : α → Run β} (hStep : Obeys P step R E)
    (hNext : ∀ x, Obeys (R x) (next x) Q E) : Obeys P (step >>= next) Q E := by
  refine ⟨fun w hw => ?_⟩
  have hBind : (step >>= next).run.run w = (ExceptT.bindCont next (step.run.run w).1).run (step.run.run w).2 := rfl
  have hFirst := hStep.ends w hw
  rw [hBind]
  cases hRun : step.run.run w with
  | mk result after =>
    rw [hRun] at hFirst
    cases result with
    | ok x => exact (hNext x).ends after hFirst
    | error runEnd => exact hFirst

/-- A step that reads the world does not change it. -/
theorem get {Q : β → World → Prop} {next : World → Run β} (h : ∀ w, P w → Obeys P (next w) Q E) :
    Obeys P (MonadState.get >>= next) Q E :=
  ⟨fun w hw => (h w hw).ends w hw⟩

/-- What is known before a step may be used to show what the step does. -/
theorem assuming {fact : Prop} (h : fact → Obeys P step Q E) : Obeys (fun w => fact ∧ P w) step Q E :=
  ⟨fun w hw => (h hw.1).ends w hw.2⟩

theorem mono {R : α → World → Prop} {D : RunEnd → World → Prop} (h : Obeys P step Q D)
    (hResult : ∀ x w, Q x w → R x w) (hEnd : ∀ runEnd w, D runEnd w → E runEnd w) : Obeys P step R E := by
  refine ⟨fun w hw => ?_⟩
  have hRun := h.ends w hw
  split at hRun
  · exact hResult _ _ hRun
  · exact hEnd _ _ hRun

/-- What cannot happen before a step need not be looked at. -/
theorem impossible : Obeys (fun _ => False) step Q E :=
  ⟨fun _ h => h.elim⟩

end Obeys

/-! ### What steps do to files -/

/-- A text goes to a file, or is shown if there is none. -/
inductive Delivered (dest : Option String) (text : String) (before : Files) : Files → Prop where
  | shown (hDest : dest = none) : Delivered dest text before before
  | stored {path : String} {after : Files} (hDest : dest = some path) (hWrite : before.write path text = .ok after) :
      Delivered dest text before after

/-- A text cannot be written to its file. -/
inductive Undelivered (dest : Option String) (text : String) (before : Files) : RunEnd → Prop where
  | mk {path : String} {error : FileError} (hDest : dest = some path)
      (hWrite : before.write path text = .error error) : Undelivered dest text before (.broken (.file error))

/-- Only the files of the world count, and what stands in the standard input. -/
structure Alike (before after : World) : Prop where
  files : after.files = before.files
  stdin : after.stdin = before.stdin

/-- The file that is asked for, if there is one. -/
def named (path : Option String) : Option String :=
  path.filter (fun p => !p.isEmpty)

section

variable {before : World}

theorem emit_obeys (text : String) (E : RunEnd → World → Prop) :
    Obeys (Alike before) (emit text) (fun _ => Alike before) E :=
  ⟨fun _ hw => ⟨hw.files, hw.stdin⟩⟩

theorem tell_obeys (arguments : Arguments) (text : String) (E : RunEnd → World → Prop) :
    Obeys (Alike before) (tell arguments text) (fun _ => Alike before) E := by
  unfold tell
  split
  · exact emit_obeys text E
  · exact .pure fun _ hw => hw

theorem giveUp_obeys {α : Type} (message : String) (Q : α → World → Prop) :
    Obeys (Alike before) (giveUp message) Q (fun runEnd w => runEnd = .exit refusalCode ∧ Alike before w) :=
  .bind (fun _ => Alike before) (emit_obeys _ _) fun _ => .throw fun _ hw => ⟨rfl, hw⟩

theorem write_obeys (path : Option String) (text : String) :
    Obeys (Alike before) (write path text) (fun _ w => Delivered (named path) text before.files w.files)
      (fun runEnd w => Undelivered (named path) text before.files runEnd ∧ Alike before w) := by
  unfold write
  split
  · rename_i hDest
    refine (emit_obeys text _).mono (fun _ w hw => ?_) fun _ _ h => h
    rw [hw.files]
    exact .shown hDest
  · rename_i dest hDest
    refine .get fun w hw => ?_
    rw [hw.files]
    split
    · rename_i files hWrite
      exact ⟨fun _ _ => .stored hDest hWrite⟩
    · rename_i error hWrite
      exact .throw fun _ hAfter => ⟨.mk hDest hWrite, hAfter⟩

end

/-- Where the beautified text of a file goes. -/
def destination (arguments : Arguments) (path : String) : Option String :=
  named (if isRedirected arguments then arguments.out else some path)

/-- One file is beautified. In place, it stays as it is if it is beautiful already. -/
inductive Processed (arguments : Arguments) (options : Options) (path : String) (before : Files) : Files → Prop where
  | kept (hInPlace : isRedirected arguments = false)
      (hOutput : beautify options (before.input path) = .ok (before.input path)) :
      Processed arguments options path before before
  | written {output : String} {after : Files} (hOutput : beautify options (before.input path) = .ok output)
      (hChanged : isRedirected arguments = true ∨ before.input path ≠ output)
      (hDelivered : Delivered (destination arguments path) output before after) :
      Processed arguments options path before after

/-- One file cannot be beautified: its text is refused, or the beautified text cannot be written. -/
inductive Stuck (arguments : Arguments) (options : Options) (path : String) (before : Files) : RunEnd → Prop where
  | refused {failure : Failure} (h : beautify options (before.input path) = .error failure) :
      Stuck arguments options path before (.broken (.refused failure))
  | unwritten {output : String} {runEnd : RunEnd} (hOutput : beautify options (before.input path) = .ok output)
      (hChanged : isRedirected arguments = true ∨ before.input path ≠ output)
      (hUndelivered : Undelivered (destination arguments path) output before runEnd) :
      Stuck arguments options path before runEnd

theorem beautified_obeys {Q : String → World → Prop} {E : RunEnd → World → Prop} {options : Options}
    {text : String} (hOk : ∀ output, beautify options text = .ok output → ∀ w, Alike before w → Q output w)
    (hError : ∀ failure, beautify options text = .error failure → ∀ w, Alike before w →
      E (.broken (.refused failure)) w) : Obeys (Alike before) (beautified options text) Q E := by
  unfold beautified
  split
  · rename_i output hOutput
    exact .pure (hOk output hOutput)
  · rename_i failure hFailure
    exact .throw (hError failure hFailure)

/-- What is done with the text of a file once it is read. -/
def finish (arguments : Arguments) (options : Options) (path input : String) : Run Unit := do
  let output ← beautified options input
  if isRedirected arguments then write arguments.out output
  else if input != output then
    tell arguments (Text.green " -> Beautified" ++ "\n")
    write (some path) output
  else tell arguments "\n"

theorem process_eq (arguments : Arguments) (options : Options) (path : String) : process arguments options path = (do
      tell arguments ("Processing... " ++ path)
      let w ← get
      finish arguments options path (w.files.input path)) :=
  rfl

theorem process_obeys (arguments : Arguments) (options : Options) (path : String) :
    Obeys (Alike before) (process arguments options path)
      (fun _ w => Processed arguments options path before.files w.files)
      (fun runEnd w => Stuck arguments options path before.files runEnd ∧ Alike before w) := by
  rw [process_eq]
  refine .bind (fun _ => Alike before) (tell_obeys _ _ _) fun _ => .get fun w hw => ?_
  rw [hw.files]
  refine .bind (fun output after => beautify options (before.files.input path) = .ok output ∧ Alike before after)
    (beautified_obeys (fun output hOutput after hAfter => ⟨hOutput, hAfter⟩)
      (fun failure hFailure after hAfter => ⟨.refused hFailure, hAfter⟩))
    fun output => .assuming fun hOutput => ?_
  split
  · rename_i hRedirected
    have hDest : named arguments.out = destination arguments path := by simp [destination, hRedirected]
    refine (write_obeys arguments.out output).mono (fun _ after h => ?_) fun runEnd after h => ?_
    · exact .written hOutput (.inl hRedirected) (hDest ▸ h)
    · exact ⟨.unwritten hOutput (.inl hRedirected) (hDest ▸ h.1), h.2⟩
  · rename_i hInPlace
    have hDest : named (some path) = destination arguments path := by simp [destination, hInPlace]
    split
    · rename_i hChanged
      have hChanged : before.files.input path ≠ output := by simpa using hChanged
      refine .bind (fun _ => Alike before) (tell_obeys _ _ _) fun _ => ?_
      refine (write_obeys (some path) output).mono (fun _ after h => ?_) fun runEnd after h => ?_
      · exact .written hOutput (.inr hChanged) (hDest ▸ h)
      · exact ⟨.unwritten hOutput (.inr hChanged) (hDest ▸ h.1), h.2⟩
    · rename_i hSame
      have hSame : before.files.input path = output := by simpa using hSame
      refine (tell_obeys arguments "\n" _).mono (fun _ after h => ?_) fun _ _ h => h
      rw [h.files]
      exact .kept (by simpa using hInPlace) (hOutput.trans (by rw [hSame]))

/-! ### All files -/

/-- Files are beautified one after the other. -/
inductive ProcessedAll (arguments : Arguments) (options : Options) : List String → Files → Files → Prop where
  | nil {files : Files} : ProcessedAll arguments options [] files files
  | cons {path : String} {paths : List String} {before middle after : Files}
      (hFirst : Processed arguments options path before middle)
      (hRest : ProcessedAll arguments options paths middle after) :
      ProcessedAll arguments options (path :: paths) before after

/-- Files are beautified one after the other up to one that cannot be. -/
inductive StuckAmong (arguments : Arguments) (options : Options) (paths : List String) (before : Files)
    (runEnd : RunEnd) (after : Files) : Prop where
  | mk {done rest : List String} {path : String} (hPaths : paths = done ++ path :: rest)
      (hDone : ProcessedAll arguments options done before after)
      (hStuck : Stuck arguments options path after runEnd) : StuckAmong arguments options paths before runEnd after

theorem processEach_obeys (arguments : Arguments) (options : Options) (paths : List String) : Obeys (Alike before)
      (forIn paths PUnit.unit fun path _ => do
        process arguments options path
        Pure.pure (ForInStep.yield PUnit.unit))
      (fun _ w => ProcessedAll arguments options paths before.files w.files)
      (fun runEnd w => StuckAmong arguments options paths before.files runEnd w.files) := by
  induction paths generalizing before with
  | nil =>
    refine .pure fun w hw => ?_
    rw [hw.files]
    exact .nil
  | cons path paths ih =>
    rw [List.forIn_cons]
    refine .bind (fun step w => step = .yield PUnit.unit ∧
      Processed arguments options path before.files w.files) ?_ fun step => .assuming fun hStep => ?_
    · refine .bind (fun _ w => Processed arguments options path before.files w.files)
        ((process_obeys arguments options path).mono (fun _ _ h => h) fun runEnd w h => ?_)
        fun _ => .pure fun w hw => ⟨rfl, hw⟩
      rw [h.2.files]
      exact .mk rfl .nil h.1
    · subst hStep
      refine ⟨fun w hw => (ih.mono (fun _ after hRest => ?_) fun runEnd after h => ?_).ends w ⟨rfl, rfl⟩⟩
      · exact .cons hw hRest
      · obtain ⟨rfl, hDone, hStuck⟩ := h
        exact .mk rfl (.cons hw hDone) hStuck

/-! ### A whole run -/

theorem expand_obeys (path : String) :
    Obeys (Alike before) (expand path) (fun files w => before.files.expand? path = some files ∧ Alike before w)
      (fun runEnd w => before.files.expand? path = none ∧ runEnd = .exit refusalCode ∧ Alike before w) := by
  refine .get fun w hw => ?_
  rw [hw.files, Files.expand?]
  cases before.files.lookup path with
  | directory directory => exact .pure fun _ hw => ⟨rfl, hw⟩
  | file place => exact .pure fun _ hw => ⟨rfl, hw⟩
  | absent place => exact (giveUp_obeys _ _).mono (fun _ _ h => h) fun _ _ h => ⟨rfl, h⟩
  | noParent => exact (giveUp_obeys _ _).mono (fun _ _ h => h) fun _ _ h => ⟨rfl, h⟩
  | throughFile => exact (giveUp_obeys _ _).mono (fun _ _ h => h) fun _ _ h => ⟨rfl, h⟩

theorem expandAll_obeys (paths : List String) : Obeys (Alike before) (paths.mapM expand)
      (fun lists w => paths.mapM before.files.expand? = some lists ∧ Alike before w)
      (fun runEnd w => paths.mapM before.files.expand? = none ∧ runEnd = .exit refusalCode ∧ Alike before w) := by
  induction paths with
  | nil => exact .pure fun _ hw => ⟨rfl, hw⟩
  | cons path paths ih =>
    rw [List.mapM_cons, List.mapM_cons]
    refine .bind _ ((expand_obeys path).mono (fun _ _ h => h) fun _ _ h => ⟨by simp [h.1], h.2⟩)
      fun files => .assuming fun hFiles => ?_
    refine .bind _ (ih.mono (fun _ _ h => h) fun _ _ h => ⟨by simp [hFiles, h.1], h.2⟩)
      fun lists => .assuming fun hLists => ?_
    exact .pure fun _ hw => ⟨by simp [hFiles, hLists], hw⟩

end Run

/-- What line endings are called. A line ending that is not given is detected. -/
def lineEndingNames : List (String × Option String) :=
  [("windows", some "\r\n"), ("unix", some "\n"), ("detect", none)]

/-- The line ending that is asked for, if there is one of that name. -/
def Arguments.lineEnding? (arguments : Arguments) : Option (Option String) :=
  match Run.named arguments.lineEndings with
  | none => some none
  | some name => lineEndingNames.lookup name

/-- The options that the arguments stand for, with the given line ending. -/
def Arguments.optionsWith (arguments : Arguments) (lineEnding : Option String) : Options where
  pageWidth := (arguments.pageWidth.filter (· != 0)).getD 100
  tidying := {
    removesEmptyPromiseTypes := !arguments.keepEmpty
    sortsPromiseTypes := !arguments.keepOrder }
  lineEnding := lineEnding

/-- The options that the arguments stand for, if they make sense. -/
def Arguments.options? (arguments : Arguments) : Option Options :=
  arguments.lineEnding?.map arguments.optionsWith

namespace Run

theorem options_obeys (arguments : Arguments) : Obeys (Alike before) (options arguments)
      (fun options w => arguments.options? = some options ∧ Alike before w)
      (fun runEnd w => arguments.options? = none ∧ runEnd = .exit refusalCode ∧ Alike before w) := by
  have hKnown : ∀ {ending : Option String} {result : Options}, arguments.lineEnding? = some ending →
      result = arguments.optionsWith ending → Obeys (Alike before) (Pure.pure result)
        (fun options w => arguments.options? = some options ∧ Alike before w)
        (fun runEnd w => arguments.options? = none ∧ runEnd = .exit refusalCode ∧ Alike before w) := by
    intro ending result hEnding hResult
    exact .pure fun _ hw => ⟨by rw [Arguments.options?, hEnding, hResult, Option.map_some], hw⟩
  unfold options
  split
  · rename_i hEnding
    exact hKnown (by rw [Arguments.lineEnding?, named, hEnding]) rfl
  · rename_i hEnding
    exact hKnown (by rw [Arguments.lineEnding?, named, hEnding]; rfl) rfl
  · rename_i hEnding
    exact hKnown (by rw [Arguments.lineEnding?, named, hEnding]; rfl) rfl
  · rename_i hEnding
    exact hKnown (by rw [Arguments.lineEnding?, named, hEnding]; rfl) rfl
  · rename_i other hWindows hUnix hDetect hEnding
    have hUnknown : arguments.lineEnding? = none := by
      rw [Arguments.lineEnding?, named, hEnding]
      simpa [lineEndingNames, List.lookup_eq_none_iff] using ⟨hWindows, hUnix, hDetect⟩
    refine .bind (fun _ _ => False) ((giveUp_obeys _ _).mono (fun _ _ h => h) fun _ _ h => ⟨?_, h⟩)
      fun _ => .impossible
    rw [Arguments.options?, hUnknown, Option.map_none]

/-- What the arguments ask for can be tried: all paths lead somewhere, one output file is for one file only,
and the line ending is known. -/
structure Sensible (arguments : Arguments) (before : Files) (options : Options) (paths : List String) : Prop where
  expanded : ∃ lists, arguments.paths.mapM before.expand? = some lists ∧ lists.flatten = paths
  single : (named arguments.out).isSome = true → paths.length ≤ 1
  asked : arguments.options? = some options

/-- A run does what the arguments ask for. -/
inductive Done (arguments : Arguments) (before : World) : Files → Prop where
  | input {options : Options} {output : String} {after : Files}
      (hSensible : Sensible arguments before.files options [])
      (hOutput : beautify options (readText before.stdin) = .ok output)
      (hDelivered : Delivered (named arguments.out) output before.files after) : Done arguments before after
  | files {options : Options} {paths : List String} {after : Files} (hPaths : paths ≠ [])
      (hSensible : Sensible arguments before.files options paths)
      (h : ProcessedAll arguments options paths before.files after) : Done arguments before after

/-- A run breaks off. -/
inductive Broken (arguments : Arguments) (before : World) : RunEnd → Files → Prop where
  | senseless (h : ∀ options paths, ¬ Sensible arguments before.files options paths) :
      Broken arguments before (.exit refusalCode) before.files
  | refused {options : Options} {failure : Failure} (hSensible : Sensible arguments before.files options [])
      (hFailure : beautify options (readText before.stdin) = .error failure) :
      Broken arguments before (.broken (.refused failure)) before.files
  | unwritten {options : Options} {output : String} {runEnd : RunEnd}
      (hSensible : Sensible arguments before.files options [])
      (hOutput : beautify options (readText before.stdin) = .ok output)
      (hUndelivered : Undelivered (named arguments.out) output before.files runEnd) :
      Broken arguments before runEnd before.files
  | stuck {options : Options} {paths : List String} {runEnd : RunEnd} {after : Files} (hPaths : paths ≠ [])
      (hSensible : Sensible arguments before.files options paths)
      (h : StuckAmong arguments options paths before.files runEnd after) : Broken arguments before runEnd after

variable {runEnd : RunEnd}

theorem Undelivered.ne_exit {dest : Option String} {text : String} {before : Files}
    (h : Undelivered dest text before runEnd) (code : Nat) : runEnd ≠ .exit code := by
  cases h
  simp

variable {arguments : Arguments}

theorem Stuck.ne_exit {options : Options} {path : String} {before : Files}
    (h : Stuck arguments options path before runEnd) (code : Nat) : runEnd ≠ .exit code := by
  cases h with
  | refused => simp
  | unwritten _ _ hUndelivered => exact hUndelivered.ne_exit code

/-- A run that breaks off does not end well. -/
theorem Broken.ne_exit {after : Files} (h : Broken arguments before runEnd after) : runEnd ≠ .exit 0 := by
  cases h with
  | senseless => simp [refusalCode]
  | refused => simp
  | unwritten _ _ hUndelivered => exact hUndelivered.ne_exit 0
  | stuck _ _ h =>
    obtain ⟨-, -, hStuck⟩ := h
    exact hStuck.ne_exit 0

/-- The work of the command once its options are known. -/
def carryOut (arguments : Arguments) (paths : List String) (options : Options) : Run Unit := do
  if paths.isEmpty then
    let output ← beautified options (readText (← get).stdin)
    write arguments.out output
  for path in paths do process arguments options path

theorem carryOut_obeys {options : Options} {paths : List String}
    (hSensible : Sensible arguments before.files options paths) :
    Obeys (Alike before) (carryOut arguments paths options) (fun _ w => Done arguments before w.files)
      (fun runEnd w => Broken arguments before runEnd w.files) := by
  unfold carryOut
  split
  · rename_i hEmpty
    rw [List.isEmpty_iff] at hEmpty
    subst hEmpty
    refine .get fun w hw => ?_
    rw [hw.stdin]
    refine .bind (fun output w => beautify options (readText before.stdin) = .ok output ∧ Alike before w)
      (beautified_obeys (fun output hOutput after hAfter => ⟨hOutput, hAfter⟩) fun failure hFailure after hAfter => ?_)
      fun output => .assuming fun hOutput => ?_
    · rw [hAfter.files]
      exact .refused hSensible hFailure
    · refine .bind (fun _ w => Delivered (named arguments.out) output before.files w.files)
        ((write_obeys arguments.out output).mono (fun _ _ h => h) fun runEnd after h => ?_)
        fun _ => .pure fun after h => .input hSensible hOutput h
      rw [h.2.files]
      exact .unwritten hSensible hOutput h.1
  · rename_i hSome
    rw [List.isEmpty_iff] at hSome
    refine .bind (fun _ w => ProcessedAll arguments options paths before.files w.files)
      ((processEach_obeys arguments options paths).mono (fun _ _ h => h) fun runEnd after h => ?_)
      fun _ => .pure fun after h => .files hSome hSensible h
    exact .stuck hSome hSensible h

/-- The work of the command once its paths are known to lead to files. -/
def perform (arguments : Arguments) (paths : List String) : Run Unit := do
  if arguments.out.any (fun p => !p.isEmpty) && 1 < paths.length then
    giveUp "output_path with multiple input paths is not supported."
  let options ← options arguments
  carryOut arguments paths options

theorem command_eq (arguments : Arguments) : command arguments = (do
      let lists ← arguments.paths.mapM expand
      perform arguments lists.flatten) :=
  rfl

theorem perform_obeys {lists : List (List String)} (hLists : arguments.paths.mapM before.files.expand? = some lists) :
    Obeys (Alike before) (perform arguments lists.flatten) (fun _ w => Done arguments before w.files)
      (fun runEnd w => Broken arguments before runEnd w.files) := by
  have hFlatten : ∀ {paths}, (∃ lists, arguments.paths.mapM before.files.expand? = some lists ∧ lists.flatten = paths) →
      lists.flatten = paths := by
    rintro paths ⟨others, hOthers, rfl⟩
    rw [Option.some.inj (hLists.symm.trans hOthers)]
  unfold perform
  split
  · rename_i hMany
    rw [← Option.isSome_filter, Bool.and_eq_true, decide_eq_true_iff] at hMany
    refine .bind (fun _ _ => False) ((giveUp_obeys _ _).mono (fun _ _ h => h) fun runEnd after h => ?_)
      fun _ => .impossible
    rw [h.1, h.2.files]
    refine .senseless fun options paths hSensible => ?_
    have hSingle := hSensible.single hMany.1
    rw [← hFlatten hSensible.expanded] at hSingle
    omega
  · rename_i hFew
    rw [← Option.isSome_filter, Bool.and_eq_true, decide_eq_true_iff, not_and, Nat.not_lt] at hFew
    refine .bind (fun options w => arguments.options? = some options ∧ Alike before w)
      ((options_obeys arguments).mono (fun _ _ h => h) fun runEnd after h => ?_)
      fun options => .assuming fun hOptions => carryOut_obeys ⟨⟨lists, hLists, rfl⟩, hFew, hOptions⟩
    rw [h.2.1, h.2.2.files]
    refine .senseless fun options paths hSensible => ?_
    have hAsked := hSensible.asked
    rw [h.1] at hAsked
    cases hAsked

theorem command_obeys (arguments : Arguments) :
    Obeys (Alike before) (command arguments) (fun _ w => Done arguments before w.files)
      (fun runEnd w => Broken arguments before runEnd w.files) := by
  rw [command_eq]
  refine .bind _ ((expandAll_obeys arguments.paths).mono (fun _ _ h => h) fun runEnd w h => ?_)
    fun lists => .assuming perform_obeys
  obtain ⟨hLists, rfl, hw⟩ := h
  rw [hw.files]
  refine .senseless fun options paths hSensible => ?_
  obtain ⟨lists, hSome, -⟩ := hSensible.expanded
  rw [hLists] at hSome
  cases hSome

end Run

open Run in
/-- A run either does what its arguments ask for and ends well, or breaks off. -/
theorem run_cases {arguments : List String} {read : Arguments} (h : Arguments.ofList arguments = .ok read)
    (world : World) :
    ((run arguments world).1 = .exit 0 ∧ Done read world (run arguments world).2.files) ∨
      Broken read world (run arguments world).1 (run arguments world).2.files := by
  have hCommand := (command_obeys read).ends world (Alike.mk rfl rfl)
  rw [run, h]
  dsimp only
  split at hCommand
  · rename_i result after hRun
    rw [hRun]
    exact .inl ⟨rfl, hCommand⟩
  · rename_i runEnd after hRun
    rw [hRun]
    exact .inr hCommand

end PolicyFormat.Command
