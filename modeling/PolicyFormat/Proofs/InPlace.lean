import Mathlib.Logic.Function.Iterate
import PolicyFormat.Proofs.Detection

/-! Runs that beautify files in place. Such a run beautifies one file after the other and stops at the first one
whose text is refused when its turn comes. Every file holds what it held before, or a whole beautified text, and
no file comes or goes. -/
namespace PolicyFormat.Command

open Run

/-! ### One file after the other -/

/-- What a file holds after its turn, if its text is rewritten as `format` says. -/
def rewritten (format : String → Except Failure String) (stored : String) : String :=
  match format (readFileText stored) with
  | .ok output => if output = readFileText stored then stored else output
  | .error _ => stored

variable {format : String → Except Failure String}

/-- After its turn a file holds what it held before, or the whole new text of what was read from it. -/
theorem rewritten_cases (format : String → Except Failure String) (stored : String) :
    rewritten format stored = stored ∨ format (readFileText stored) = .ok (rewritten format stored) := by
  unfold rewritten
  split
  · split
    · exact .inl rfl
    · exact .inr ‹_›
  · exact .inl rfl

/-- What was rewritten some times is as before, or is a whole beautified text of what was there before. -/
theorem iterate_rewritten_cases (format : String → Except Failure String) (stored : String) (n : Nat) :
    (rewritten format)^[n] stored = stored ∨
      ∃ m < n, format (readFileText ((rewritten format)^[m] stored)) = .ok ((rewritten format)^[n] stored) := by
  induction n with
  | zero => exact .inl rfl
  | succ n ih =>
    rw [Function.iterate_succ_apply']
    rcases rewritten_cases format ((rewritten format)^[n] stored) with hSame | hWritten
    · rw [hSame]
      exact ih.imp_right fun ⟨m, hm, hOutput⟩ => ⟨m, by omega, hOutput⟩
    · exact .inr ⟨n, Nat.lt_succ_self n, hWritten⟩

namespace Files

/-- The files after a new text was written to the file that it was made of. -/
def replace (fs : Files) (path output : String) : Files :=
  match fs.lookup path with
  | .file place => if output = fs.input path then fs else fs.put place output
  | _ => fs

/-- Rewrites one file after the other, up to the first one whose text is refused. -/
def rewriteEach (format : String → Except Failure String) : List String → Files → Files × Option Failure
  | [], fs => (fs, none)
  | path :: paths, fs =>
    match format (fs.input path) with
    | .ok output => rewriteEach format paths (fs.replace path output)
    | .error failure => (fs, some failure)

/-- How many of the paths lead to a place. -/
def visits (fs : Files) (paths : List String) (place : List String) : Nat :=
  paths.countP fun path => fs.lookup path = .file place

variable {fs middle : Files} {path output : String} {paths done : List String}

theorem sameNames_replace (fs : Files) (path output : String) : SameNames fs (fs.replace path output) := by
  unfold replace
  split
  · split
    · exact ⟨rfl, rfl⟩
    · exact sameNames_put (isSome_text?_of_lookup ‹_›) output
  · exact ⟨rfl, rfl⟩

/-- Only the file that a path leads to is rewritten. -/
theorem text?_replace (h : format (fs.input path) = .ok output) (place : List String) :
    (fs.replace path output).text? place = (fs.text? place).map (rewritten format)^[fs.visits [path] place] := by
  by_cases hPlace : fs.lookup path = .file place
  · obtain ⟨stored, hStored⟩ := Option.isSome_iff_exists.1 (isSome_text?_of_lookup hPlace)
    have hInput : fs.input path = readFileText stored := input_of_lookup hPlace hStored
    rw [hInput] at h
    simp only [replace, hPlace, hInput, visits, hStored, rewritten, h, List.countP_singleton, decide_true, if_true,
      Function.iterate_one, Option.map_some]
    split
    · exact hStored
    · simp [text?_put]
  · have hOther : (fs.replace path output).text? place = fs.text? place := by
      unfold replace
      split
      · rename_i target hTarget
        have hNe : place ≠ target := fun hSame => hPlace (hSame ▸ hTarget)
        split
        · rfl
        · rw [text?_put, if_neg hNe]
      · rfl
    simp [hOther, visits, hPlace]

theorem SameNames.visits {a b : Files} (h : SameNames a b) (paths : List String) (place : List String) :
    a.visits paths place = b.visits paths place := by
  simp only [Files.visits, h.lookup]

theorem SameNames.trans {a b c : Files} (hab : SameNames a b) (hbc : SameNames b c) : SameNames a c :=
  ⟨hab.directories.trans hbc.directories, hab.names.trans hbc.names⟩

/-- Each file is rewritten once for every path that leads to it, as long as no text is refused. -/
theorem text?_rewriteEach (h : rewriteEach format paths fs = (middle, none)) : SameNames fs middle ∧
      ∀ place, middle.text? place = (fs.text? place).map (rewritten format)^[fs.visits paths place] := by
  induction paths generalizing fs with
  | nil =>
    cases h
    exact ⟨⟨rfl, rfl⟩, fun place => by simp [visits]⟩
  | cons path paths ih =>
    rw [rewriteEach] at h
    split at h
    · rename_i output hOutput
      obtain ⟨hNames, hText⟩ := ih h
      have hFirst := fs.sameNames_replace path output
      refine ⟨hFirst.trans hNames, fun place => ?_⟩
      have hCount : fs.visits (path :: paths) place = fs.visits paths place + fs.visits [path] place := by
        simp [visits, List.countP_cons]
      rw [hText, text?_replace hOutput, hCount, Function.iterate_add, Option.map_map, ← hFirst.visits]
    · cases h

/-- What is done before a text is refused is done as if there were no more files. -/
theorem rewriteEach_append (done rest : List String) (fs : Files) : rewriteEach format (done ++ rest) fs =
      match rewriteEach format done fs with
      | (middle, none) => rewriteEach format rest middle
      | (middle, some failure) => (middle, some failure) := by
  induction done generalizing fs with
  | nil => rfl
  | cons path done ih =>
    rw [List.cons_append, rewriteEach, rewriteEach]
    split
    · exact ih _
    · rfl

/-- The files whose turn has come are the first ones. -/
theorem rewriteEach_prefix (paths : List String) (fs : Files) :
    ∃ done, done <+: paths ∧ rewriteEach format done fs = ((rewriteEach format paths fs).1, none) := by
  induction paths generalizing fs with
  | nil => exact ⟨[], List.prefix_rfl, rfl⟩
  | cons path paths ih =>
    cases hOutput : format (fs.input path) with
    | ok output =>
      obtain ⟨done, hDone, hEach⟩ := ih (fs.replace path output)
      exact ⟨path :: done, List.cons_prefix_cons.2 ⟨rfl, hDone⟩, by simpa only [rewriteEach, hOutput] using hEach⟩
    | error failure => exact ⟨[], List.nil_prefix, by simp [rewriteEach, hOutput]⟩

end Files

/-! ### Runs in place -/

section

variable {arguments : Arguments} {options : Options} {path : String} {paths : List String} {before after : Files}
  (hInPlace : isRedirected arguments = false)
include hInPlace

theorem Run.Processed.eq_replace (h : Processed arguments options path before after) :
    ∃ output, beautify options (before.input path) = .ok output ∧ after = before.replace path output := by
  rcases h.inPlace hInPlace with ⟨rfl, hOutput⟩ | ⟨place, output, hLookup, hOutput, hChanged, rfl⟩
  · refine ⟨_, hOutput, ?_⟩
    unfold Files.replace
    split <;> simp
  · exact ⟨output, hOutput, by simp [Files.replace, hLookup, hChanged.symm]⟩

theorem Run.ProcessedAll.eq_rewriteEach (h : ProcessedAll arguments options paths before after) :
    Files.rewriteEach (beautify options) paths before = (after, none) := by
  induction h with
  | nil => rfl
  | cons hFirst _ ih =>
    obtain ⟨output, hOutput, rfl⟩ := hFirst.eq_replace hInPlace
    simpa only [Files.rewriteEach, hOutput] using ih

/-- In place, only a refused text is in the way. A text that is written goes to the file that was read. -/
theorem Run.Stuck.eq_refused {runEnd : RunEnd} (h : Stuck arguments options path before runEnd) :
    ∃ failure, beautify options (before.input path) = .error failure ∧ runEnd = .broken (.refused failure) := by
  cases h with
  | refused hFailure => exact ⟨_, hFailure, rfl⟩
  | @unwritten output _ hOutput hChanged hUndelivered =>
    have hChanged : before.input path ≠ output := by simpa [hInPlace] using hChanged
    obtain ⟨place, hLookup⟩ := Files.exists_lookup_of_changed hOutput hChanged
    obtain ⟨hDest, hWrite⟩ := hUndelivered
    rw [destination, hInPlace, if_neg Bool.false_ne_true, named_of_lookup hLookup] at hDest
    cases hDest
    exact absurd hWrite (Files.LeadsTo.write_ne (.inl hLookup) _ _)

theorem Run.StuckAmong.eq_rewriteEach {runEnd : RunEnd} (h : StuckAmong arguments options paths before runEnd after) :
    ∃ failure, Files.rewriteEach (beautify options) paths before = (after, some failure) ∧
      runEnd = .broken (.refused failure) := by
  obtain ⟨rfl, hDone, hStuck⟩ := h
  obtain ⟨failure, hFailure, rfl⟩ := hStuck.eq_refused hInPlace
  refine ⟨failure, ?_, rfl⟩
  rw [Files.rewriteEach_append, hDone.eq_rewriteEach hInPlace]
  simp [Files.rewriteEach, hFailure]

end

theorem Run.Sensible.unique {arguments : Arguments} {files : Files} {options others : Options}
    {paths more : List String} (h : Sensible arguments files options paths)
    (hOther : Sensible arguments files others more) : others = options ∧ more = paths := by
  obtain ⟨lists, hLists, rfl⟩ := h.expanded
  obtain ⟨rest, hRest, rfl⟩ := hOther.expanded
  rw [hLists] at hRest
  exact ⟨Option.some.inj (hOther.asked.symm.trans h.asked), by rw [Option.some.inj hRest]⟩

/-- How a run ends that beautifies files up to one whose text is refused, if there is such a one. -/
def endOf : Option Failure → RunEnd
  | none => .exit 0
  | some failure => .broken (.refused failure)

section

variable {arguments : List String} {read : Arguments} (hRead : Arguments.ofList arguments = .ok read)
  (hInPlace : isRedirected read = false) {world : World}
include hRead

/-- If the arguments make no sense, nothing is written. -/
theorem run_of_not_sensible (h : ∀ options paths, ¬ Sensible read world.files options paths) :
    (run arguments world).1 = .exit refusalCode ∧ (run arguments world).2.files = world.files := by
  rcases run_cases hRead world with ⟨-, hDone⟩ | hBroken
  · cases hDone with
    | input hSensible => exact absurd hSensible (h _ _)
    | files _ hSensible => exact absurd hSensible (h _ _)
  · generalize (run arguments world).1 = runEnd, (run arguments world).2.files = after at hBroken ⊢
    cases hBroken with
    | senseless => exact ⟨rfl, rfl⟩
    | refused hSensible => exact absurd hSensible (h _ _)
    | unwritten hSensible => exact absurd hSensible (h _ _)
    | stuck _ hSensible => exact absurd hSensible (h _ _)

include hInPlace

/-- A run in place beautifies one file after the other and does nothing else to files. Without files it writes
nothing. -/
theorem run_eq_rewriteEach {options : Options} {paths : List String} (h : Sensible read world.files options paths) :
    (run arguments world).2.files = (Files.rewriteEach (beautify options) paths world.files).1 ∧
      (paths ≠ [] → (run arguments world).1 = endOf (Files.rewriteEach (beautify options) paths world.files).2) := by
  have hOut : named read.out = none := by
    rw [named, ← Option.isNone_iff_eq_none, ← Option.isSome_eq_false_iff, Option.isSome_filter]
    exact (Bool.or_eq_false_iff.1 hInPlace).2
  rcases run_cases hRead world with ⟨hExit, hDone⟩ | hBroken
  · rw [hExit]
    generalize (run arguments world).2.files = after at hDone
    cases hDone with
    | input hSensible _ hDelivered =>
      obtain ⟨rfl, rfl⟩ := h.unique hSensible
      cases hDelivered with
      | shown => exact ⟨rfl, fun hPaths => absurd rfl hPaths⟩
      | stored hDest => cases hOut.symm.trans hDest
    | files _ hSensible hAll =>
      obtain ⟨rfl, rfl⟩ := h.unique hSensible
      rw [hAll.eq_rewriteEach hInPlace]
      exact ⟨rfl, fun _ => rfl⟩
  · generalize (run arguments world).1 = runEnd, (run arguments world).2.files = after at hBroken
    cases hBroken with
    | senseless hNone => exact absurd h (hNone _ _)
    | refused hSensible =>
      obtain ⟨rfl, rfl⟩ := h.unique hSensible
      exact ⟨rfl, fun hPaths => absurd rfl hPaths⟩
    | unwritten hSensible _ hUndelivered =>
      obtain ⟨hDest, -⟩ := hUndelivered
      cases hOut.symm.trans hDest
    | stuck _ hSensible hStuck =>
      obtain ⟨rfl, rfl⟩ := h.unique hSensible
      obtain ⟨failure, hEach, rfl⟩ := hStuck.eq_rewriteEach hInPlace
      rw [hEach]
      exact ⟨rfl, fun _ => rfl⟩

end

/-- A run in place damages no file. -/
structure LeavesFilesWhole (read : Arguments) (before after : Files) (runEnd : RunEnd) : Prop where
  /-- No file comes or goes. -/
  names : Files.SameNames before after
  /-- If the arguments make no sense, nothing is written. -/
  checked : (∀ options paths, ¬ Sensible read before options paths) → runEnd = .exit refusalCode ∧ after = before
  /-- A file is rewritten at most once for each path that leads to it. It holds what it held before, or the whole
  beautified text of what was read from it. -/
  whole : ∀ options paths, Sensible read before options paths → ∀ place stored, before.text? place = some stored →
    ∃ n ≤ before.visits paths place, after.text? place = some ((rewritten (beautify options))^[n] stored) ∧
      ((rewritten (beautify options))^[n] stored = stored ∨
        ∃ m < n, beautify options (readFileText ((rewritten (beautify options))^[m] stored)) =
          .ok ((rewritten (beautify options))^[n] stored))
  /-- The first file whose text is refused when its turn comes ends the run. The files before it are beautified,
  and those to which none of the paths before it leads are as they were. -/
  refused : ∀ options done path rest middle failure, Sensible read before options (done ++ path :: rest) →
    Files.rewriteEach (beautify options) done before = (middle, none) →
    beautify options (middle.input path) = .error failure →
    runEnd = .broken (.refused failure) ∧ after = middle ∧
      ∀ place, after.text? place = (before.text? place).map (rewritten (beautify options))^[before.visits done place]
  /-- If no text is refused, all files are beautified. -/
  ends : ∀ options paths, Sensible read before options paths → paths ≠ [] →
    (Files.rewriteEach (beautify options) paths before).2 = none →
    runEnd = .exit 0 ∧
      ∀ place, after.text? place = (before.text? place).map (rewritten (beautify options))^[before.visits paths place]

/-- A directory with a policy and with a file whose text is refused. -/
def mixedWorld : World where
  files := { entries := [(["a.cf"], windowsPolicy), (["b.cf"], "body")] }

/-- The arguments that name both files. -/
def mixedArguments : Arguments where
  paths := ["a.cf", "b.cf"]

theorem lookup_mixedWorld : mixedWorld.files.lookup "a.cf" = .file ["a.cf"] ∧
    mixedWorld.files.lookup "b.cf" = .file ["b.cf"] := by
  constructor
  · rw [Files.lookup, if_neg (by decide), if_neg (by decide +kernel), splitOn_path.1]
    rfl
  · rw [Files.lookup, if_neg (by decide), if_neg (by decide +kernel), splitOn_path.2]
    rfl

end PolicyFormat.Command
