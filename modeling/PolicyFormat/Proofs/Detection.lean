import PolicyFormat.Proofs.Characters
import PolicyFormat.Proofs.Runs

/-! Line endings that the command detects. Files are read with all their line ends made line feeds, so that
line feeds are all that is ever detected in them: a text that is written has no carriage returns, whatever
the file that it was made from. -/
namespace PolicyFormat

open Policy Layout

/-! ### Texts without carriage returns -/

variable {text : String}

theorem Text.not_mem_unifyLineEnds (cs : List Char) : '\r' ∉ unifyLineEnds cs := by
  fun_induction unifyLineEnds cs with
  | case1 => simp
  | case2 rest ih => simpa using ih
  | case3 rest hRest ih => simpa using ih
  | case4 c rest hPair hSingle ih =>
    have hc : '\r' ≠ c := fun h => hSingle h.symm
    simp [hc, ih]

theorem lineEndingFor_of_not_mem (h : '\r' ∉ text.toList) : lineEndingFor text none = "\n" := by
  have hNone : lineEndingFor.hasCarriageReturn text.toList = false := by
    rw [Bool.eq_false_iff, ne_eq, hasCarriageReturn_iff]
    exact fun hPair => h (hPair.subset (by simp))
  simp [lineEndingFor, hNone]

/-- Beautifying puts carriage returns into a text only if they are asked for. -/
theorem not_mem_of_beautify {options : Options} {output : String} (hDetects : options.lineEnding = none)
    (hText : '\r' ∉ text.toList) (h : beautify options text = .ok output) : '\r' ∉ output.toList := by
  intro hMem
  rcases mem_of_beautify h '\r' hMem with hMem | hMem | hMem
  · exact hText hMem
  · rw [hDetects, lineEndingFor_of_not_mem hText] at hMem
    revert hMem
    decide
  · revert hMem
    decide

/-- The empty text is beautiful. -/
theorem beautify_empty (options : Options) : beautify options "" = .ok "" := by
  obtain ⟨s, hTree, hNone⟩ : ∃ s, Specification.ofText options.tidying "" = .ok s ∧ s.entries = [] := ⟨_, rfl, rfl⟩
  obtain ⟨lines, hLines, hNonempty, y, ink, hPlain, -, hInked, hSpells⟩ := beautifiedLines_of_ofText hTree
  have hEntries : y.entries = [] := by
    have hMapped := congrArg ItemList.entries hPlain
    simpa [Specification.plain, ItemList.mapItems, hNone] using hMapped
  have hInk : ink = [] := by
    cases hInked with
    | empty => rfl
    | some h => exact absurd hEntries h.ne_nil
  rw [hInk, Spells, rowsOf_eq_map hNonempty, Ink.rows] at hSpells
  obtain ⟨l, rfl, hRow⟩ := List.map_eq_singleton_iff.1 hSpells
  simp only [Line.row, Prod.mk.injEq] at hRow
  refine beautify_eq_ok_iff.2 ⟨[l], hLines, ?_⟩
  cases hIndent : l.indent <;> simp [renderLines, Line.render, hRow, hIndent]

end PolicyFormat

namespace PolicyFormat.Command

open Run

variable {paths : List String} {options : Options}

theorem not_mem_readText (stored : String) : '\r' ∉ (readText stored).toList := by
  simpa [readText] using Text.not_mem_unifyLineEnds stored.toList

theorem not_mem_readFileText (stored : String) : '\r' ∉ (readFileText stored).toList := by
  unfold readFileText
  split
  · simpa using Text.not_mem_unifyLineEnds _
  · simpa using Text.not_mem_unifyLineEnds _

theorem readFileText_empty : readFileText "" = "" := by
  decide

theorem not_mem_input (fs : Files) (path : String) : '\r' ∉ (fs.input path).toList :=
  not_mem_readFileText _

/-- The file holds a text without carriage returns. -/
def Files.HoldsLineFeeds (fs : Files) (place : List String) : Prop :=
  ∃ text, fs.text? place = some text ∧ '\r' ∉ text.toList

/-- The path leads to the place, whether a file is there or not. -/
def Files.LeadsTo (fs : Files) (path : String) (place : List String) : Prop :=
  fs.lookup path = .file place ∨ fs.lookup path = .absent place

/-! ### What is written -/

variable {arguments : Arguments}

section

variable {arguments : Arguments} {options : Options} {before after : Files}

theorem Run.Delivered.text? {dest : Option String} {text : String} (h : Delivered dest text before after)
    (place : List String) : after.text? place = before.text? place ∨ after.text? place = some text := by
  cases h with
  | shown hDest => exact .inl rfl
  | stored hDest hWrite =>
    obtain ⟨target, -, rfl⟩ := Files.write_eq_ok_iff.1 hWrite
    rw [Files.text?_put]
    split
    · exact .inr rfl
    · exact .inl rfl

variable (hDetects : options.lineEnding = none)
include hDetects

theorem Run.Processed.text? {path : String} (h : Processed arguments options path before after)
    (place : List String) : after.text? place = before.text? place ∨ after.HoldsLineFeeds place := by
  cases h with
  | kept hInPlace hOutput => exact .inl rfl
  | written hOutput hChanged hDelivered =>
    exact (hDelivered.text? place).imp_right fun hText =>
      ⟨_, hText, not_mem_of_beautify hDetects (not_mem_input before path) hOutput⟩

/-- Each file is as before or has only line feeds. -/
theorem Run.ProcessedAll.text? (h : ProcessedAll arguments options paths before after) (place : List String) :
    after.text? place = before.text? place ∨ after.HoldsLineFeeds place := by
  induction h with
  | nil => exact .inl rfl
  | cons hFirst hRest ih =>
    rcases ih with hSame | hFeeds
    · rcases hFirst.text? hDetects place with hOld | ⟨text, hText, hNone⟩
      · exact .inl (hSame.trans hOld)
      · exact .inr ⟨text, hSame.trans hText, hNone⟩
    · exact .inr hFeeds

theorem Run.ProcessedAll.holdsLineFeeds (h : ProcessedAll arguments options paths before after)
    {place : List String} (hFeeds : before.HoldsLineFeeds place) : after.HoldsLineFeeds place := by
  rcases h.text? hDetects place with hSame | hFeeds
  · obtain ⟨text, hText, hNone⟩ := hFeeds
    exact ⟨text, hSame.trans hText, hNone⟩
  · exact hFeeds

end

/-- An output file gets line feeds. -/
theorem Run.Processed.holdsLineFeeds_of_out {before after : Files} {path out : String}
    (hDetects : options.lineEnding = none) (hOut : named arguments.out = some out)
    (h : Processed arguments options path before after) :
    ∃ target, before.LeadsTo out target ∧ after.HoldsLineFeeds target := by
  have hRedirected : isRedirected arguments = true := by
    have hAny : arguments.out.any (fun p => !p.isEmpty) = true := by
      rw [← Option.isSome_filter]
      exact Option.isSome_of_eq_some hOut
    simp [isRedirected, hAny]
  cases h with
  | kept hInPlace => simp [hRedirected] at hInPlace
  | written hOutput _ hDelivered =>
    rw [destination, if_pos hRedirected, hOut] at hDelivered
    cases hDelivered with
    | shown hDest => cases hDest
    | stored hDest hWrite =>
      cases hDest
      obtain ⟨target, hTarget, rfl⟩ := Files.write_eq_ok_iff.1 hWrite
      exact ⟨target, hTarget, _, by rw [Files.text?_put, if_pos rfl],
        not_mem_of_beautify hDetects (not_mem_input before path) hOutput⟩

/-! ### Files in place -/

section

variable {arguments : Arguments} {options : Options} {before after : Files} {path : String}
  (hInPlace : isRedirected arguments = false)
include hInPlace

variable {place : List String}

omit hInPlace in
theorem Run.named_of_lookup (h : before.lookup path = .file place) : named (some path) = some path := by
  have hPath : path.isEmpty = false := by
    cases hEmpty : path.isEmpty with
    | false => rfl
    | true => simp [Files.lookup, hEmpty] at h
  simp [named, hPath]

omit hInPlace in
/-- Only what is read from a file can become another text. -/
theorem Files.exists_lookup_of_changed {output : String} (h : beautify options (before.input path) = .ok output)
    (hChanged : before.input path ≠ output) : ∃ place, before.lookup path = .file place := by
  cases hLookup : before.lookup path with
  | file place => exact ⟨place, rfl⟩
  | _ =>
    have hEmpty : before.input path = "" := by
      rw [Files.input, hLookup]
      exact readFileText_empty
    rw [hEmpty, beautify_empty] at h
    exact absurd (hEmpty.trans (Except.ok.inj h)) hChanged

/-- In place, a file is written only where there is one already. -/
theorem Run.Processed.inPlace (h : Processed arguments options path before after) :
    (after = before ∧ beautify options (before.input path) = .ok (before.input path)) ∨
      ∃ place output, before.lookup path = .file place ∧ beautify options (before.input path) = .ok output ∧
        before.input path ≠ output ∧ after = before.put place output := by
  cases h with
  | kept hInPlace hOutput => exact .inl ⟨rfl, hOutput⟩
  | @written output _ hOutput hChanged hDelivered =>
    have hChanged : before.input path ≠ output := by simpa [hInPlace] using hChanged
    obtain ⟨place, hLookup⟩ := Files.exists_lookup_of_changed hOutput hChanged
    rw [destination, hInPlace, if_neg Bool.false_ne_true, named_of_lookup hLookup] at hDelivered
    cases hDelivered with
    | shown hDest => cases hDest
    | stored hDest hWrite =>
      cases hDest
      obtain ⟨target, hTarget, rfl⟩ := Files.write_eq_ok_iff.1 hWrite
      obtain rfl : place = target := by simpa [hLookup] using hTarget
      exact .inr ⟨place, output, hLookup, hOutput, hChanged, rfl⟩

theorem Run.Processed.sameNames (h : Processed arguments options path before after) :
    Files.SameNames before after := by
  rcases h.inPlace hInPlace with ⟨rfl, -⟩ | ⟨place, output, hLookup, -, -, rfl⟩
  · exact ⟨rfl, rfl⟩
  · exact Files.sameNames_put (Files.isSome_text?_of_lookup hLookup) output

variable {stored : String}

/-- In place, a beautiful file stays as it is, whatever other paths lead to it. -/
theorem Run.ProcessedAll.text?_of_beautiful (h : ProcessedAll arguments options paths before after)
    (hText : before.text? place = some stored)
    (hBeautiful : beautify options (readFileText stored) = .ok (readFileText stored)) :
    after.text? place = some stored := by
  induction h with
  | nil => exact hText
  | cons hFirst hRest ih =>
    refine ih ?_
    rcases hFirst.inPlace hInPlace with ⟨rfl, -⟩ | ⟨target, output, hLookup, hOutput, hChanged, rfl⟩
    · exact hText
    · rw [Files.text?_put]
      split
      · rename_i hPlace
        subst hPlace
        rw [Files.input_of_lookup hLookup hText] at hOutput hChanged
        exact absurd (Except.ok.inj (hBeautiful.symm.trans hOutput)) hChanged
      · exact hText

/-- In place, a file that is not beautiful gets a text with line feeds only. -/
theorem Run.ProcessedAll.holdsLineFeeds_of_not_beautiful (hDetects : options.lineEnding = none)
    (h : ProcessedAll arguments options paths before after) (hPath : path ∈ paths)
    (hLookup : before.lookup path = .file place) (hText : before.text? place = some stored)
    (hUgly : beautify options (readFileText stored) ≠ .ok (readFileText stored)) :
    after.HoldsLineFeeds place := by
  induction h with
  | nil => cases hPath
  | @cons first paths before middle after hFirst hRest ih =>
    rcases hFirst.text? hDetects place with hSame | hFeeds
    · rcases List.mem_cons.1 hPath with rfl | hPath
      · rcases hFirst.inPlace hInPlace with ⟨-, hBeautiful⟩ | ⟨target, output, hTarget, hOutput, hChanged, rfl⟩
        · rw [Files.input_of_lookup hLookup hText] at hBeautiful
          exact absurd hBeautiful hUgly
        · obtain rfl : place = target := by simpa [hLookup] using hTarget
          refine hRest.holdsLineFeeds hDetects ⟨output, by simp [Files.text?_put], ?_⟩
          exact not_mem_of_beautify hDetects (not_mem_input before _) hOutput
      · exact ih hPath ((hFirst.sameNames hInPlace).lookup path ▸ hLookup) (hSame.trans hText)
    · exact hRest.holdsLineFeeds hDetects hFeeds

end

/-! ### Runs that detect line endings -/

theorem Arguments.options?_of_detect (h : arguments.lineEndings = none ∨ arguments.lineEndings = some "detect") :
    arguments.options? = some (arguments.optionsWith none) := by
  have hEnding : arguments.lineEnding? = some none := by
    rcases h with h | h <;> rw [Arguments.lineEnding?, h] <;> rfl
  rw [Arguments.options?, hEnding, Option.map_some]

section

variable {arguments : Arguments} {files : Files} {path : String} {place : List String}

theorem mem_of_expand? {lists : List (List String)} (h : paths.mapM files.expand? = some lists)
    (hPath : path ∈ paths) (hLookup : files.lookup path = .file place) : path ∈ lists.flatten := by
  induction paths generalizing lists with
  | nil => cases hPath
  | cons first paths ih =>
    simp only [List.mapM_cons, Option.bind_eq_bind, Option.bind_eq_some_iff, Option.pure_def, Option.some.injEq] at h
    obtain ⟨own, hOwn, more, hMore, rfl⟩ := h
    rw [List.flatten_cons, List.mem_append]
    rcases List.mem_cons.1 hPath with rfl | hPath
    · rw [Files.expand?, hLookup] at hOwn
      cases hOwn
      exact .inl (List.mem_singleton_self _)
    · exact .inr (ih hMore hPath)

/-- A file that is given by its path is among those that are beautified. -/
theorem Run.Sensible.mem (h : Sensible arguments files options paths) (hPath : path ∈ arguments.paths)
    (hLookup : files.lookup path = .file place) : path ∈ paths := by
  obtain ⟨lists, hLists, rfl⟩ := h.expanded
  exact mem_of_expand? hLists hPath hLookup

theorem Run.Sensible.of_single (hPaths : arguments.paths = [path]) (hLookup : files.lookup path = .file place)
    (hOptions : arguments.options? = some options) :
    Sensible arguments files options [path] := by
  refine ⟨⟨[[path]], ?_, rfl⟩, fun _ => Nat.le_refl 1, hOptions⟩
  simp [hPaths, Files.expand?, hLookup]

theorem Run.Sensible.eq_of_single (h : Sensible arguments files options paths)
    (hPaths : arguments.paths = [path]) (hLookup : files.lookup path = .file place) : paths = [path] := by
  obtain ⟨lists, hLists, rfl⟩ := h.expanded
  simp [hPaths, Files.expand?, hLookup] at hLists
  simp [← hLists]

theorem Files.LeadsTo.write_ne {dest : String} {target : List String} (h : files.LeadsTo dest target) (text : String)
    (error : FileError) : files.write dest text ≠ .error error := by
  have hOk : files.write dest text = .ok (files.put target text) := Files.write_eq_ok_iff.2 ⟨target, h, rfl⟩
  simp [hOk]

end

section

variable {arguments : List String} {read : Arguments} (hRead : Arguments.ofList arguments = .ok read)
  {world : World} {path : String} {place : List String}
include hRead

/-- A run for one file that can be read, with a place for its output, ends well. -/
theorem run_of_single {output : String} (hPaths : read.paths = [path])
    (hLookup : world.files.lookup path = .file place) (hOptions : read.options? = some options)
    (hOutput : beautify options (world.files.input path) = .ok output)
    (hPlace : ∀ dest, named read.out = some dest → ∃ target, world.files.LeadsTo dest target) :
    (run arguments world).1 = .exit 0 ∧ Processed read options path world.files (run arguments world).2.files := by
  have hMem : path ∈ read.paths := by simp [hPaths]
  have hDest : ∀ dest, destination read path = some dest → ∃ target, world.files.LeadsTo dest target := by
    intro dest hDest
    unfold destination at hDest
    split at hDest
    · exact hPlace dest hDest
    · rw [named_of_lookup hLookup] at hDest
      cases hDest
      exact ⟨place, .inl hLookup⟩
  rcases run_cases hRead world with ⟨hExit, hDone⟩ | hBroken
  · refine ⟨hExit, ?_⟩
    generalize (run arguments world).2.files = after at hDone ⊢
    cases hDone with
    | input hSensible => exact absurd (hSensible.mem hMem hLookup) (by simp)
    | files _ hSensible h =>
      obtain rfl := hSensible.eq_of_single hPaths hLookup
      obtain rfl := Option.some.inj (hOptions.symm.trans hSensible.asked)
      cases h with
      | cons hFirst hRest =>
        cases hRest
        exact hFirst
  · exfalso
    generalize (run arguments world).1 = runEnd, (run arguments world).2.files = after at hBroken
    cases hBroken with
    | senseless h => exact h _ _ (.of_single hPaths hLookup hOptions)
    | refused hSensible => exact absurd (hSensible.mem hMem hLookup) (by simp)
    | unwritten hSensible => exact absurd (hSensible.mem hMem hLookup) (by simp)
    | stuck _ hSensible h =>
      obtain rfl := hSensible.eq_of_single hPaths hLookup
      obtain rfl := Option.some.inj (hOptions.symm.trans hSensible.asked)
      obtain @⟨done, rest, other, hSplit, hDone, hStuck⟩ := h
      obtain ⟨rfl, rfl⟩ : done = [] ∧ other = path := by
        cases done <;> simp_all
      cases hDone
      cases hStuck with
      | refused hFailure =>
        rw [hOutput] at hFailure
        cases hFailure
      | unwritten _ _ hUndelivered =>
        obtain ⟨hTo, hWrite⟩ := hUndelivered
        obtain ⟨target, hTarget⟩ := hDest _ hTo
        exact hTarget.write_ne _ _ hWrite

theorem run_text? (hOptions : read.options? = some options) (hDetects : options.lineEnding = none)
    (place : List String) :
    (run arguments world).2.files.text? place = world.files.text? place ∨
      (run arguments world).2.files.HoldsLineFeeds place := by
  have hInput : ∀ {output after}, beautify options (readText world.stdin) = .ok output →
      Delivered (named read.out) output world.files after →
        after.text? place = world.files.text? place ∨ after.HoldsLineFeeds place :=
    fun hOutput hDelivered => (hDelivered.text? place).imp_right fun hText =>
      ⟨_, hText, not_mem_of_beautify hDetects (not_mem_readText world.stdin) hOutput⟩
  rcases run_cases hRead world with ⟨-, hDone⟩ | hBroken
  · generalize (run arguments world).2.files = after at hDone ⊢
    cases hDone with
    | input hSensible hOutput hDelivered =>
      obtain rfl := Option.some.inj (hOptions.symm.trans hSensible.asked)
      exact hInput hOutput hDelivered
    | files _ hSensible h =>
      obtain rfl := Option.some.inj (hOptions.symm.trans hSensible.asked)
      exact h.text? hDetects place
  · generalize (run arguments world).1 = runEnd, (run arguments world).2.files = after at hBroken ⊢
    cases hBroken with
    | senseless => exact .inl rfl
    | refused => exact .inl rfl
    | unwritten => exact .inl rfl
    | stuck _ hSensible h =>
      obtain rfl := Option.some.inj (hOptions.symm.trans hSensible.asked)
      obtain ⟨-, hDone, -⟩ := h
      exact hDone.text? hDetects place

/-- A run that ends well has beautified all files that are given by their paths. -/
theorem processedAll_of_exit (hOptions : read.options? = some options)
    (hExit : (run arguments world).1 = .exit 0) (hPath : path ∈ read.paths)
    (hLookup : world.files.lookup path = .file place) :
    ∃ paths, path ∈ paths ∧ ((named read.out).isSome = true → paths = [path]) ∧
      ProcessedAll read options paths world.files (run arguments world).2.files := by
  rcases run_cases hRead world with ⟨-, hDone⟩ | hBroken
  · generalize (run arguments world).2.files = after at hDone ⊢
    cases hDone with
    | input hSensible => exact absurd (hSensible.mem hPath hLookup) (by simp)
    | @files _ paths _ _ hSensible h =>
      obtain rfl := Option.some.inj (hOptions.symm.trans hSensible.asked)
      have hMem := hSensible.mem hPath hLookup
      refine ⟨paths, hMem, fun hOut => ?_, h⟩
      have hSingle := hSensible.single hOut
      match paths, hMem, hSingle with
      | [only], hMem, _ => rw [List.mem_singleton.1 hMem]
      | _ :: _ :: _, _, hSingle => simp at hSingle
  · exact absurd hExit hBroken.ne_exit

end

/-- Line feeds are all that a run detects, whatever the line endings of the files before it. -/
structure DetectsLineFeeds (read : Arguments) (before after : Files) (runEnd : RunEnd) : Prop where
  /-- Every file is left as it was, or gets a text with line feeds only. -/
  anywhere : ∀ place, after.text? place = before.text? place ∨ after.HoldsLineFeeds place
  /-- In place, a given file stays as it was if the text that is read from it is beautiful. Otherwise it gets
  line feeds. -/
  inPlace : runEnd = .exit 0 → isRedirected read = false →
    ∀ path ∈ read.paths, ∀ place stored, before.lookup path = .file place → before.text? place = some stored →
      (beautify (read.optionsWith none) (readFileText stored) = .ok (readFileText stored) →
        after.text? place = some stored) ∧
      (beautify (read.optionsWith none) (readFileText stored) ≠ .ok (readFileText stored) →
        after.HoldsLineFeeds place)
  /-- An output file for a given file gets line feeds. -/
  output : runEnd = .exit 0 → ∀ out, named read.out = some out →
    ∀ path ∈ read.paths, ∀ place, before.lookup path = .file place →
      ∃ target, before.LeadsTo out target ∧ after.HoldsLineFeeds target
  /-- With one file that can be beautified, and with a place for the output file, the run ends well. -/
  ends : ∀ path place stored output, read.paths = [path] → before.lookup path = .file place →
    before.text? place = some stored → beautify (read.optionsWith none) (readFileText stored) = .ok output →
    (∀ out, named read.out = some out → ∃ target, before.LeadsTo out target) → runEnd = .exit 0

/-- No run that detects line endings keeps those of a file that it writes. -/
theorem run_detects_line_feeds_only {arguments : List String} {read : Arguments}
    (hRead : Arguments.ofList arguments = .ok read)
    (hDetects : read.lineEndings = none ∨ read.lineEndings = some "detect") (world : World) :
    DetectsLineFeeds read world.files (run arguments world).2.files (run arguments world).1 := by
  have hOptions := Arguments.options?_of_detect hDetects
  refine ⟨run_text? hRead hOptions rfl, ?_, ?_, ?_⟩
  · intro hExit hInPlace path hPath place stored hLookup hText
    obtain ⟨paths, hMem, -, hAll⟩ := processedAll_of_exit hRead hOptions hExit hPath hLookup
    exact ⟨hAll.text?_of_beautiful hInPlace hText,
      hAll.holdsLineFeeds_of_not_beautiful hInPlace rfl hMem hLookup hText⟩
  · intro hExit out hOut path hPath place hLookup
    obtain ⟨paths, -, hSingle, hAll⟩ := processedAll_of_exit hRead hOptions hExit hPath hLookup
    obtain rfl := hSingle (by simp [hOut])
    cases hAll with
    | cons hFirst hRest =>
      cases hRest
      exact hFirst.holdsLineFeeds_of_out rfl hOut
  · intro path place stored output hPaths hLookup hText hOutput hPlace
    rw [← Files.input_of_lookup hLookup hText] at hOutput
    exact (run_of_single hRead hPaths hLookup hOptions hOutput hPlace).1

/-- A policy with carriage returns before its line feeds. -/
def windowsPolicy : String :=
  "body a b\r\n\x7b\r\nc => \"d\";\r\n\x7d\r\n"

/-- The policy as it is laid out, with line feeds only. -/
def unixPolicy : String :=
  "body a b \x7b\n    c => \"d\";\n\x7d\n"

/-- A directory with the policy in a file. -/
def windowsWorld : World where
  files := { entries := [(["a.cf"], windowsPolicy)] }

/-- The arguments that name the file and nothing else. -/
def windowsArguments : Arguments where
  paths := ["a.cf"]

theorem ofList_windowsArguments : Arguments.ofList ["a.cf"] = .ok windowsArguments := by
  decide +kernel

theorem splitOn_path : "a.cf".splitOn "/" = ["a.cf"] ∧ "b.cf".splitOn "/" = ["b.cf"] := by
  constructor
  all_goals
    rw [String.splitOn, if_neg (by decide)]
    iterate 4 rw [String.splitOnAux, if_neg (by decide +kernel), if_neg (by decide +kernel)]
    rw [String.splitOnAux, if_pos (by decide +kernel)]
    decide +kernel

theorem lookup_windowsWorld : windowsWorld.files.lookup "a.cf" = .file ["a.cf"] := by
  rw [Files.lookup, if_neg (by decide), if_neg (by decide +kernel), splitOn_path.1]
  rfl

theorem beautify_windowsPolicy :
    beautify (windowsArguments.optionsWith none) (readFileText windowsPolicy) = .ok unixPolicy := by
  decide +kernel

theorem readFileText_windowsPolicy_ne : readFileText windowsPolicy ≠ unixPolicy := by
  decide +kernel

theorem windowsPolicy_gets_line_feeds :
    Arguments.ofList ["a.cf"] = .ok windowsArguments ∧ windowsArguments.lineEndings = none ∧
      (run ["a.cf"] windowsWorld).1 = .exit 0 ∧
      (run ["a.cf"] windowsWorld).2.files.HoldsLineFeeds ["a.cf"] := by
  have hDetects := run_detects_line_feeds_only ofList_windowsArguments (.inl rfl) windowsWorld
  have hExit := hDetects.ends "a.cf" _ _ _ rfl lookup_windowsWorld rfl beautify_windowsPolicy
    (by simp [named, windowsArguments])
  have hInPlace := hDetects.inPlace hExit rfl "a.cf" (List.mem_singleton_self _) _ _ lookup_windowsWorld rfl
  refine ⟨ofList_windowsArguments, rfl, hExit, hInPlace.2 ?_⟩
  rw [beautify_windowsPolicy]
  exact fun h => readFileText_windowsPolicy_ne (Except.ok.inj h).symm

/-- The carriage returns of a file are gone once it is beautified, although line endings are detected. -/
theorem windowsPolicy_loses_carriage_returns :
    windowsWorld.files.text? ["a.cf"] = some windowsPolicy ∧ '\r' ∈ windowsPolicy.toList ∧
      (run ["a.cf"] windowsWorld).1 = .exit 0 ∧
      (run ["a.cf"] windowsWorld).2.files.text? ["a.cf"] = some unixPolicy ∧ '\r' ∉ unixPolicy.toList := by
  have hInput : windowsWorld.files.input "a.cf" = readFileText windowsPolicy :=
    Files.input_of_lookup lookup_windowsWorld rfl
  obtain ⟨hExit, hProcessed⟩ := run_of_single ofList_windowsArguments rfl lookup_windowsWorld
    (Arguments.options?_of_detect (.inl rfl)) (hInput ▸ beautify_windowsPolicy)
    (by simp [named, windowsArguments])
  refine ⟨rfl, by decide, hExit, ?_, by decide⟩
  rcases hProcessed.inPlace rfl with ⟨-, hBeautiful⟩ | ⟨place, output, hLookup, hOutput, -, hAfter⟩
  · rw [hInput, beautify_windowsPolicy] at hBeautiful
    exact absurd (Except.ok.inj hBeautiful).symm readFileText_windowsPolicy_ne
  · rw [hInput, beautify_windowsPolicy] at hOutput
    rw [lookup_windowsWorld] at hLookup
    cases hLookup
    cases hOutput
    rw [hAfter, Files.text?_put, if_pos rfl]

end PolicyFormat.Command
