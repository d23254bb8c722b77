import Mathlib.Data.List.ReduceOption
import Mathlib.Data.List.SplitBy
import PolicyFormat.Layout.Frame

/-! Runs of lines that are joined end to end. Joining is associative, and runs without lines are neutral. No
text is lost: each line that comes out is fused from lines of the runs, and it is said from which. -/
namespace PolicyFormat.Layout

/-! ### Two runs -/

theorem joinTwo_cons {rest : List Line} (h : rest ≠ []) (l : Line) (second : List Line) :
    joinTwo (l :: rest) second = l :: joinTwo rest second := by
  cases rest with
  | nil => exact absurd rfl h
  | cons next rest => cases second <;> rfl

@[simp] theorem joinTwo_nil (lines : List Line) : joinTwo lines [] = lines := by
  cases lines <;> rfl

theorem joinTwo_ne_nil {first : List Line} (hFirst : first ≠ []) (second : List Line) :
    joinTwo first second ≠ [] := by
  fun_cases joinTwo first second <;> simp at hFirst ⊢
  exact hFirst

theorem joinTwo_append (first : List Line) {second : List Line} (h : second ≠ []) (more : List Line) :
    joinTwo first (second ++ more) = joinTwo first second ++ more := by
  obtain ⟨l, rest, rfl⟩ := List.exists_cons_of_ne_nil h
  induction first with
  | nil => rfl
  | cons m first ih =>
    by_cases hFirst : first = []
    · subst hFirst
      rfl
    · rw [joinTwo_cons hFirst, joinTwo_cons hFirst, ih, List.cons_append]

/-- A run that ends with a line break goes on with the next run on a new line. -/
theorem joinTwo_broken (first : List Line) {second : List Line} (h : second ≠ []) :
    joinTwo (first ++ [{ text := "" }]) second = first ++ second := by
  induction first with
  | nil =>
    obtain ⟨l, rest, rfl⟩ := List.exists_cons_of_ne_nil h
    simp [joinTwo, Line.join]
  | cons l first ih =>
    rw [List.cons_append, joinTwo_cons (by simp), ih]
    rfl

theorem Line.join_assoc (a b c : Line) : (a.join b).join c = a.join (b.join c) := by
  cases hIndent : a.indent <;> simp [join, hIndent, String.append_assoc]

theorem joinTwo_assoc (a b c : List Line) : joinTwo (joinTwo a b) c = joinTwo a (joinTwo b c) := by
  induction a with
  | nil => rfl
  | cons l a ih =>
    by_cases hNil : a = []
    · subst hNil
      match b, c with
      | [], c => rfl
      | m :: b, [] => simp
      | [m], n :: c => simp [joinTwo, Line.join_assoc]
      | m :: m' :: b, n :: c => rfl
    · rw [joinTwo_cons hNil, joinTwo_cons (joinTwo_ne_nil hNil b), ih, joinTwo_cons hNil]

instance : Std.Associative joinTwo :=
  ⟨joinTwo_assoc⟩

theorem length_joinTwo {first second : List Line} (hFirst : first ≠ []) (hSecond : second ≠ []) :
    (joinTwo first second).length + 1 = first.length + second.length := by
  induction first with
  | nil => exact absurd rfl hFirst
  | cons l first ih =>
    by_cases hNil : first = []
    · obtain ⟨m, second, rfl⟩ := List.exists_cons_of_ne_nil hSecond
      subst hNil
      simp [joinTwo, Nat.add_comm]
    · rw [joinTwo_cons hNil, List.length_cons, List.length_cons, ih hNil]
      omega

/-! ### Any number of runs -/

section Runs

variable {runs : List (List Line)}

theorem joinLines_cons (run : List Line) (runs : List (List Line)) :
    joinLines (run :: runs) = joinTwo run (joinLines runs) := by
  have hFold : runs.foldl joinTwo (joinTwo run []) = joinTwo run (joinLines runs) := List.foldl_assoc
  rwa [joinTwo_nil] at hFold

theorem joinLines_append (first second : List (List Line)) :
    joinLines (first ++ second) = joinTwo (joinLines first) (joinLines second) := by
  induction first with
  | nil => rfl
  | cons run first ih => rw [List.cons_append, joinLines_cons, joinLines_cons, ih, joinTwo_assoc]

theorem joinLines_eq_nil_iff : joinLines runs = [] ↔ ∀ run ∈ runs, run = [] := by
  induction runs with
  | nil => simp [joinLines]
  | cons run runs ih =>
    rw [joinLines_cons, List.forall_mem_cons, ← ih]
    by_cases hRun : run = []
    · simp [hRun, joinTwo]
    · simp [hRun, joinTwo_ne_nil hRun]

theorem joinLines_ne_nil (h : ∃ run ∈ runs, run ≠ []) : joinLines runs ≠ [] := by
  obtain ⟨run, hRun, hNonempty⟩ := h
  exact fun hNil => hNonempty (joinLines_eq_nil_iff.1 hNil run hRun)

theorem joinLines_intersperse_nil (runs : List (List Line)) : joinLines (runs.intersperse []) = joinLines runs := by
  induction runs with
  | nil => rfl
  | cons run runs ih =>
    cases runs with
    | nil => rfl
    | cons next runs =>
      rw [List.intersperse_cons_cons, joinLines_cons, joinLines_cons, ih, joinLines_cons run]
      rfl

theorem joinLines_broken (h : runs ≠ []) :
    joinLines (runs.map (· ++ [{ text := "" }])) = runs.flatten ++ [{ text := "" }] := by
  induction runs with
  | nil => exact absurd rfl h
  | cons run runs ih =>
    by_cases hRuns : runs = []
    · simp [hRuns, joinLines, joinTwo]
    · rw [List.map_cons, joinLines_cons, ih hRuns, joinTwo_broken run (by simp)]
      simp

/-- One line is saved with each run that has lines, the first such run apart. -/
theorem length_joinLines (runs : List (List Line)) :
    (joinLines runs).length + (runs.countP (!·.isEmpty) - 1) = runs.flatten.length := by
  induction runs with
  | nil => rfl
  | cons run runs ih =>
    rw [joinLines_cons, List.flatten_cons, List.length_append, ← ih]
    by_cases hRun : run = []
    · simp [hRun, joinTwo]
    have hCount : (run :: runs).countP (!·.isEmpty) = runs.countP (!·.isEmpty) + 1 :=
      List.countP_cons_of_pos (by simpa using hRun)
    by_cases hRuns : joinLines runs = []
    · have hNone : runs.countP (!·.isEmpty) = 0 := by simpa using joinLines_eq_nil_iff.1 hRuns
      simp [hRuns, hCount, hNone]
    · have hSome : 0 < runs.countP (!·.isEmpty) := by simpa [joinLines_eq_nil_iff] using hRuns
      have hTwo := length_joinTwo hRun hRuns
      omega

end Runs

/-! ### Lines that are fused -/

/-- One line made of several: their texts one after the other, the first indentation that one of them has, and
all comments at their ends. -/
def Line.fuse (lines : List Line) : Line :=
  ⟨String.join (lines.map (·.text)), lines.findSome? (·.indent), lines.flatMap (·.tail)⟩

/-- A line goes on the line before it if it is the first line of its run. -/
def goesOn (_ next : Line × Nat) : Bool :=
  next.2 == 0

/-- The lines of all runs in order, cut before each line that is not the first of its run. -/
def fusedLines (runs : List (List Line)) : List (List Line) :=
  ((runs.flatMap (·.zipIdx)).splitBy goesOn).map (·.map (·.1))

theorem Line.fuse_cons (l : Line) (lines : List Line) : fuse (l :: lines) = l.join (fuse lines) := by
  cases hIndent : l.indent <;> simp [fuse, join, hIndent]

theorem Line.fuse_singleton (l : Line) : fuse [l] = l := by
  rw [fuse_cons]
  simp [fuse, join]

section Splitting

variable {α : Type} {r : α → α → Bool} {a b : α} {l g : List α} {gs : List (List α)}

theorem splitBy_cons_of_rel (hRel : r a b = true) (h : (b :: l).splitBy r = g :: gs) :
    (a :: b :: l).splitBy r = (a :: g) :: gs := by
  obtain ⟨hFlatten, hNil, hChains, hCuts⟩ := List.splitBy_eq_iff.1 h
  obtain ⟨c, g, rfl⟩ := List.exists_cons_of_ne_nil (fun hg => hNil (hg ▸ List.mem_cons_self))
  obtain ⟨rfl, -⟩ : b = c ∧ l = g ++ gs.flatten := by simpa using hFlatten
  refine List.splitBy_eq_iff.2 ⟨by rw [hFlatten]; rfl, by simpa using hNil, ?_, ?_⟩
  · rw [List.forall_mem_cons] at hChains ⊢
    exact ⟨.cons_cons hRel hChains.1, hChains.2⟩
  · cases gs with
    | nil => exact .singleton _
    | cons next gs => simpa using hCuts

theorem splitBy_cons_of_not_rel (hRel : ∀ b ∈ l.head?, r a b = false) : (a :: l).splitBy r = [a] :: l.splitBy r :=
  List.splitBy_append (l := [a]) (by simpa using hRel)

end Splitting

/-- What follows a run starts with the first line of another run, if there is one. -/
theorem map_fuse_splitBy {rest : List (Line × Nat)} (hRest : ∀ next ∈ rest.head?, next.2 = 0) (run : List Line)
    (i : Nat) : ((run.zipIdx i ++ rest).splitBy goesOn).map (fun lines => Line.fuse (lines.map (·.1))) =
      joinTwo run ((rest.splitBy goesOn).map (fun lines => Line.fuse (lines.map (·.1)))) := by
  induction run generalizing i with
  | nil => rfl
  | cons l run ih =>
    by_cases hRun : run = []
    · subst hRun
      cases rest with
      | nil => exact congrArg (· :: []) (Line.fuse_singleton l)
      | cons next rest =>
        obtain ⟨lines, groups, hSplit⟩ :=
          List.exists_cons_of_ne_nil (List.splitBy_ne_nil.2 (List.cons_ne_nil next rest))
        have hGoesOn : goesOn (l, i) next = true := beq_iff_eq.2 (hRest next rfl)
        have hCons := splitBy_cons_of_rel hGoesOn hSplit
        simp [hCons, hSplit, joinTwo, Line.fuse_cons]
    · have hStops : ∀ next ∈ (run.zipIdx (i + 1) ++ rest).head?, goesOn (l, i) next = false := by
        obtain ⟨m, run, rfl⟩ := List.exists_cons_of_ne_nil hRun
        simp [goesOn]
      rw [joinTwo_cons hRun, ← ih (i + 1), List.zipIdx_cons, List.cons_append, splitBy_cons_of_not_rel hStops]
      simp [Line.fuse_singleton]

theorem joinLines_eq_map_fuse (runs : List (List Line)) : joinLines runs = (fusedLines runs).map Line.fuse := by
  induction runs with
  | nil => rfl
  | cons run runs ih =>
    have hHead : ∀ next ∈ (runs.flatMap (·.zipIdx)).head?, next.2 = 0 := by
      intro next hNext
      rw [List.head?_flatMap] at hNext
      obtain ⟨other, -, hOther⟩ := List.exists_of_findSome?_eq_some hNext
      cases other with
      | nil => cases hOther
      | cons l other => exact Option.some.inj hOther ▸ rfl
    rw [joinLines_cons, ih, fusedLines, fusedLines, List.flatMap_cons]
    simpa [Function.comp_def] using (map_fuse_splitBy hHead run 0).symm

theorem flatten_fusedLines (runs : List (List Line)) : (fusedLines runs).flatten = runs.flatten := by
  rw [fusedLines, ← List.map_flatten, List.flatten_splitBy, List.map_flatMap]
  simp [List.flatMap_def]

theorem joinLines_texts (runs : List (List Line)) :
    String.join ((joinLines runs).map (·.text)) = String.join (runs.flatten.map (·.text)) := by
  rw [joinLines_eq_map_fuse, ← flatten_fusedLines]
  induction fusedLines runs with
  | nil => rfl
  | cons lines groups ih => simp_all [Line.fuse]

theorem joinLines_tails (runs : List (List Line)) :
    (joinLines runs).flatMap (·.tail) = runs.flatten.flatMap (·.tail) := by
  rw [joinLines_eq_map_fuse, ← flatten_fusedLines, List.flatMap_map, List.flatten_eq_flatMap, List.flatMap_assoc]
  rfl

/-! ### Missing runs, and runs joined two at a time -/

theorem joinPresent_eq (runs : List (Option (List Line))) : joinPresent runs = joinLines runs.reduceOption := by
  induction runs with
  | nil => rfl
  | cons run runs ih =>
    rw [joinPresent, List.map_cons, joinLines_cons, ← joinPresent, ih]
    cases run with
    | none => rfl
    | some lines => rw [List.reduceOption_cons_of_some, joinLines_cons]; rfl

/-- A way to join runs two at a time. -/
inductive Bracketing where
  | run (lines : Option (List Line))
  | pair (first second : Bracketing)

namespace Bracketing

/-- The runs in order. -/
def runs : Bracketing → List (Option (List Line))
  | run lines => [lines]
  | pair first second => first.runs ++ second.runs

/-- What the runs are joined to. -/
def value : Bracketing → Option (List Line)
  | run lines => lines
  | pair first second => some (joinPresent [first.value, second.value])

/-- How many of the pairs have lines on both sides. -/
def fusions : Bracketing → Nat
  | run _ => 0
  | pair first second =>
    first.fusions + second.fusions + if first.value.getD [] ≠ [] ∧ second.value.getD [] ≠ [] then 1 else 0

theorem value_eq (b : Bracketing) : b.value.getD [] = joinPresent b.runs := by
  induction b with
  | run lines => rfl
  | pair first second ihFirst ihSecond =>
    have hPair : joinPresent [first.value, second.value] = joinTwo (first.value.getD []) (second.value.getD []) := rfl
    rw [value, Option.getD_some, hPair, ihFirst, ihSecond, runs]
    simp only [joinPresent, List.map_append, joinLines_append]

theorem length_add_fusions (b : Bracketing) :
    (joinPresent b.runs).length + b.fusions = b.runs.reduceOption.flatten.length := by
  induction b with
  | run lines => cases lines <;> simp [runs, fusions, joinPresent, joinLines, joinTwo]
  | pair first second ihFirst ihSecond =>
    rw [← value_eq] at ihFirst ihSecond ⊢
    have hPair : (pair first second).value.getD [] = joinTwo (first.value.getD []) (second.value.getD []) := rfl
    rw [hPair, fusions, runs, List.reduceOption_append, List.flatten_append, List.length_append,
      ← ihFirst, ← ihSecond]
    by_cases hFirst : first.value.getD [] = []
    · simp [hFirst, joinTwo]
      omega
    by_cases hSecond : second.value.getD [] = []
    · simp [hSecond]
      omega
    have := length_joinTwo hFirst hSecond
    rw [if_pos ⟨hFirst, hSecond⟩]
    omega

end Bracketing

/-- Runs can be joined in any grouping, and runs that are missing or have no lines can be left out. The texts
and the comments at line ends come out in order. One line is saved with each pair of runs with lines that is
joined. Each line is fused from the last line of one run, the first line of the next, and those of runs of one line
between them, or is a line by itself; its indentation is the first that one of these lines has. -/
theorem joinPresent_is_monoid (b : Bracketing) (before after runs : List (Option (List Line))) :
    (b.value.getD [] = joinPresent b.runs ∧
      (joinPresent b.runs).length + b.fusions = b.runs.reduceOption.flatten.length) ∧
    (joinPresent (before ++ none :: after) = joinPresent (before ++ after) ∧
      joinPresent (before ++ some [] :: after) = joinPresent (before ++ after)) ∧
    String.join ((joinPresent runs).map (·.text)) = String.join (runs.reduceOption.flatten.map (·.text)) ∧
    (joinPresent runs).flatMap (·.tail) = runs.reduceOption.flatten.flatMap (·.tail) ∧
    (joinPresent runs).length + (runs.reduceOption.countP (!·.isEmpty) - 1) = runs.reduceOption.flatten.length ∧
    (fusedLines runs.reduceOption).flatten = runs.reduceOption.flatten ∧
    joinPresent runs = (fusedLines runs.reduceOption).map Line.fuse := by
  have hNeutral : ∀ run : Option (List Line), run.getD [] = [] →
      joinPresent (before ++ run :: after) = joinPresent (before ++ after) := by
    intro run hRun
    simp [joinPresent, joinLines_append, joinLines_cons, hRun, joinTwo]
  rw [joinPresent_eq runs]
  exact ⟨⟨b.value_eq, b.length_add_fusions⟩, ⟨hNeutral none rfl, hNeutral (some []) rfl⟩, joinLines_texts _,
    joinLines_tails _, length_joinLines _, flatten_fusedLines _, joinLines_eq_map_fuse _⟩

end PolicyFormat.Layout
