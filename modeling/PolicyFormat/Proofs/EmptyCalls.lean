import PolicyFormat.Proofs.Tokens

/-! Calls without arguments. A call that is the whole value of an attribute may be one of a bundle or a body, which
does without empty brackets. So do the calls inside of such a value and in promisees, although they can only be
calls of functions. -/
namespace PolicyFormat

open Policy Layout

namespace Policy

/-! ### Counting calls without arguments -/

mutual

/-- The number of calls without arguments in a word or a call. -/
def Element.emptyCalls : Element → Nat
  | .leaf _ => 0
  | .call _ _ ⟨_, _, entries, _⟩ => (if entries.isEmpty then 1 else 0) + Element.emptyCallsEach entries

/-- The number of calls without arguments in arguments. -/
def Element.emptyCallsEach : List (Entry Element) → Nat
  | [] => 0
  | .item value :: rest => value.emptyCalls + Element.emptyCallsEach rest
  | .comment _ :: rest => Element.emptyCallsEach rest

end

/-- The sum of the numbers of elements. -/
def entrySum {α : Type} (n : α → Nat) : List (Entry α) → Nat
  | [] => 0
  | .item x :: rest => n x + entrySum n rest
  | .comment _ :: rest => entrySum n rest

theorem Element.emptyCallsEach_eq (entries : List (Entry Element)) :
    Element.emptyCallsEach entries = entrySum Element.emptyCalls entries := by
  induction entries with
  | nil => rfl
  | cons entry rest ih => cases entry <;> simp [Element.emptyCallsEach, entrySum, ih]

theorem Element.emptyCalls_call (traits : Traits) (name : Leaf) (arguments : ItemList Element) :
    (Element.call traits name arguments).emptyCalls =
      (if arguments.entries.isEmpty then 1 else 0) + entrySum Element.emptyCalls arguments.entries := by
  rw [Element.emptyCalls, Element.emptyCallsEach_eq]

/-- The number of calls without arguments in the arguments of a call. -/
def Element.innerCalls : Element → Nat
  | .leaf _ => 0
  | .call _ _ arguments => entrySum Element.emptyCalls arguments.entries

/-- The number of calls without arguments in a value. -/
def Value.emptyCalls : Value → Nat
  | .single element => element.emptyCalls
  | .list elements => entrySum Element.emptyCalls elements.entries

/-- The number of calls without arguments that are not the whole value. -/
def Value.innerCalls : Value → Nat
  | .single element => element.innerCalls
  | .list elements => entrySum Element.emptyCalls elements.entries

/-- The number of calls of functions in an attribute that are taken for calls of bundles and bodies. -/
def Assignment.strayCalls (a : Assignment) : Nat :=
  if functionAttributes.contains a.name.text then 0 else a.value.innerCalls

/-- The number of calls of functions in a promise that are taken for calls of bundles and bodies. -/
def Promise.strayCalls (p : Promise) : Nat :=
  p.promisee.elim 0 Value.emptyCalls + entrySum Assignment.strayCalls p.constraints.entries

def Clause.strayCalls : Clause → Nat
  | .guard _ => 0
  | .promise p => p.strayCalls

def PromiseType.strayCalls (p : PromiseType) : Nat :=
  entrySum Clause.strayCalls p.clauses.entries

/-- The number of such calls in a block. In a body, all calls keep their brackets. -/
def Block.strayCalls (b : Block) : Nat :=
  match b.contents with
  | .bundle statements => entrySum PromiseType.strayCalls statements.entries
  | .body _ => 0

/-- The number of calls of functions that are taken for calls of bundles and bodies. -/
def Specification.strayCalls (s : Specification) : Nat :=
  entrySum Block.strayCalls s.entries

/-! ### Missing brackets -/

/-- So many pairs of empty brackets are missing in the first words, compared to the second. -/
inductive Lacks : Nat → List String → List String → Prop where
  | refl (words : List String) : Lacks 0 words words
  | brackets : Lacks 1 [] ["(", ")"]
  | append {m n : Nat} {a b c d : List String} (hFirst : Lacks m a b) (hSecond : Lacks n c d) :
      Lacks (m + n) (a ++ c) (b ++ d)

namespace Lacks

variable {n : Nat} {a b : List String}

theorem count_eq (h : Lacks n a b) : b.count "(" = a.count "(" + n := by
  induction h with
  | refl => rfl
  | brackets => decide
  | append hFirst hSecond ihFirst ihSecond =>
    rw [List.count_append, List.count_append, ihFirst, ihSecond]
    omega

theorem eq_of_zero (h : Lacks n a b) (hNone : n = 0) : a = b := by
  induction h with
  | refl => rfl
  | brackets => cases hNone
  | append hFirst hSecond ihFirst ihSecond => rw [ihFirst (by omega), ihSecond (by omega)]

theorem after (left : List String) (h : Lacks n a b) : Lacks n (left ++ a) (left ++ b) := by
  simpa using (refl left).append h

theorem around (left right : List String) (h : Lacks n a b) : Lacks n (left ++ a ++ right) (left ++ b ++ right) :=
  (h.after left).append (refl right)

theorem entries {α : Type} {f g : α → List String} {count : α → Nat} {entries : List (Entry α)}
    (mark last : List String) (h : ∀ x, .item x ∈ entries → Lacks (count x) (f x) (g x)) :
    Lacks (entrySum count entries) (entryWords mark last f entries) (entryWords mark last g entries) := by
  induction entries with
  | nil => exact refl []
  | cons entry rest ih =>
    have hRest := ih fun x hx => h x (List.mem_cons_of_mem _ hx)
    cases entry with
    | comment c => simpa [entryWords, entrySum] using hRest
    | item x =>
      have hFirst := (h x List.mem_cons_self).append (refl (if rest.isEmpty then last else mark))
      simpa [entryWords, entrySum] using hFirst.append hRest

end Lacks

theorem Element.lacks_emptyCalls (e : Element) : Lacks e.emptyCalls (e.words true true) (e.words false false) := by
  induction e using Element.induction with
  | leaf word => simpa [Element.emptyCalls, Element.words] using Lacks.refl [word.text]
  | call traits name arguments ih =>
    rw [Element.emptyCalls_call, Element.words_call, Element.words_call]
    have hInner := Lacks.entries [","] [")"] fun e he => ih e (ItemList.mem_items.2 he)
    cases hEntries : arguments.entries with
    | nil => simpa [bracketWords, entrySum] using Lacks.brackets.after [name.text]
    | cons entry rest =>
      rw [hEntries] at hInner
      simpa [bracketWords] using hInner.after [name.text, "("]

/-- A call that is the whole value is written without its brackets either way, and the calls in it are
not. -/
theorem Element.lacks_innerCalls (e : Element) : Lacks e.innerCalls (e.words true true) (e.words true false) := by
  cases e with
  | leaf word => simpa [Element.innerCalls, Element.words] using Lacks.refl [word.text]
  | call traits name arguments =>
    rw [Element.innerCalls, Element.words_call, Element.words_call]
    have hInner := Lacks.entries [","] [")"] fun e (_ : .item e ∈ arguments.entries) => e.lacks_emptyCalls
    cases hEntries : arguments.entries with
    | nil => simpa [bracketWords, entrySum] using Lacks.refl [name.text]
    | cons entry rest =>
      rw [hEntries] at hInner
      simpa [bracketWords] using hInner.after [name.text, "("]

theorem Value.lacks_emptyCalls (v : Value) : Lacks v.emptyCalls (v.words true true) (v.words false false) := by
  cases v with
  | single e => exact e.lacks_emptyCalls
  | list g => exact (Lacks.entries _ _ fun e _ => e.lacks_emptyCalls).around ["\x7b"] ["\x7d"]

theorem Value.lacks_innerCalls (v : Value) : Lacks v.innerCalls (v.words true true) (v.words true false) := by
  cases v with
  | single e => exact e.lacks_innerCalls
  | list g => exact (Lacks.entries _ _ fun e _ => e.lacks_emptyCalls).around ["\x7b"] ["\x7d"]

theorem Assignment.lacks_strayCalls (a : Assignment) :
    Lacks a.strayCalls (a.words true true) (a.words true false) := by
  unfold Assignment.words Assignment.strayCalls
  cases functionAttributes.contains a.name.text with
  | true => exact Lacks.refl _
  | false => exact a.value.lacks_innerCalls.after [a.name.text, "=>"]

theorem Promise.lacks_strayCalls (p : Promise) : Lacks p.strayCalls (p.words true) (p.words false) := by
  have hPromisee : Lacks (p.promisee.elim 0 Value.emptyCalls)
      (p.promisee.elim [] (fun v => ["->"] ++ v.words true true))
      (p.promisee.elim [] (fun v => ["->"] ++ v.words false false)) := by
    cases p.promisee with
    | none => exact Lacks.refl []
    | some v => exact v.lacks_emptyCalls.after ["->"]
  have hConstraints : Lacks (entrySum Assignment.strayCalls p.constraints.entries)
      (if p.constraints.entries.isEmpty then [";"]
        else entryWords [","] [";"] (Assignment.words true true) p.constraints.entries)
      (if p.constraints.entries.isEmpty then [";"]
        else entryWords [","] [";"] (Assignment.words true false) p.constraints.entries) := by
    cases hEntries : p.constraints.entries with
    | nil => exact Lacks.refl [";"]
    | cons entry rest => simpa using Lacks.entries [","] [";"] fun a (_ : .item a ∈ entry :: rest) => a.lacks_strayCalls
  exact (hPromisee.after [p.promiser.text]).append hConstraints

theorem Clause.lacks_strayCalls (c : Clause) : Lacks c.strayCalls (c.words true) (c.words false) := by
  cases c with
  | guard g => exact Lacks.refl _
  | promise p => exact p.lacks_strayCalls

theorem PromiseType.lacks_strayCalls (p : PromiseType) : Lacks p.strayCalls (p.words true) (p.words false) :=
  (Lacks.entries [] [] fun c _ => c.lacks_strayCalls).after [p.name.text]

theorem Block.lacks_strayCalls (b : Block) : Lacks b.strayCalls (b.words true) (b.words false) := by
  unfold Block.words Block.strayCalls
  cases b.contents with
  | body selections => exact Lacks.refl _
  | bundle statements =>
    exact ((Lacks.entries [] [] fun p _ => p.lacks_strayCalls).around ["\x7b"] ["\x7d"]).after _

/-- The words that are laid out lack one pair of brackets for each call of a function that is taken for one of a
bundle or a body. -/
theorem Specification.lacks_strayCalls (s : Specification) : Lacks s.strayCalls (s.words true) (s.words false) :=
  Lacks.entries [] [] fun b _ => b.lacks_strayCalls

/-! ### Words without commas -/

/-- All words but commas. -/
def withoutCommas (words : List String) : List String :=
  words.filter (· ≠ ",")

theorem withoutCommas_append (a b : List String) : withoutCommas (a ++ b) = withoutCommas a ++ withoutCommas b :=
  List.filter_append a b

theorem count_withoutCommas (words : List String) : (withoutCommas words).count "(" = words.count "(" :=
  List.count_filter (by decide)

theorem tolerates_withoutCommas (P : Comment → Prop) :
    Tolerates P (fun a b => withoutCommas a = withoutCommas b) where
  refl _ := rfl
  append hab hcd := by rw [withoutCommas_append, withoutCommas_append, hab, hcd]
  trans := Eq.trans
  finalComma := by
    intro bare entries hItems hLength hFormed
    have hEntries : entries ≠ [] := by
      rintro rfl
      simp at hLength
    rw [entryWords_eq_append [","] [","] _ hItems hEntries]
    simp [withoutCommas]

theorem Lacks.withoutCommas_eq_iff {n : Nat} {a b : List String} (h : Lacks n a b) :
    withoutCommas a = withoutCommas b ↔ n = 0 := by
  constructor
  · intro hSame
    have hCount := congrArg (List.count "(") hSame
    rw [count_withoutCommas, count_withoutCommas, h.count_eq] at hCount
    omega
  · intro hNone
    rw [h.eq_of_zero hNone]

end Policy

/-- A text is laid out with the words of its tree, where calls in promisees and inside of values are written like
calls that are whole values. Compared to the words where only calls that are whole values of attributes do without
empty brackets, one pair of brackets is missing for each call that should have kept them. -/
theorem beautify_empty_brackets {options : Options} {text output : String}
    (hEnding : ∀ ending ∈ options.lineEnding, ending = "" ∨ ending = "\n" ∨ ending = "\r\n")
    (h : beautify options text = .ok output) :
    ∃ s lines ink, Specification.ofText options.tidying text = .ok s ∧
      beautifiedLines options text = .ok lines ∧ Spells ink lines ∧
      withoutCommas ink.words = withoutCommas (s.words true) ∧
      (s.words false).count "(" = ink.words.count "(" + s.strayCalls ∧
      (withoutCommas ink.words = withoutCommas (s.words false) ↔ s.strayCalls = 0) ∧
      (s.tally openTally = 0 → signsOf output = ink.words.map signOf) := by
  obtain ⟨-, s, -, -, hTree, -, -⟩ := beautify_eq_ok h
  obtain ⟨lines, ink, hLines, hSpells, hWords, hSigns⟩ :=
    beautify_words (fun _ h => h.legible) (Specification.formed_ofText hTree) h hTree hEnding
  have hWords := hWords _ (tolerates_withoutCommas _)
  have hLacks := s.lacks_strayCalls
  refine ⟨s, lines, ink, hTree, hLines, hSpells, hWords, ?_, ?_, fun hClosed => (hSigns hClosed).1⟩
  · rw [hLacks.count_eq, ← count_withoutCommas ink.words, hWords, count_withoutCommas]
  · rw [hWords]
    exact hLacks.withoutCommas_eq_iff

/-- A promise with a call of a bundle and a call of a function, both without arguments. -/
def emptyCallPolicy : String :=
  "bundle agent a\x7bmethods:\"x\" usebundle => f(), string => h(k());\x7d"

theorem emptyCallPolicy_keeps_brackets :
    ∃ output s lines ink, beautify {} emptyCallPolicy = .ok output ∧
      Specification.ofText {} emptyCallPolicy = .ok s ∧ beautifiedLines {} emptyCallPolicy = .ok lines ∧
      Spells ink lines ∧ s.strayCalls = 0 ∧ withoutCommas ink.words = withoutCommas (s.words false) := by
  have hStray : (Specification.ofText {} emptyCallPolicy).toOption.map Specification.strayCalls = some 0 := by
    decide +kernel
  obtain ⟨s, hTree, hNone⟩ := exists_of_toOption hStray
  have hTidied : Specification.ofText ({} : Options).tidying emptyCallPolicy = .ok s := hTree
  obtain ⟨output, hOutput⟩ := beautify_eq_ok_of_ofText hTidied
  obtain ⟨s', lines, ink, hTree', hLines, hSpells, -, -, hSame, -⟩ := beautify_empty_brackets (by simp) hOutput
  obtain rfl : s = s' := Except.ok.inj (hTree.symm.trans hTree')
  exact ⟨output, s, lines, ink, hOutput, hTree, hLines, hSpells, hNone, hSame.2 hNone⟩

/-- A call of a function without arguments that is an argument of a call of a bundle. -/
def nestedCallPolicy : String :=
  "bundle agent a\x7bmethods:\"x\" usebundle => f(g());\x7d"

/-- The call of the function becomes a word. -/
theorem nestedCallPolicy_loses_brackets :
    beautify {} nestedCallPolicy = .ok "bundle agent a \x7b\n  methods:\n      \"x\" usebundle => f(g);\n\x7d\n" ∧
      (Specification.ofText {} nestedCallPolicy).map (fun s => (s.strayCalls, s.words false)) =
        .ok (1, ["bundle", "agent", "a", "\x7b", "methods:", "\"x\"", "usebundle", "=>", "f", "(", "g", "(", ")", ")",
          ";", "\x7d"]) := by
  have hLines : beautifiedLines {} nestedCallPolicy = .ok
      [⟨"bundle agent a \x7b", some 0, []⟩, ⟨"methods:", some 2, []⟩, ⟨"\"x\" usebundle => f(g);", some 6, []⟩,
        ⟨"\x7d", some 0, []⟩, ⟨"", some 0, []⟩] := by
    decide +kernel
  have hEnding : lineEndingFor nestedCallPolicy ({} : Options).lineEnding = "\n" := by decide +kernel
  refine ⟨beautify_eq_ok_iff.2 ⟨_, hLines, ?_⟩, by decide +kernel⟩
  rw [hEnding]
  simp [renderLines, Line.render, List.replicate, String.intercalate_cons_cons]

end PolicyFormat
