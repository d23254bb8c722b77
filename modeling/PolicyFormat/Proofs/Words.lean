import PolicyFormat.Proofs.ListLayout

/-! The words of a tree in the order in which they are laid out, and which of the calls without arguments are
written without brackets. An ink of a tree has the words of the tree, up to the commas that a list in braces
may have after its last element. -/
namespace PolicyFormat.Policy

open Layout

variable {keeps : Option Bool}

/-! ### Words of a tree -/

section

variable {α : Type} (mark last : List String) (f : α → List String)

/-- The words of entries, each with a mark after it. Comments have no words, and an entry that comes last has
another mark. -/
def entryWords : List (Entry α) → List String
  | [] => []
  | .item x :: rest => f x ++ (if rest.isEmpty then last else mark) ++ entryWords rest
  | .comment _ :: rest => entryWords rest

/-- The words of arguments with their brackets. Where that is allowed, no brackets stand around no
arguments. -/
def bracketWords (bare : Bool) (entries : List (Entry α)) : List String :=
  if entries.isEmpty then if bare then [] else ["(", ")"]
  else "(" :: entryWords [","] [")"] f entries

/-- The last mark of entries without comments comes last. -/
theorem entryWords_eq_append {entries : List (Entry α)} (hItems : ∀ c, .comment c ∉ entries)
    (hEntries : entries ≠ []) : entryWords mark last f entries = entryWords mark [] f entries ++ last := by
  induction entries with
  | nil => exact absurd rfl hEntries
  | cons entry rest ih =>
    cases entry with
    | comment c => exact absurd List.mem_cons_self (hItems c)
    | item x =>
      cases rest with
      | nil => simp [entryWords]
      | cons next rest =>
        have hRest := ih (fun c hc => hItems c (List.mem_cons_of_mem _ hc)) (by simp)
        rw [entryWords, hRest]
        simp [entryWords]

end

mutual

/-- The words of a word or a call. If it has no arguments, it is written without brackets where `outer` says
so, and the calls among its arguments where `inner` says so. -/
def Element.words (outer inner : Bool) : Element → List String
  | .leaf word => [word.text]
  | .call _ name ⟨_, _, entries, _⟩ =>
    name.text :: if entries.isEmpty then if outer then [] else ["(", ")"] else "(" :: Element.wordsEach inner entries

/-- The words of arguments, with the commas between them and the closing bracket. -/
def Element.wordsEach (inner : Bool) : List (Entry Element) → List String
  | [] => []
  | .item value :: rest =>
    value.words inner inner ++ (if rest.isEmpty then [")"] else [","]) ++ Element.wordsEach inner rest
  | .comment _ :: rest => Element.wordsEach inner rest

end

/-- The words of a value. A list that can be broken has a comma after its last element. -/
def Value.words (outer inner : Bool) : Value → List String
  | .single element => element.words outer inner
  | .list elements =>
    ["\x7b"] ++ entryWords [","] (if elements.mayBreak then [","] else []) (Element.words inner inner)
      elements.entries ++ ["\x7d"]

/-- The words of an attribute and its value. Where a call may be one of a function, it keeps its brackets. -/
def Assignment.words (outer inner : Bool) (a : Assignment) : List String :=
  let bare := !functionAttributes.contains a.name.text
  [a.name.text, "=>"] ++ a.value.words (outer && bare) (inner && bare)

/-- The words of a promise. With `loose`, calls in promisees and inside of other values are treated like
calls that are the whole value of an attribute. -/
def Promise.words (loose : Bool) (p : Promise) : List String :=
  [p.promiser.text] ++ p.promisee.elim [] (fun v => ["->"] ++ v.words loose loose) ++
    if p.constraints.entries.isEmpty then [";"]
    else entryWords [","] [";"] (Assignment.words true loose) p.constraints.entries

def Clause.words (loose : Bool) : Clause → List String
  | .guard g => [g.expression.text]
  | .promise p => p.words loose

def PromiseType.words (loose : Bool) (p : PromiseType) : List String :=
  [p.name.text] ++ entryWords [] [] (Clause.words loose) p.clauses.entries

/-- The words of what stands in a body, where every call may be one of a function. -/
def Selection.words : Selection → List String
  | .guard g => [g.expression.text]
  | .assignment a => a.words false false ++ [";"]

/-- The words of what stands between the braces of a block, with the braces. -/
def Contents.words (loose : Bool) : Contents → List String
  | .bundle statements =>
    ["\x7b"] ++ entryWords [] [] (PromiseType.words loose) statements.entries ++ ["\x7d"]
  | .body selections => ["\x7b"] ++ entryWords [] [] Selection.words selections.entries ++ ["\x7d"]

def Block.words (loose : Bool) (b : Block) : List String :=
  [b.keyword.text, b.type.text, b.name.text] ++
    bracketWords (fun l : Leaf => [l.text]) true b.parameters.entries ++ b.contents.words loose

/-- The words of a policy file. -/
def Specification.words (loose : Bool) (s : Specification) : List String :=
  entryWords [] [] (Block.words loose) s.entries

theorem Element.wordsEach_eq (inner : Bool) (entries : List (Entry Element)) :
    Element.wordsEach inner entries = entryWords [","] [")"] (Element.words inner inner) entries := by
  induction entries with
  | nil => rfl
  | cons entry rest ih => cases entry <;> simp [Element.wordsEach, entryWords, ih]

theorem Element.words_call (outer inner : Bool) (traits : Traits) (name : Leaf) (arguments : ItemList Element) :
    (Element.call traits name arguments).words outer inner =
      [name.text] ++ bracketWords (Element.words inner inner) outer arguments.entries := by
  rw [Element.words, Element.wordsEach_eq]
  rfl

/-! ### Blank lines have no words -/

variable {α : Type}

section

variable {α : Type} {f : α → List String} {change : α → α}

theorem entryWords_mapItems (mark last : List String) (h : ∀ x, f (change x) = f x) (list : ItemList α) :
    entryWords mark last f (list.mapItems change).entries = entryWords mark last f list.entries := by
  simp only [ItemList.mapItems]
  induction list.entries with
  | nil => rfl
  | cons entry rest ih => cases entry <;> simp [entryWords, h, ih]

end

theorem ItemList.isEmpty_mapItems (change : α → α) (list : ItemList α) :
    (list.mapItems change).entries.isEmpty = list.entries.isEmpty := by
  simp [ItemList.mapItems]

theorem Element.words_unmarked (outer inner : Bool) (e : Element) :
    e.unmarked.words outer inner = e.words outer inner := by
  cases e <;> simp [Element.unmarked, Element.withTraits, Element.words]

theorem Value.words_plain (outer inner : Bool) (v : Value) : v.plain.words outer inner = v.words outer inner := by
  cases v with
  | single e => rfl
  | list g =>
    simp only [Value.plain, Value.words, ItemList.mayBreak_unmarked]
    rw [entryWords_mapItems _ _ (Element.words_unmarked inner inner)]

theorem Assignment.words_plain (outer inner : Bool) (a : Assignment) :
    a.plain.words outer inner = a.words outer inner := by
  simp [Assignment.words, Assignment.plain, Value.words_plain]

theorem Promise.words_plain (loose : Bool) (p : Promise) : p.plain.words loose = p.words loose := by
  simp only [Promise.words, Promise.plain, ItemList.isEmpty_mapItems,
    entryWords_mapItems _ _ (Assignment.words_plain true loose)]
  cases p.promisee <;> simp [Value.words_plain]

theorem Clause.words_plain (loose : Bool) (c : Clause) : c.plain.words loose = c.words loose := by
  cases c with
  | guard g => rfl
  | promise p => exact p.words_plain loose

theorem PromiseType.words_plain (loose : Bool) (p : PromiseType) : p.plain.words loose = p.words loose := by
  simp only [PromiseType.words, PromiseType.plain, entryWords_mapItems _ _ (Clause.words_plain loose)]

theorem Selection.words_plain (s : Selection) : s.plain.words = s.words := by
  cases s with
  | guard g => rfl
  | assignment a => simp [Selection.plain, Selection.words, Assignment.words_plain]

theorem Contents.words_plain (loose : Bool) (c : Contents) : c.plain.words loose = c.words loose := by
  cases c with
  | bundle statements =>
    simp only [Contents.plain, Contents.words, entryWords_mapItems _ _ (PromiseType.words_plain loose)]
  | body selections =>
    simp only [Contents.plain, Contents.words, entryWords_mapItems _ _ Selection.words_plain]

theorem Block.words_plain (loose : Bool) (b : Block) : b.plain.words loose = b.words loose := by
  simp [Block.plain, Block.words, Contents.words_plain]

theorem Specification.words_plain (loose : Bool) (s : Specification) : s.plain.words loose = s.words loose :=
  entryWords_mapItems _ _ (Block.words_plain loose) s

/-! ### Words of comments and nodes -/

theorem words_blankInk (kept : Bool) : (blankInk kept).words = [] := by
  cases kept <;> rfl

theorem Comment.words_aboveInk (c : Comment) : c.aboveInk.words = [] := by
  simp [aboveInk, Ink.words, List.filterMap_flatMap, Mark.word?]

theorem Comment.words_ownInk (c : Comment) : c.ownInk.words = [] := by
  unfold ownInk
  induction c.lines with
  | nil => rfl
  | cons line rest ih =>
    cases rest with
    | nil => rfl
    | cons next rest => simpa [List.intersperse_cons_cons, Mark.word?] using ih

theorem Comment.words_tailInk (c : Comment) : c.tailInk.words = [] := by
  unfold tailInk
  split <;> simp [Ink.words, Mark.word?]

theorem Comment.words_noted (keeps : Option Bool) (c : Comment) : (c.noted keeps).words = [] := by
  simp [noted, words_blankInk, words_ownInk]

theorem Traits.words_noted (t : Traits) (keeps : Option Bool) (own : Ink) : (t.noted keeps own).words = own.words := by
  have hLeading : Ink.words (t.leading.flatMap Comment.aboveInk) = [] := by
    rw [Ink.words, List.filterMap_flatMap, List.flatMap_eq_nil_iff]
    exact fun c _ => Comment.words_aboveInk c
  have hTail : Ink.words (t.tail?.elim [] (·.2.tailInk)) = [] := by
    cases t.tail? with
    | none => rfl
    | some found => exact Comment.words_tailInk found.2
  simp [noted, words_blankInk, hLeading, hTail]

/-! ### Comparing words -/

variable {ink : Ink} {bare : Bool}

/-- Words can be compared part by part. -/
structure Compares (E : List String → List String → Prop) : Prop where
  refl : ∀ a, E a a
  append : ∀ {a b c d}, E a b → E c d → E (a ++ c) (b ++ d)

theorem compares_eq : Compares Eq :=
  ⟨fun _ => rfl, fun hab hcd => by rw [hab, hcd]⟩

/-- Words are compared part by part, and a comma after the last of several elements in braces does not
count. -/
structure Tolerates (P : Comment → Prop) (E : List String → List String → Prop) : Prop extends Compares E where
  trans : ∀ {a b c}, E a b → E b c → E a c
  finalComma : ∀ {bare : Bool} {entries : List (Entry Element)}, (∀ c, .comment c ∉ entries) →
    1 < entries.length → (∀ e, .item e ∈ entries → e.Formed P true) →
    E (["\x7b"] ++ entryWords [","] [] (Element.words bare bare) entries ++ ["\x7d"])
      (["\x7b"] ++ entryWords [","] [","] (Element.words bare bare) entries ++ ["\x7d"])

section

variable {α : Type} {E : List String → List String → Prop} {R : Option Bool → α → Ink → Prop}
  {f : α → List String} {entries : List (Entry α)} {ink : Ink}

theorem EntriesInked.words_related (hE : Compares E) {style : InkStyle} (hAfter : style.after.words = [])
    (hBetween : style.between.words = []) {isFirst : Bool}
    (hItem : ∀ x, .item x ∈ entries → ∀ keeps own, R keeps x own → E own.words (f x))
    (h : EntriesInked style R isFirst entries ink) :
    E ink.words (entryWords style.mark.words style.lastMark.words f entries) := by
  induction h with
  | lastItem hOwn =>
    simpa [entryWords, hAfter] using hE.append (hItem _ List.mem_cons_self _ _ hOwn) (hE.refl _)
  | lastComment => simpa [entryWords, hAfter, Comment.words_noted] using hE.refl []
  | @item isFirst x rest own more hOwn hMore ih =>
    have hRest := ih fun x hx => hItem x (List.mem_cons_of_mem _ hx)
    have hLast : rest.isEmpty = false := by simpa using hMore.ne_nil
    simpa [entryWords, hAfter, hBetween, hLast] using
      hE.append (hE.append (hItem _ List.mem_cons_self _ _ hOwn) (hE.refl style.mark.words)) hRest
  | comment hMore ih =>
    have hRest := ih fun x hx => hItem x (List.mem_cons_of_mem _ hx)
    simpa [entryWords, hAfter, hBetween, Comment.words_noted] using hRest

end

theorem ArgumentsInked.words_eq {R : Option Bool → α → Ink → Prop} {f : α → List String}
    {entries : List (Entry α)} (hItem : ∀ x, .item x ∈ entries → ∀ keeps own, R keeps x own → own.words = f x)
    (h : ArgumentsInked bare R entries ink) : ink.words = bracketWords f bare entries := by
  cases h with
  | none hBare => simp [bracketWords, hBare]
  | empty hBare => simp [bracketWords, hBare, Mark.word?]
  | inline hItems h =>
    have hInner := h.words_related compares_eq rfl rfl hItem
    have hEntries : entries.isEmpty = false := by simpa using h.ne_nil
    simp only [bracketWords, hEntries, entryWords_eq_append [","] [")"] f hItems h.ne_nil]
    simpa [Mark.word?, inlineInk] using hInner
  | lined h =>
    have hInner := h.words_related compares_eq rfl rfl hItem
    have hEntries : entries.isEmpty = false := by simpa using h.ne_nil
    simpa [bracketWords, hEntries, Mark.word?, argumentsInk] using hInner

theorem Element.Inked.words_eq {e : Element} (h : e.Inked bare keeps ink) : ink.words = e.words bare bare := by
  induction e using Element.induction generalizing keeps ink with
  | leaf word =>
    cases h
    rw [Leaf.ink, Traits.words_noted]
    simp [Element.words, Mark.word?]
  | call traits name arguments ih =>
    cases h with
    | call h =>
      have hBrackets := h.words_eq fun e he keeps own hOwn => ih e (ItemList.mem_items.2 he) hOwn
      rw [Traits.words_noted, Element.words_call]
      simp [hBrackets, Mark.word?]

/-! ### The words of inks -/

section

variable {P : Comment → Prop} {E : List String → List String → Prop} (hE : Tolerates P E) {ink : Ink}
include hE

theorem Value.Inked.words_related {bare : Bool} {v : Value} (h : v.Inked bare ink) (hFormed : v.Formed P) :
    E ink.words (v.words bare bare) := by
  have hBraces : ∀ {a b : List String}, E a b → E (["\x7b"] ++ a ++ ["\x7d"]) (["\x7b"] ++ b ++ ["\x7d"]) :=
    fun hab => hE.append (hE.append (hE.refl _) hab) (hE.refl _)
  have hItem : ∀ {entries : List (Entry Element)}, ∀ e, .item e ∈ entries → ∀ keeps own,
      e.Inked bare keeps own → E own.words (e.words bare bare) :=
    fun e _ keeps own hOwn => by
      rw [hOwn.words_eq]
      exact hE.refl _
  cases h with
  | single h =>
    rw [h.words_eq]
    exact hE.refl _
  | empty hEntries => simpa [Value.words, hEntries, entryWords, Mark.word?] using hE.refl ["\x7b", "\x7d"]
  | @inline elements inner hItems hMarks hQuiet h =>
    have hInner := hBraces (h.words_related hE.toCompares rfl rfl hItem)
    have hComments : elements.entries.any Element.commented = false := by
      rw [List.any_eq_false]
      rintro (e | c) hEntry
      · simp [Element.commented, hQuiet e (ItemList.mem_items.2 hEntry)]
      · exact absurd hEntry (hItems c)
    by_cases hLength : 1 < elements.entries.length
    · have hBreaks : elements.mayBreak = true := by simp [ItemList.mayBreak, hLength]
      simp only [Value.words, hBreaks, if_true]
      refine hE.trans ?_ (hE.finalComma hItems hLength hFormed.items)
      simpa [inlineInk, Mark.word?] using hInner
    · have hBreaks : elements.mayBreak = false := by
        simp [ItemList.mayBreak, hComments, not_lt.1 hLength]
      simp only [Value.words, hBreaks]
      simpa [inlineInk, Mark.word?] using hInner
  | @lined elements inner hBreaks _ h =>
    have hInner := hBraces (h.words_related hE.toCompares rfl rfl hItem)
    simp only [Value.words, hBreaks, if_true]
    simpa [bracedInk, Mark.word?] using hInner

variable {a : Assignment}

theorem Assignment.BodyInked.words_related {outer : Bool} (h : a.BodyInked outer ink) (hFormed : a.Formed P) :
    E ink.words (a.words outer outer) := by
  cases h with
  | @mk right gap hGap h =>
    have hRight := hE.append (hE.refl [a.name.text, "=>"]) (h.words_related hE hFormed.value)
    rcases hGap with rfl | rfl <;> simpa [Assignment.words, Mark.word?] using hRight

theorem Assignment.Inked.words_related (h : a.Inked keeps ink) (hFormed : a.Formed P) :
    E ink.words (a.words true true) := by
  cases h with
  | mk h =>
    rw [Traits.words_noted]
    exact h.words_related hE hFormed

theorem PromiseeInked.words_related {promisee : Option Value} (h : PromiseeInked promisee ink)
    (hFormed : ∀ v ∈ promisee, v.Formed P) :
    E ink.words (promisee.elim [] (fun v => ["->"] ++ v.words true true)) := by
  cases h with
  | none => exact hE.refl []
  | @some value right gap hGap h =>
    have hValue := hE.append (hE.refl ["->"]) (h.words_related hE (hFormed value rfl))
    rcases hGap with rfl | rfl <;> simpa [Mark.word?] using hValue

theorem ConstraintsInked.words_related {entries : List (Entry Assignment)} (h : ConstraintsInked entries ink)
    (hFormed : ∀ a, .item a ∈ entries → a.Formed P) :
    E ink.words (if entries.isEmpty then [";"] else entryWords [","] [";"] (Assignment.words true true) entries) := by
  cases h with
  | none => exact hE.refl [";"]
  | @some _ body gap hGap h =>
    have hBody := h.words_related hE.toCompares rfl rfl
      fun a ha keeps own hOwn => hOwn.words_related hE (hFormed a ha)
    have hEntries : entries.isEmpty = false := by simpa using h.ne_nil
    rw [hEntries]
    rcases hGap with rfl | rfl <;> simpa [constraintsInk, Mark.word?] using hBody

theorem Promise.Inked.words_related {p : Promise} (h : p.Inked keeps ink) (hFormed : p.Formed P) :
    E ink.words (p.words true) := by
  cases h with
  | mk hPromisee hBody =>
    have hRight := hPromisee.words_related hE hFormed.promisee
    have hLines := hBody.words_related hE fun a ha => (hFormed.constraints.items a ha).toFormed
    rw [Traits.words_noted]
    simpa [Promise.words, Mark.word?] using hE.append (hE.append (hE.refl [p.promiser.text]) hRight) hLines

omit hE in
theorem Guard.words_ink (g : Guard) (keeps : Option Bool) : (g.ink keeps).words = [g.expression.text] := by
  rw [Guard.ink, Traits.words_noted]
  rfl

theorem Clause.Inked.words_related {c : Clause} (h : c.Inked keeps ink) (hFormed : c.Formed P) :
    E ink.words (c.words true) := by
  cases h with
  | guard =>
    rw [Guard.words_ink]
    exact hE.refl _
  | promise h => exact h.words_related hE hFormed

theorem ClausesInked.words_related {entries : List (Entry Clause)} (h : ClausesInked entries ink)
    (hFormed : ∀ c, .item c ∈ entries → c.Formed P) : E ink.words (entryWords [] [] (Clause.words true) entries) := by
  cases h with
  | none => exact hE.refl []
  | some h =>
    simpa [clausesInk, Mark.word?] using h.words_related hE.toCompares rfl rfl
      fun c hc keeps own hOwn => hOwn.words_related hE (hFormed c hc)

theorem PromiseType.Inked.words_related {p : PromiseType} (h : p.Inked keeps ink) (hFormed : p.Formed P) :
    E ink.words (p.words true) := by
  obtain ⟨h⟩ := h
  have hBody := h.words_related hE hFormed.clauses.items
  rw [Traits.words_noted]
  simpa [PromiseType.words, Leaf.ink, Traits.words_noted, Mark.word?] using hE.append (hE.refl [p.name.text]) hBody

theorem Selection.Inked.words_related {s : Selection} (h : s.Inked keeps ink) (hFormed : s.Formed P) :
    E ink.words s.words := by
  cases h with
  | guard =>
    rw [Guard.words_ink]
    exact hE.refl _
  | assignment h =>
    rw [Traits.words_noted]
    simpa [Selection.words, Mark.word?] using hE.append (h.words_related hE hFormed) (hE.refl [";"])

variable {brace : Option Leaf}

omit hE in
theorem words_openingInk (h : BraceFormed P "\x7b" brace) : (openingInk brace).words = ["\x7b"] := by
  obtain ⟨l, gap, -, hText, -, hInk, ⟨rfl, -⟩ | rfl⟩ := openingInk_cases h <;>
    simp [hInk, Leaf.ink, Traits.words_noted, Mark.word?, hText]

omit hE in
theorem words_closingInk (h : BraceFormed P "\x7d" brace) : (closingInk brace).words = ["\x7d"] := by
  obtain ⟨l, -, hText, -, hInk⟩ := closingInk_eq h
  simp [hInk, Leaf.ink, Traits.words_noted, Mark.word?, hText]

theorem BlockInked.words_related {α : Type} {style : InkStyle} {R : Option Bool → α → Ink → Prop}
    {F : α → Prop} {f : α → List String} {g : ItemList α} (h : BlockInked style R g ink) (hFormed : g.Braced P F)
    (hMark : style.mark.words = []) (hLast : style.lastMark.words = []) (hAfter : style.after.words = [])
    (hBetween : style.between.words = [])
    (hItem : ∀ x, F x → ∀ keeps own, R keeps x own → E own.words (f x)) :
    E ink.words (["\x7b"] ++ entryWords [] [] f g.entries ++ ["\x7d"]) := by
  have hOpening := words_openingInk hFormed.opening
  have hClosing := words_closingInk hFormed.closing
  cases h with
  | empty hEntries =>
    simpa [hOpening, hClosing, hEntries, entryWords, Mark.word?] using hE.refl ["\x7b", "\x7d"]
  | some h =>
    have hInner := h.words_related hE.toCompares hAfter hBetween fun x hx => hItem x (hFormed.items x hx)
    rw [hMark, hLast] at hInner
    simpa [hOpening, hClosing, Mark.word?] using hE.append (hE.append (hE.refl ["\x7b"]) hInner) (hE.refl ["\x7d"])

theorem Contents.Inked.words_related {c : Contents} (h : c.Inked ink) (hFormed : c.Formed P) :
    E ink.words (c.words true) := by
  cases h with
  | bundle h =>
    exact h.words_related hE hFormed rfl rfl rfl rfl fun p hp keeps own hOwn => hOwn.words_related hE hp
  | body h =>
    exact h.words_related hE hFormed.1 rfl rfl rfl rfl fun s hs keeps own hOwn => hOwn.words_related hE hs

theorem Block.Inked.words_related {b : Block} (h : b.Inked keeps ink) (hFormed : b.Formed P) :
    E ink.words (b.words true) := by
  obtain ⟨hParameters, hContents⟩ := h
  have hBrackets := hParameters.words_eq (f := fun l : Leaf => [l.text]) fun l _ keeps own hOwn => by
    rw [hOwn, Leaf.ink, Traits.words_noted]
    rfl
  have hInner := hContents.words_related hE hFormed.contents
  rw [Traits.words_noted]
  simpa [Block.words, hBrackets, Mark.word?] using hE.append (hE.refl ([b.keyword.text, b.type.text, b.name.text] ++
      bracketWords (fun l : Leaf => [l.text]) true b.parameters.entries)) hInner

/-- The words of an ink are those of its tree, compared in a way that tolerates commas after last
elements. -/
theorem Specification.Inked.words_related {s : Specification} (h : Specification.Inked s ink)
    (hFormed : Specification.Formed P s) : E ink.words (s.words true) := by
  cases h with
  | empty hEntries => simpa [Specification.words, hEntries, entryWords] using hE.refl []
  | some h =>
    exact h.words_related hE.toCompares rfl rfl fun b hb keeps own hOwn => hOwn.words_related hE (hFormed.items b hb)

end

end PolicyFormat.Policy
