import PolicyFormat.Layout.Policy
import PolicyFormat.Policy.Placement
import PolicyFormat.Proofs.Ink

/-! The inks of a tree. The relations say which inks the layout of each construct can have: what
stands between the entries of a list and around them, where comments go, and where blank lines
are kept. Which of several layouts is taken depends on the width and is left open. -/
namespace PolicyFormat.Policy

open Layout

/-! ### Comments -/

/-- A comment line as it is laid out: a number sign, one space and the text. Lines that start with
two signs, or with a sign and a dash or an equals sign, stay as they are. -/
def normalNote (line : String) : String :=
  match line.toList with
  | '#' :: c :: rest =>
    if c = '#' ∨ c = '-' ∨ c = '=' then line
    else "# " ++ String.ofList (if c = '\t' ∨ c = ' ' then rest else c :: rest)
  | _ => "#"

namespace Comment

/-- The comment on lines of its own, with a line break after each. -/
def aboveInk (c : Comment) : Ink :=
  c.lines.flatMap (fun line => [.note (normalNote line), .newline])

/-- The comment on lines of its own. -/
def ownInk (c : Comment) : Ink :=
  (c.lines.map (fun line => Mark.note (normalNote line))).intersperse .newline

/-- The comment at the end of a line. -/
def tailInk (c : Comment) : Ink :=
  match c.lines with
  | [] => []
  | line :: rest => .tail true (normalNote line) :: rest.map (fun line => .tail false (normalNote line))

end Comment

/-- A line break if a blank line is kept. -/
def blankInk (kept : Bool) : Ink :=
  if kept then [.newline] else []

/-- The ink of a comment that stands by itself. -/
def Comment.noted (keeps : Option Bool) (c : Comment) : Ink :=
  blankInk (c.afterBlank && keeps.getD c.keepsBlank) ++ c.ownInk

/-- The ink of a node with the given ink of its own: the blank line before it, the comments above it
and the comment at its end. -/
def Traits.noted (t : Traits) (keeps : Option Bool) (own : Ink) : Ink :=
  blankInk (t.afterBlank && keeps.getD t.keepsBlank) ++ t.leading.flatMap Comment.aboveInk ++ own ++
    t.tail?.elim [] (·.2.tailInk)

/-- The ink of a word with its comments. -/
def Leaf.ink (keeps : Option Bool) (l : Leaf) : Ink :=
  l.traits.noted keeps [.word l.text]

/-! ### Lists -/

variable {α : Type} {style : InkStyle} {R : Option Bool → α → Ink → Prop} {isFirst : Bool}
  {entries : List (Entry α)}

/-- What stands after each entry of a list, between entries and after the last, and which entries
keep the blank line before them. -/
structure InkStyle where
  mark : Ink := []
  lastMark : Ink := []
  between : Ink := []
  after : Ink := []
  keepsBlank : (isFirst : Bool) → Option Bool := fun _ => none

/-- The inks of the entries of a list. -/
inductive EntriesInked {α : Type} (style : InkStyle) (R : Option Bool → α → Ink → Prop) :
    (isFirst : Bool) → List (Entry α) → Ink → Prop where
  | lastItem {isFirst : Bool} {x : α} {own : Ink} (hOwn : R (style.keepsBlank isFirst) x own) :
      EntriesInked style R isFirst [.item x] (own ++ style.lastMark ++ style.after)
  | lastComment {isFirst : Bool} {c : Comment} :
      EntriesInked style R isFirst [.comment c] (c.noted (style.keepsBlank isFirst) ++ style.after)
  | item {isFirst : Bool} {x : α} {rest : List (Entry α)} {own more : Ink}
      (hOwn : R (style.keepsBlank isFirst) x own) (hMore : EntriesInked style R false rest more) :
      EntriesInked style R isFirst (.item x :: rest) (own ++ style.mark ++ style.after ++ style.between ++ more)
  | comment {isFirst : Bool} {c : Comment} {rest : List (Entry α)} {more : Ink}
      (hMore : EntriesInked style R false rest more) :
      EntriesInked style R isFirst (.comment c :: rest)
        (c.noted (style.keepsBlank isFirst) ++ style.after ++ style.between ++ more)

theorem EntriesInked.ne_nil {ink : Ink} (h : EntriesInked style R isFirst entries ink) : entries ≠ [] := by
  cases h <;> simp

theorem EntriesInked.and {p : α → Prop} {ink : Ink}
    (h : EntriesInked style (fun keeps x own => R keeps x own ∧ p x) isFirst entries ink) :
    EntriesInked style R isFirst entries ink ∧ ∀ x, .item x ∈ entries → p x := by
  induction h with
  | lastItem hOwn => exact ⟨.lastItem hOwn.1, by simpa using hOwn.2⟩
  | lastComment => exact ⟨.lastComment, by simp⟩
  | item hOwn _ ih => exact ⟨.item hOwn.1 ih.1, by simpa using ⟨hOwn.2, ih.2⟩⟩
  | comment _ ih => exact ⟨.comment ih.1, by simpa using ih.2⟩

/-- Entries on one line, with commas between them. -/
def inlineInk (keepsBlank : Bool → Option Bool) : InkStyle where
  mark := [.word ","]
  between := [.space]
  keepsBlank := keepsBlank

/-- Arguments on a line each. -/
def argumentsInk : InkStyle where
  mark := [.word ","]
  lastMark := [.word ")"]
  between := [.newline]

/-- Elements on a line each, with a comma after the last too. -/
def bracedInk : InkStyle where
  mark := [.word ","]
  lastMark := [.word ","]
  after := [.newline]
  keepsBlank isFirst := some (!isFirst)

/-- Attributes of a promise on a line each. -/
def constraintsInk : InkStyle where
  mark := [.word ","]
  lastMark := [.word ";"]
  between := [.newline]

/-- What stands under a promise type. -/
def clausesInk : InkStyle where
  between := [.newline]
  keepsBlank := notBeforeFirst

/-- What stands in a body. -/
def selectionsInk : InkStyle where
  after := [.newline]
  keepsBlank := notBeforeFirst

/-- Promise types or blocks, with an empty line between them. -/
def spacedInk : InkStyle where
  between := [.newline]
  after := [.newline]

/-- The inks of arguments with their brackets. Where that is allowed, no brackets stand around no
arguments. If a comment comes last, the closing bracket is missing. -/
inductive ArgumentsInked {α : Type} (braceless : Bool) (R : Option Bool → α → Ink → Prop) :
    List (Entry α) → Ink → Prop where
  | none (hBraceless : braceless = true) : ArgumentsInked braceless R [] []
  | empty (hBraceless : braceless = false) : ArgumentsInked braceless R [] [.word "(", .word ")"]
  | inline {entries : List (Entry α)} {inner : Ink} (hItems : ∀ c, .comment c ∉ entries)
      (h : EntriesInked (inlineInk fun _ => .none) R true entries inner) :
      ArgumentsInked braceless R entries ([.word "("] ++ inner ++ [.word ")"])
  | lined {entries : List (Entry α)} {inner : Ink} (h : EntriesInked argumentsInk R true entries inner) :
      ArgumentsInked braceless R entries ([.word "("] ++ inner)

/-! ### Values -/

/-- The inks of a word or a call. -/
inductive Element.Inked (braceless : Bool) : Option Bool → Element → Ink → Prop where
  | leaf {keeps : Option Bool} {word : Leaf} : Inked braceless keeps (.leaf word) (word.ink keeps)
  | call {keeps : Option Bool} {traits : Traits} {name : Leaf} {arguments : ItemList Element}
      {brackets : Ink} (h : ArgumentsInked braceless (Inked braceless) arguments.entries brackets) :
      Inked braceless keeps (.call traits name arguments) (traits.noted keeps ([.word name.text] ++ brackets))

/-- The entry is a comment, or an element that holds comments. -/
def Element.commented : Entry Element → Bool
  | .item e => !e.traits.comments.isEmpty
  | .comment _ => true

/-- The list may have an element on each line: there are comments in it, or more than one element. -/
def ItemList.mayBreak (g : ItemList Element) : Bool :=
  1 < g.entries.length || g.entries.any Element.commented

/-- The inks of a value. A list on one line has lost its blank lines. The ranks of the elements tell
which ones share a line. -/
inductive Value.Inked (braceless : Bool) : Value → Ink → Prop where
  | single {element : Element} {own : Ink} (h : element.Inked braceless none own) :
      Inked braceless (.single element) own
  | empty {elements : ItemList Element} (hEntries : elements.entries = []) :
      Inked braceless (.list elements) [.word "\x7b", .word "\x7d"]
  | inline {elements : ItemList Element} {inner : Ink} (hItems : ∀ c, .comment c ∉ elements.entries)
      (hMarks : ∀ e ∈ elements.items, e.traits.afterBlank = false ∧ e.traits.yields = some 1)
      (hQuiet : ∀ e ∈ elements.items, e.traits.comments = [])
      (h : EntriesInked (inlineInk fun _ => some false) (Element.Inked braceless) true elements.entries inner) :
      Inked braceless (.list elements) ([.word "\x7b", .space] ++ inner ++ [.space, .word "\x7d"])
  | lined {elements : ItemList Element} {inner : Ink} (hBreaks : elements.mayBreak = true)
      (hRanks : ∀ e ∈ elements.items, e.traits.yields = none)
      (h : EntriesInked bracedInk (Element.Inked braceless) true elements.entries inner) :
      Inked braceless (.list elements) ([.word "\x7b", .newline] ++ inner ++ [.word "\x7d"])

/-- The inks of an attribute and its value, without its comments. -/
inductive Assignment.BodyInked (braceless : Bool) (a : Assignment) : Ink → Prop where
  | mk {right : Ink} {gap : Mark} (hGap : gap = .space ∨ gap = .newline)
      (h : a.value.Inked (braceless && !functionAttributes.contains a.name.text) right) :
      BodyInked braceless a ([.word a.name.text, .space, .word "=>", gap] ++ right)

/-! ### Promises -/

inductive Assignment.Inked (keeps : Option Bool) (a : Assignment) : Ink → Prop where
  | mk {own : Ink} (h : a.BodyInked true own) : Inked keeps a (a.traits.noted keeps own)

/-- The inks of a promisee that may be missing. -/
inductive PromiseeInked : Option Value → Ink → Prop where
  | none : PromiseeInked none []
  | some {value : Value} {right : Ink} {gap : Mark} (hGap : gap = .space ∨ gap = .newline)
      (h : value.Inked true right) :
      PromiseeInked (some value) ([gap, .word "->", .space] ++ right)

/-- The inks of the attributes of a promise. -/
inductive ConstraintsInked : List (Entry Assignment) → Ink → Prop where
  | none : ConstraintsInked [] [.word ";"]
  | some {entries : List (Entry Assignment)} {body : Ink} {gap : Mark} (hGap : gap = .space ∨ gap = .newline)
      (h : EntriesInked constraintsInk Assignment.Inked true entries body) :
      ConstraintsInked entries ([gap] ++ body)

inductive Promise.Inked (keeps : Option Bool) (p : Promise) : Ink → Prop where
  | mk {right body : Ink} (hPromisee : PromiseeInked p.promisee right)
      (hBody : ConstraintsInked p.constraints.entries body) :
      Inked keeps p (p.traits.noted keeps ([.word p.promiser.text] ++ right ++ body))

/-- The ink of a class expression. -/
def Guard.ink (keeps : Option Bool) (g : Guard) : Ink :=
  g.traits.noted keeps [.word g.expression.text]

inductive Clause.Inked (keeps : Option Bool) : Clause → Ink → Prop where
  | guard {g : Guard} : Inked keeps (.guard g) (g.ink keeps)
  | promise {p : Promise} {own : Ink} (h : p.Inked keeps own) : Inked keeps (.promise p) own

/-- The inks of all that stands under a promise type. -/
inductive ClausesInked : List (Entry Clause) → Ink → Prop where
  | none : ClausesInked [] []
  | some {entries : List (Entry Clause)} {body : Ink} (h : EntriesInked clausesInk Clause.Inked true entries body) :
      ClausesInked entries ([.newline] ++ body)

inductive PromiseType.Inked (keeps : Option Bool) (p : PromiseType) : Ink → Prop where
  | mk {body : Ink} (h : ClausesInked p.clauses.entries body) :
      Inked keeps p (p.traits.noted keeps (p.name.ink none ++ body))

/-! ### Blocks -/

inductive Selection.Inked (keeps : Option Bool) : Selection → Ink → Prop where
  | guard {g : Guard} : Inked keeps (.guard g) (g.ink keeps)
  | assignment {a : Assignment} {own : Ink} (h : a.BodyInked false own) :
      Inked keeps (.assignment a) (a.traits.noted keeps (own ++ [.word ";"]))

/-- The opening brace of a block, on a line of its own if it has comments. -/
def openingInk (leaf : Option Leaf) : Ink :=
  match leaf.filter (fun l => !l.traits.comments.isEmpty) with
  | some l => [.newline] ++ l.ink none
  | none => [.space, .word "\x7b"]

/-- The closing brace of a block. -/
def closingInk (leaf : Option Leaf) : Ink :=
  match leaf.filter (fun l => !l.traits.comments.isEmpty) with
  | some l => l.ink none
  | none => [.word "\x7d"]

/-- The inks of a list in the braces of a block. -/
inductive BlockInked {α : Type} (style : InkStyle) (R : Option Bool → α → Ink → Prop) (g : ItemList α) :
    Ink → Prop where
  | empty (hEntries : g.entries = []) :
      BlockInked style R g (openingInk g.opening ++ [.newline] ++ closingInk g.closing)
  | some {inner : Ink} (h : EntriesInked style R true g.entries inner) :
      BlockInked style R g (openingInk g.opening ++ [.newline] ++ inner ++ closingInk g.closing)

inductive Contents.Inked : Contents → Ink → Prop where
  | bundle {statements : ItemList PromiseType} {own : Ink}
      (h : BlockInked spacedInk PromiseType.Inked statements own) : Inked (.bundle statements) own
  | body {selections : ItemList Selection} {own : Ink}
      (h : BlockInked selectionsInk Selection.Inked selections own) : Inked (.body selections) own

inductive Block.Inked (keeps : Option Bool) (b : Block) : Ink → Prop where
  | mk {brackets inner : Ink} (hParameters : ArgumentsInked true (fun keeps l own => own = Leaf.ink keeps l)
        b.parameters.entries brackets)
      (hContents : b.contents.Inked inner) :
      Inked keeps b (b.traits.noted keeps
        ([.word b.keyword.text, .space, .word b.type.text, .space, .word b.name.text] ++ brackets ++ inner))

/-- The inks of a policy file. -/
inductive Specification.Inked (s : Specification) : Ink → Prop where
  | empty (hEntries : s.entries = []) : Inked s []
  | some {own : Ink} (h : EntriesInked spacedInk Block.Inked true s.entries own) : Inked s own

end PolicyFormat.Policy
