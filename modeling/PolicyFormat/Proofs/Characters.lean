import PolicyFormat.Proofs.Conservation
import PolicyFormat.Proofs.Extents
import PolicyFormat.Proofs.Rereading
import PolicyFormat.Proofs.Words

/-! The characters of a laid out text. Each of them stands in the text that was laid out, or belongs to the
line endings, spaces and punctuation of the layout. -/
namespace PolicyFormat.Layout

/-! ### The texts of marks -/

/-- The text of a mark, if it has one, is of the given sort. -/
def Mark.Made (Q : String → Prop) : Mark → Prop
  | .word text => Q text
  | .note text => Q text
  | .tail _ text => Q text
  | .space => True
  | .newline => True

/-- All texts of an ink are of the given sort. -/
def Ink.Made (Q : String → Prop) (ink : Ink) : Prop :=
  ∀ mark ∈ ink, mark.Made Q

section

variable {Q : String → Prop}

@[simp] theorem Ink.made_cons {mark : Mark} {ink : Ink} : Ink.Made Q (mark :: ink) ↔ mark.Made Q ∧ ink.Made Q := by
  simp [Ink.Made]

/-- An ink is of the given sort if its words and its comment lines are. -/
theorem Ink.made_of_mem {ink : Ink} (hWords : ∀ word ∈ ink.words, Q word) (hNotes : ∀ note ∈ ink.notes, Q note) :
    ink.Made Q := by
  intro mark hMark
  cases mark with
  | word text => exact hWords text (List.mem_filterMap.2 ⟨_, hMark, rfl⟩)
  | note text => exact hNotes text (List.mem_filterMap.2 ⟨_, hMark, rfl⟩)
  | tail spaced text => exact hNotes text (List.mem_filterMap.2 ⟨_, hMark, rfl⟩)
  | space | newline => trivial

end

/-- The words that a layout may have whatever is laid out are of the given sort. -/
structure Fixed (Q : String → Prop) : Prop where
  openParen : Q "("
  closeParen : Q ")"
  openBrace : Q "\x7b"
  closeBrace : Q "\x7d"
  comma : Q ","
  semicolon : Q ";"
  assign : Q "=>"
  arrow : Q "->"
  bundle : Q "bundle"
  body : Q "body"

end PolicyFormat.Layout

namespace PolicyFormat.Policy

open Layout Abstract

/-! ### Words are tokens -/

/-- All words in the outline of a tree are of the given sort. -/
def Outline.Says (Q : String → Prop) (o : Outline) : Prop :=
  ∀ c ∈ o.contours, c.Says Q

section

variable {Q : String → Prop} {kind : NodeKind}

theorem Outline.says_leaf {l : Leaf} : (Outline.leaf l).Says Q ↔ Q l.text := by
  simp only [Says, contours_leaf, List.forall_mem_singleton]
  exact ⟨fun | .leaf h => h, .leaf⟩

theorem Outline.says_node {traits : Traits} {parts : List Outline} :
    (Outline.node kind traits parts).Says Q ↔ ∀ part ∈ parts, part.Says Q := by
  simp only [Says, contours_node, List.forall_mem_singleton]
  rw [← List.forall_mem_flatMap]
  exact ⟨fun | .node h => h, .node⟩

theorem ItemList.says_items {α : Type} {item : α → Outline} {g : ItemList α} (h : (g.outline kind item).Says Q) :
    ∀ x, .item x ∈ g.entries → (item x).Says Q :=
  fun x hx => Outline.says_node.1 h _ (by simpa using .inr (.inl ⟨_, hx, rfl⟩))

variable {P : Outline → List Token → Prop}

mutual

theorem Outline.Made.said {o : Outline} {own : List Token} (h : o.Made P own) (hOwn : ∀ t ∈ own, Q t.text) : o.Says Q :=
  match h with
  | .leaf hText _ => Outline.says_leaf.2 (hText ▸ hOwn _ (List.mem_singleton_self _))
  | .node _ hWhole hParts _ => Outline.says_node.2 (hParts ▸ hWhole.said hOwn)

theorem Outline.AllMade.said {whole : List Constituent} {own : List Token} (h : AllMade P whole own)
    (hOwn : ∀ t ∈ own, Q t.text) : ∀ o ∈ whole.filterMap Constituent.node?, o.Says Q :=
  match h with
  | .nil => by simp
  | .node h hMore =>
    have hBoth := List.forall_mem_append.1 hOwn
    List.forall_mem_cons.2 ⟨h.said hBoth.1, hMore.said hBoth.2⟩
  | .token _ hMore => hMore.said (List.forall_mem_cons.1 hOwn).2

end

/-- A tree that is read from a text says nothing but tokens of the text. -/
theorem Specification.says_ofText {tidying : Tidying} {text : String} {s : Specification}
    (h : Specification.ofText tidying text = .ok s) (hTokens : ∀ t ∈ (Scan.ofText text).tokens, Q t.text) :
    s.outline.Says Q := by
  obtain ⟨parsed, hParsed, -⟩ := Specification.exists_of_ofText h
  obtain ⟨line, offset, -, hDerived⟩ := Scan.parse_eq_ok.1 hParsed
  exact (Specification.stems_ofText h hParsed).said (hDerived.made.said hTokens)

end

/-! ### The words of a tree -/

section

variable {Q : String → Prop} {α : Type} {f : α → List String} {entries : List (Entry α)}
  (hEach : ∀ x, .item x ∈ entries → ∀ word ∈ f x, Q word)
include hEach

theorem forall_mem_entryWords {mark last : List String} (hMark : ∀ word ∈ mark, Q word)
    (hLast : ∀ word ∈ last, Q word) : ∀ word ∈ entryWords mark last f entries, Q word := by
  induction entries with
  | nil => simp [entryWords]
  | cons entry rest ih =>
    have hRest := ih fun x hx => hEach x (List.mem_cons_of_mem _ hx)
    cases entry with
    | comment c => exact hRest
    | item x =>
      simp only [entryWords, List.forall_mem_append]
      refine ⟨⟨hEach x List.mem_cons_self, ?_⟩, hRest⟩
      split
      · exact hLast
      · exact hMark

theorem forall_mem_bracketWords (hFixed : Fixed Q) (bare : Bool) : ∀ word ∈ bracketWords f bare entries, Q word := by
  unfold bracketWords
  split_ifs
  · simp
  · simp [hFixed.openParen, hFixed.closeParen]
  · exact List.forall_mem_cons.2 ⟨hFixed.openParen, forall_mem_entryWords hEach (by simpa using hFixed.comma)
      (by simpa using hFixed.closeParen)⟩

end

section

variable {Q : String → Prop} (hFixed : Fixed Q)
include hFixed

theorem forall_mem_braces {words : List String} (h : ∀ word ∈ words, Q word) :
    ∀ word ∈ ["\x7b"] ++ words ++ ["\x7d"], Q word := by
  simpa [or_imp, forall_and, hFixed.openBrace, hFixed.closeBrace] using h

theorem Element.forall_mem_words {e : Element} (hSays : e.outline.Says Q) (outer inner : Bool) :
    ∀ word ∈ e.words outer inner, Q word := by
  induction e using Element.induction generalizing outer with
  | leaf word => simpa [Element.words, Outline.says_leaf] using hSays
  | call traits name arguments ih =>
    obtain ⟨hName, hArguments⟩ : Q name.text ∧ (arguments.outline .arguments Element.outline).Says Q := by
      simpa [Outline.says_node, Outline.says_leaf] using hSays
    rw [Element.words_call]
    refine List.forall_mem_cons.2 ⟨hName, forall_mem_bracketWords (fun e he => ?_) hFixed _⟩
    exact ih e (ItemList.mem_items.2 he) (ItemList.says_items hArguments e he) inner

theorem Value.forall_mem_words {v : Value} (hSays : v.outline.Says Q) (outer inner : Bool) :
    ∀ word ∈ v.words outer inner, Q word := by
  cases v with
  | single e => exact e.forall_mem_words hFixed hSays outer inner
  | list elements =>
    refine forall_mem_braces hFixed (forall_mem_entryWords (fun e he => ?_) (by simpa using hFixed.comma)
      (by split <;> simp [hFixed.comma]))
    exact e.forall_mem_words hFixed (ItemList.says_items hSays e he) inner inner

theorem Assignment.forall_mem_words {kind : NodeKind} {a : Assignment} (hSays : (a.outline kind).Says Q)
    (outer inner : Bool) : ∀ word ∈ a.words outer inner, Q word := by
  simp only [Assignment.outline, Outline.says_node, List.forall_mem_append, List.forall_mem_cons,
    Outline.says_leaf] at hSays
  simpa [Assignment.words, hSays.1.1, hFixed.assign] using a.value.forall_mem_words hFixed hSays.1.2.2.1 _ _

theorem Promise.forall_mem_words {p : Promise} (hSays : p.outline.Says Q) (loose : Bool) :
    ∀ word ∈ p.words loose, Q word := by
  simp only [Promise.outline, Outline.says_node, List.forall_mem_append, List.forall_mem_cons,
    Outline.says_leaf] at hSays
  obtain ⟨⟨⟨⟨hPromiser, -⟩, hPromisee⟩, -⟩, hConstraints, -⟩ := hSays
  have hRight : ∀ word ∈ p.promisee.elim [] (fun v => ["->"] ++ v.words loose loose), Q word := by
    cases hValue : p.promisee with
    | none => simp
    | some v =>
      have hWords := v.forall_mem_words hFixed (hPromisee v.outline (by simp [hValue])) loose loose
      exact List.forall_mem_cons.2 ⟨hFixed.arrow, hWords⟩
  simp only [Promise.words, List.forall_mem_append]
  refine ⟨⟨by simpa using hPromiser, hRight⟩, ?_⟩
  split
  · simpa using hFixed.semicolon
  · refine forall_mem_entryWords (fun a ha => ?_) (by simpa using hFixed.comma) (by simpa using hFixed.semicolon)
    exact a.forall_mem_words hFixed (ItemList.says_items hConstraints a ha) true loose

omit hFixed in
theorem Guard.says_outline {g : Guard} (hSays : g.outline.Says Q) : Q g.expression.text := by
  simpa [Guard.outline, Outline.says_node, Outline.says_leaf] using hSays

theorem Clause.forall_mem_words {c : Clause} (hSays : c.outline.Says Q) (loose : Bool) :
    ∀ word ∈ c.words loose, Q word := by
  cases c with
  | guard g => exact List.forall_mem_singleton.2 (Guard.says_outline hSays)
  | promise p => exact p.forall_mem_words hFixed hSays loose

theorem PromiseType.forall_mem_words {p : PromiseType} (hSays : p.outline.Says Q) (loose : Bool) :
    ∀ word ∈ p.words loose, Q word := by
  simp only [PromiseType.outline, Outline.says_node, List.forall_mem_cons, Outline.says_leaf] at hSays
  refine List.forall_mem_cons.2 ⟨hSays.1, forall_mem_entryWords (fun c hc => ?_) (by simp) (by simp)⟩
  exact c.forall_mem_words hFixed (ItemList.says_items hSays.2.1 c hc) loose

theorem Selection.forall_mem_words {s : Selection} (hSays : s.outline.Says Q) : ∀ word ∈ s.words, Q word := by
  cases s with
  | guard g => exact List.forall_mem_singleton.2 (Guard.says_outline hSays)
  | assignment a =>
    exact List.forall_mem_append.2 ⟨a.forall_mem_words hFixed hSays _ _, by simpa using hFixed.semicolon⟩

theorem Contents.forall_mem_words {c : Contents} (hSays : c.outline.Says Q) (loose : Bool) :
    ∀ word ∈ c.words loose, Q word := by
  cases c with
  | bundle statements =>
    refine forall_mem_braces hFixed (forall_mem_entryWords (fun p hp => ?_) (by simp) (by simp))
    exact p.forall_mem_words hFixed (ItemList.says_items hSays p hp) loose
  | body selections =>
    refine forall_mem_braces hFixed (forall_mem_entryWords (fun s hs => ?_) (by simp) (by simp))
    exact s.forall_mem_words hFixed (ItemList.says_items hSays s hs)

theorem Block.forall_mem_words {b : Block} (hSays : b.outline.Says Q) (loose : Bool) :
    ∀ word ∈ b.words loose, Q word := by
  simp only [Block.outline, Outline.says_node, List.forall_mem_cons, Outline.says_leaf] at hSays
  obtain ⟨hKeyword, hType, hName, hParameters, hContents, -⟩ := hSays
  have hHead : ∀ word ∈ [b.keyword.text, b.type.text, b.name.text], Q word := by simpa using ⟨hKeyword, hType, hName⟩
  have hBrackets := forall_mem_bracketWords (f := fun l : Leaf => [l.text]) (fun l hl => by
    simpa using Outline.says_leaf.1 (ItemList.says_items hParameters l hl)) hFixed true
  exact List.forall_mem_append.2 ⟨List.forall_mem_append.2 ⟨hHead, hBrackets⟩,
    b.contents.forall_mem_words hFixed hContents loose⟩

/-- The words of a tree are words that it says and fixed words. -/
theorem Specification.forall_mem_words {s : Specification} (hSays : s.outline.Says Q) (loose : Bool) :
    ∀ word ∈ s.words loose, Q word := by
  refine forall_mem_entryWords (fun b hb => ?_) (by simp) (by simp)
  exact b.forall_mem_words hFixed (ItemList.says_items hSays b hb) loose

end

/-! ### The texts of an ink -/

/-- A final comma is no other word than the commas before it. -/
theorem tolerates_subset (P : Comment → Prop) : Tolerates P (· ⊆ ·) where
  refl := List.Subset.refl
  append hab hcd := List.append_subset.2 ⟨List.subset_append_of_subset_left _ hab,
    List.subset_append_of_subset_right _ hcd⟩
  trans := List.Subset.trans
  finalComma hItems hLength _ := by
    rw [entryWords_eq_append [","] [","] _ hItems (List.length_pos_iff.1 (Nat.zero_lt_of_lt hLength))]
    intro word hWord
    simp only [List.mem_append] at hWord ⊢
    exact hWord.imp_left (Or.imp_right .inl)

section

variable {P : Comment → Prop} {tidying : Tidying} {text : String} {s y : Specification} {ink : Ink}
  (hTree : Specification.ofText tidying text = .ok s) (hPlain : Specification.plain y = Specification.plain s)
  (hFormed : Specification.Formed P y) (hInked : Specification.Inked y ink)
include hTree hPlain hFormed hInked

/-- Every comment line that is laid out is one of the text. -/
theorem Specification.exists_comment {note : String} (h : note ∈ ink.notes) :
    ∃ t ∈ (Scan.ofText text).comments, normalNote t.text = note := by
  have hShown : (ink.notes : Multiset String) = s.tally shownNotes := by
    have hDiffers := Specification.differs shownNotes_weighs hFormed hInked
    rw [Differs, inkTally_notes, Specification.tally_of_plain _ hPlain] at hDiffers
    simpa [inkTally] using hDiffers
  have hAll : note ∈ s.tally allNotes := by
    rw [allNotes_eq, Specification.tally_add, ← hShown]
    exact Multiset.mem_add.2 (.inl h)
  rw [Specification.tally_ofText hTree] at hAll
  simpa using hAll

/-- The ink of a tree is made of the tokens and the comments that the tree was read from, and of fixed words. -/
theorem Specification.Inked.made {Q : String → Prop} (hFixed : Fixed Q)
    (hTokens : ∀ t ∈ (Scan.ofText text).tokens, Q t.text)
    (hComments : ∀ t ∈ (Scan.ofText text).comments, Q (normalNote t.text)) : ink.Made Q := by
  have hSays : y.outline.Says Q := by
    rw [Outline.Says, Specification.contours_of_plain hPlain]
    exact Specification.says_ofText hTree hTokens
  refine Ink.made_of_mem (fun word hWord => ?_) fun note hNote => ?_
  · exact Specification.forall_mem_words hFixed hSays true word
      (hInked.words_related (tolerates_subset P) hFormed hWord)
  · obtain ⟨t, ht, rfl⟩ := Specification.exists_comment hTree hPlain hFormed hInked hNote
    exact hComments t ht

end

/-! ### The characters of tokens and comments -/

/-- The characters of tokens and comments stand in the text. -/
theorem Scanned.mem_text {line offset : Int} {cs : List Char} {scan : Scan} (h : Scanned line offset cs scan) :
    (∀ t ∈ scan.tokens, ∀ c ∈ t.text.toList, c ∈ cs) ∧ ∀ t ∈ scan.comments, ∀ c ∈ t.text.toList, c ∈ cs := by
  refine ⟨fun t ht c hc => ?_, fun t ht c hc => ?_⟩
  · obtain ⟨-, before, after, rfl, -⟩ := h.token_located t ht
    exact List.mem_append_left _ (List.mem_append_right _ hc)
  · obtain ⟨before, more, after, rfl, -, hText, -⟩ := h.comment_located t ht
    rw [hText, String.toList_ofList] at hc
    have hPrefix : Text.trimRight ('#' :: more) <+: '#' :: more := List.rdropWhile_prefix _ _
    exact List.mem_append_right _ (List.mem_append_left _ (hPrefix.subset hc))

theorem mem_normalNote {line : String} {c : Char} (h : c ∈ (normalNote line).toList) :
    c = '#' ∨ c = ' ' ∨ c ∈ line.toList := by
  unfold normalNote at h
  split at h
  · rename_i d rest hLine
    split_ifs at h with hPlain hBlank
    · exact .inr (.inr h)
    · have hMem : c = '#' ∨ c = ' ' ∨ c ∈ rest := by simpa using h
      exact hMem.imp_right (Or.imp_right fun hc => by simp [hLine, hc])
    · have hMem : c = '#' ∨ c = ' ' ∨ c ∈ d :: rest := by simpa using h
      exact hMem.imp_right (Or.imp_right fun hc => hLine ▸ List.mem_cons_of_mem _ hc)
  · exact .inl (by simpa using h)

/-- What is known of each comment of a text, with its lines. -/
def Comment.Quoted (text : String) (c : Comment) : Prop :=
  c.Found text ∧ ∀ line ∈ c.lines, ∃ t ∈ (Scan.ofText text).comments, t.text = line

/-- A tree that is read from a text has the comments of the text. -/
theorem Specification.quoted_ofText {tidying : Tidying} {text : String} {s : Specification}
    (h : Specification.ofText tidying text = .ok s) : Specification.Formed (Comment.Quoted text) s := by
  have hSteady : Steady (Comment.Quoted text) := by
    rintro c d hSame ⟨hFound, hLines⟩
    have hEq : c.unplaced.lines = d.unplaced.lines := congrArg Comment.lines hSame
    exact ⟨Comment.steady_found text c d hSame hFound, fun line hLine => hLines line (hEq ▸ hLine)⟩
  have hAll : ∀ c ∈ commentsOf text, c.Quoted text := by
    intro c hc
    refine ⟨(found_of_mem_commentsOf text hc).1, fun line hLine => ?_⟩
    obtain ⟨d, hd, -, hLines, -⟩ := mem_groupsOf text hc
    have hMem : line ∈ (groupsOf text).flatMap (·.lines) := List.mem_flatMap.2 ⟨d, hd, hLines ▸ hLine⟩
    rw [(grouped_groupsOf text).lines_eq] at hMem
    exact List.mem_map.1 hMem
  obtain ⟨parsed, hParsed, rfl⟩ := Specification.exists_of_ofText h
  have hPlaced := Specification.formed_received text hSteady (fun _ h => h.1) hAll hParsed
  exact Specification.formed_tidy (fun c _ hc => ⟨⟨hc.1.legible, hc.1.apart.ordered, hc.1.apart.apart⟩, hc.2⟩)
    tidying ((Specification.formed_markBlankLines _ _).2 hPlaced)

end PolicyFormat.Policy

namespace PolicyFormat

open Policy Layout Abstract

/-! ### The characters of a beautified text -/

theorem Layout.Written.forall_mem {p : Char → Prop} {ending : List Char} {pending : List String} {ink : Ink}
    {cs : List Char} (h : Written ending pending ink cs) (hSpace : p ' ') (hEnding : ∀ c ∈ ending, p c)
    (hInk : ink.Made (fun text => ∀ c ∈ text.toList, p c)) (hPending : ∀ c ∈ tailChars pending, p c) :
    ∀ c ∈ cs, p c := by
  induction h with
  | nil pending => exact hPending
  | newline indent hEmpty hRest ih =>
    have hMore := ih (Ink.made_cons.1 hInk).2 (by simp)
    have hIndent : ∀ c ∈ List.replicate indent ' ', p c := fun c hc => List.eq_of_mem_replicate hc ▸ hSpace
    simp only [List.forall_mem_append]
    exact ⟨hPending, hEnding, hIndent, hMore⟩
  | @tail _ spaced text _ _ hRest ih =>
    obtain ⟨hTail, hInk⟩ := Ink.made_cons.1 hInk
    refine ih hInk ?_
    rw [tailChars_append, List.forall_mem_append]
    refine ⟨hPending, ?_⟩
    have hText : ∀ c ∈ text.toList, p c := hTail
    cases spaced <;> simpa [tailChars, Mark.tails, hSpace] using hText
  | @mark _ mark _ _ hNewline hTail hRest ih =>
    obtain ⟨hMark, hInk⟩ := Ink.made_cons.1 hInk
    rw [List.forall_mem_append]
    refine ⟨?_, ih hInk hPending⟩
    cases mark with
    | word text => exact hMark
    | note text => exact hMark
    | space => simpa [Mark.text] using hSpace
    | tail spaced text => simp [Mark.tails] at hTail
    | newline => exact absurd rfl hNewline

theorem Layout.Spells.forall_mem {p : Char → Prop} {ink : Ink} {lines : List Line} (h : Spells ink lines)
    (hLines : lines ≠ []) {ending : String} (hSpace : p ' ') (hEnding : ∀ c ∈ ending.toList, p c)
    (hInk : ink.Made (fun text => ∀ c ∈ text.toList, p c)) : ∀ c ∈ (renderLines ending lines).toList, p c := by
  obtain ⟨indent, cs, hText, -, hWritten⟩ := h.written hLines ending
  rw [hText, List.forall_mem_append]
  exact ⟨fun c hc => List.eq_of_mem_replicate hc ▸ hSpace, hWritten.forall_mem hSpace hEnding hInk (by simp)⟩

/-- The characters that a layout may have whatever is laid out. -/
def layoutChars : List Char :=
  " #()\x7b\x7d,;=>-bundleody".toList

theorem mem_layoutChars {word : String} (h : word.toList.all layoutChars.contains = true) :
    ∀ c ∈ word.toList, c ∈ layoutChars := by
  simpa using h

/-- Every character of a beautified text stands in the text that it was made from, or belongs to the line
ending, to a space, to punctuation or to a keyword. -/
theorem mem_of_beautify {options : Options} {text output : String} (h : beautify options text = .ok output) :
    ∀ c ∈ output.toList, c ∈ text.toList ∨ c ∈ (lineEndingFor text options.lineEnding).toList ∨ c ∈ layoutChars := by
  obtain ⟨-, s, -, -, hTree, -, -⟩ := beautify_eq_ok h
  obtain ⟨lines, y, ink, -, rfl, hNonempty, hPlain, hInked, hSpells⟩ := lines_of_beautify hTree h
  have hFormed := Specification.formed_of_plain hPlain (Specification.quoted_ofText hTree)
  refine hSpells.forall_mem hNonempty (.inr (.inr (by decide))) (fun c hc => .inr (.inl hc)) ?_
  refine hInked.made hTree hPlain hFormed ?_ (fun t ht c hc => .inl (scanned_ofText.mem_text.1 t ht c hc))
    fun t ht c hc => ?_
  · constructor <;> exact fun c hc => .inr (.inr (mem_layoutChars (by decide) c hc))
  · rcases mem_normalNote hc with rfl | rfl | hMem
    · exact .inr (.inr (by decide))
    · exact .inr (.inr (by decide))
    · exact .inl (scanned_ofText.mem_text.2 t ht c hMem)

end PolicyFormat
