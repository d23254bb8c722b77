import PolicyFormat.Proofs.Contours
import PolicyFormat.Proofs.Parsing
import PolicyFormat.Proofs.Scanned

/-! Where the nodes of a tree stand. A grammar of outlines says which tokens a node is made of, without a word
about places. The place of a node is then the stretch of text from the first to the last of its tokens. -/
namespace PolicyFormat.Policy

/-! ### What nodes are made of -/

/-- What a node is made of: nodes, and tokens that have no node of their own. -/
inductive Constituent where
  | node (o : Outline)
  | token (kind : TokenKind)

/-- The node, if there is one. -/
def Constituent.node? : Constituent → Option Outline
  | .node o => some o
  | .token _ => none

/-- Nodes that each have a comma before them. -/
def afterCommas (items : List Outline) : List Constituent :=
  items.flatMap fun o => [.token .comma, .node o]

/-- In a body, a semicolon ends what is not a class expression. -/
def inBody : Outline → List Constituent
  | .node .guard traits parts => [.node (.node .guard traits parts)]
  | o => [.node o, .token .semicolon]

/-- The node is nothing but its parts. -/
def NodeKind.isPlain : NodeKind → Bool
  | .parameters | .promise | .selections | .arguments | .list => false
  | _ => true

/-- The node is a list in brackets with commas between its elements. -/
def NodeKind.isBracketed : NodeKind → Bool
  | .parameters | .arguments | .list => true
  | _ => false

/-- The node is a list that never has brackets. -/
def NodeKind.isOpen : NodeKind → Bool
  | .specification | .clauses | .constraints => true
  | _ => false

/-- What a node of a kind may be made of. -/
inductive NodeKind.Composes : NodeKind → List Constituent → Prop where
  | plain {kind : NodeKind} {parts : List Outline} (hKind : kind.isPlain = true) : Composes kind (parts.map .node)
  | missing : Composes .parameters []
  /-- The first element may be left out, also before a comma, and a comma may end a list in braces. -/
  | bracketed {kind : NodeKind} {opening closing : Leaf} {items : List Outline} {inner comma : List Constituent}
      (hKind : kind.isBracketed = true) (hInner : inner = afterCommas items ∨ inner = (afterCommas items).tail)
      (hComma : comma = [] ∨ kind = .list ∧ comma = [.token .comma]) :
      Composes kind (.node (.leaf opening) :: (inner ++ comma) ++ [.node (.leaf closing)])
  | selections {opening closing : Leaf} {items : List Outline} :
      Composes .selections (.node (.leaf opening) :: items.flatMap inBody ++ [.node (.leaf closing)])
  | promise {promiser : Leaf} {arrow : List Constituent} {parts : List Outline}
      (hArrow : arrow = [] ∨ arrow = [.token .arrow]) :
      Composes .promise (.node (.leaf promiser) :: arrow ++ parts.map .node)

namespace Outline

mutual

/-- The node is made of the tokens, and each node in it has the property together with its own tokens. -/
inductive Made (P : Outline → List Token → Prop) : Outline → List Token → Prop where
  | leaf {l : Leaf} {t : Token} (hText : l.text = t.text) (h : P (.leaf l) [t]) : Made P (.leaf l) [t]
  | node {kind : NodeKind} {traits : Traits} {parts : List Outline} {whole : List Constituent} {own : List Token}
      (hKind : kind.Composes whole) (hWhole : AllMade P whole own) (hParts : whole.filterMap Constituent.node? = parts)
      (h : P (.node kind traits parts) own) : Made P (.node kind traits parts) own

/-- Nodes and tokens, one after the other. -/
inductive AllMade (P : Outline → List Token → Prop) : List Constituent → List Token → Prop where
  | nil : AllMade P [] []
  | node {o : Outline} {rest : List Constituent} {own more : List Token} (h : Made P o own)
      (hMore : AllMade P rest more) : AllMade P (.node o :: rest) (own ++ more)
  | token {t : Token} {kind : TokenKind} {rest : List Constituent} {more : List Token} (hKind : t.kind = kind)
      (hMore : AllMade P rest more) : AllMade P (.token kind :: rest) (t :: more)

end

section

variable {P Q : Outline → List Token → Prop} {S : Token → Prop}

mutual

theorem Made.imp (hImp : ∀ o own, (∀ t ∈ own, S t) → P o own → Q o own) {o : Outline} {own : List Token}
    (h : Made P o own) (hOwn : ∀ t ∈ own, S t) : Made Q o own :=
  match h with
  | .leaf hText h => .leaf hText (hImp _ _ hOwn h)
  | .node hKind hWhole hParts h => .node hKind (hWhole.imp hImp hOwn) hParts (hImp _ _ hOwn h)

theorem AllMade.imp (hImp : ∀ o own, (∀ t ∈ own, S t) → P o own → Q o own) {whole : List Constituent}
    {own : List Token} (h : AllMade P whole own) (hOwn : ∀ t ∈ own, S t) : AllMade Q whole own :=
  match h with
  | .nil => .nil
  | .node h hMore =>
    have hBoth := List.forall_mem_append.1 hOwn
    .node (h.imp hImp hBoth.1) (hMore.imp hImp hBoth.2)
  | .token hKind hMore => .token hKind (hMore.imp hImp (List.forall_mem_cons.1 hOwn).2)

end

end

variable {P : Outline → List Token → Prop} {own more : List Token}

theorem AllMade.append {front back : List Constituent} (h : AllMade P front own) (hBack : AllMade P back more) :
    AllMade P (front ++ back) (own ++ more) := by
  induction front generalizing own with
  | nil => cases h with | nil => exact hBack
  | cons c rest ih =>
    cases h with
    | node h hMore =>
      rw [List.append_assoc]
      exact .node h (ih hMore)
    | token hKind hMore => exact .token hKind (ih hMore)

theorem AllMade.append_nodes {front back : List Outline} (h : AllMade P (front.map .node) own)
    (hBack : AllMade P (back.map .node) more) : AllMade P ((front ++ back).map .node) (own ++ more) := by
  rw [List.map_append]
  exact h.append hBack

/-- The traits of a node. -/
def traits : Outline → Traits
  | .comment _ => default
  | .leaf l => l.traits
  | .node _ traits _ => traits

/-- The node is no list without brackets, so it has a token at each of its ends. -/
def isDelimited : Outline → Bool
  | .comment _ => false
  | .leaf _ => true
  | .node .parameters _ parts => !parts.isEmpty
  | .node kind _ _ => !kind.isOpen

/-- A node that has tokens stands where they stand. -/
def Covers (o : Outline) (own : List Token) : Prop :=
  o.isDelimited = true → own ≠ [] ∧ o.traits.span = spanOf own

end Outline

open Outline

/-! ### Lists of nodes -/

variable {o : Outline} {own : List Token} {parts : List Outline}

theorem node?_map_node (parts : List Outline) : (parts.map Constituent.node).filterMap Constituent.node? = parts := by
  simp [List.filterMap_map, Function.comp_def, Constituent.node?]

theorem node?_afterCommas (items : List Outline) : (afterCommas items).filterMap Constituent.node? = items := by
  induction items with
  | nil => rfl
  | cons o rest ih => simpa [afterCommas, List.filterMap_cons, Constituent.node?] using ih

theorem node?_tail_afterCommas (items : List Outline) :
    (afterCommas items).tail.filterMap Constituent.node? = items := by
  cases items with
  | nil => rfl
  | cons o rest => exact congrArg (o :: ·) (node?_afterCommas rest)

theorem node?_inBody (o : Outline) : (inBody o).filterMap Constituent.node? = [o] := by
  unfold inBody
  split <;> rfl

theorem node?_flatMap_inBody (items : List Outline) : (items.flatMap inBody).filterMap Constituent.node? = items := by
  induction items with
  | nil => rfl
  | cons o rest ih => simp [List.filterMap_append, node?_inBody, ih]

theorem outline_listOf {α : Type} (kind : NodeKind) (item : α → Outline) (span : Span) (opening closing : Option Leaf)
    (items : List α) :
    (listOf span opening items closing).outline kind item = .node kind { span, yields := some 1 }
        (optionalOutline opening ++ items.map item ++ optionalOutline closing) := by
  simp [listOf, ItemList.outline, List.map_map, Function.comp_def]

theorem Token.made_leaf (t : Token) (yields : Option Int) : Made Covers (.leaf (t.leaf yields)) [t] :=
  .leaf rfl fun _ => ⟨by simp, rfl⟩

theorem Outline.Made.single {P : Outline → List Token → Prop} (h : Made P o own) : AllMade P [.node o] own := by
  simpa using AllMade.node h .nil

theorem Optionally.made {kind : TokenKind} {leaf : Option Leaf} (h : Optionally kind leaf own) :
    AllMade Covers ((optionalOutline leaf).map .node) own := by
  cases h with
  | none => exact .nil
  | some hKind => exact (Token.made_leaf _ _).single

section

variable {α : Type} {item : α → Outline} {items : List α} {own : List Token}

variable {R : Option Token → α → List Token → Prop} {next : Option Token}

theorem ManyBefore.made (h : ManyBefore R next items own) (whole : α → List Constituent)
    (hEach : ∀ next x own, R next x own → AllMade Covers (whole x) own) :
    AllMade Covers (items.flatMap whole) own := by
  induction h with
  | nil => exact .nil
  | cons hOwn hMore ih => exact (hEach _ _ _ hOwn).append ih

theorem ManyBefore.made_nodes (h : ManyBefore R next items own)
    (hEach : ∀ next x own, R next x own → Made Covers (item x) own) :
    AllMade Covers ((items.map item).map .node) own := by
  rw [List.map_map, List.map_eq_flatMap]
  exact h.made _ fun next x own hOwn => (hEach next x own hOwn).single

theorem ManyBefore.made_open (h : ManyBefore R next items own) (item : α → Outline)
    (hEach : ∀ next x own, R next x own → Made Covers (item x) own) (kind : NodeKind) (hKind : kind.isOpen = true)
    (span : Span) : Made Covers ((listOf span none items none).outline kind item) own := by
  have hPlain : kind.isPlain = true := by revert hKind; cases kind <;> decide
  have hNodes := (node?_map_node (items.map item)).trans (List.append_nil _).symm
  rw [outline_listOf]
  refine .node (.plain hPlain) (h.made_nodes hEach) hNodes fun h => ?_
  revert hKind h
  cases kind <;> simp [NodeKind.isOpen, isDelimited]

variable {R : α → List Token → Prop} (hEach : ∀ x ∈ items, ∀ own, R x own → Made Covers (item x) own)
include hEach

theorem AfterCommas.made (h : AfterCommas R items own) : AllMade Covers (afterCommas (items.map item)) own := by
  induction h with
  | nil => exact .nil
  | cons hComma hOwn hMore ih =>
    obtain ⟨hHead, hRest⟩ := List.forall_mem_cons.1 hEach
    exact .token hComma (.node (hHead _ hOwn) (ih hRest))

theorem Separated.made (h : Separated R items own) :
    ∃ inner, (inner = afterCommas (items.map item) ∨ inner = (afterCommas (items.map item)).tail) ∧
      AllMade Covers inner own := by
  cases h with
  | later h => exact ⟨_, .inl rfl, h.made hEach⟩
  | first hOwn hMore =>
    obtain ⟨hHead, hRest⟩ := List.forall_mem_cons.1 hEach
    exact ⟨_, .inr rfl, .node (hHead _ hOwn) (hMore.made hRest)⟩

theorem Separated.made_bracketed (h : Separated R items own) (kind : NodeKind) (hKind : kind.isBracketed = true)
    {after : List Token} {comma : List Constituent}
    (hComma : comma = [] ∨ kind = .list ∧ comma = [.token .comma]) (hAfter : AllMade Covers comma after)
    (opening closing : Token) (yields : Option Int) :
    Made Covers ((listOf (spanOf (opening :: (own ++ after) ++ [closing])) (some opening.leaf) items
        (some (closing.leaf yields))).outline kind item)
      (opening :: (own ++ after) ++ [closing]) := by
  obtain ⟨inner, hInner, hMade⟩ := h.made hEach
  have hNodes : inner.filterMap Constituent.node? = items.map item := by
    rcases hInner with rfl | rfl
    · exact node?_afterCommas _
    · exact node?_tail_afterCommas _
  have hNone : comma.filterMap Constituent.node? = [] := by
    rcases hComma with rfl | ⟨-, rfl⟩ <;> rfl
  rw [outline_listOf]
  refine .node (.bracketed hKind hInner hComma)
    (((Token.made_leaf opening (some 1)).single.append (hMade.append hAfter)).append
      (Token.made_leaf closing yields).single) ?_
    fun _ => ⟨by simp, rfl⟩
  simp [Constituent.node?, hNodes, hNone, optionalOutline]

end

theorem made_plain {kind : NodeKind} (hKind : kind.isPlain = true) {traits : Traits}
    (hParts : AllMade Covers (parts.map .node) own) (h : Covers (.node kind traits parts) own) :
    Made Covers (.node kind traits parts) own :=
  .node (.plain hKind) hParts (node?_map_node parts) h

theorem made_promise {promiser : Token} {arrow : List Constituent} {rest : List Token}
    (hArrow : arrow = [] ∨ arrow = [.token .arrow]) (hParts : AllMade Covers (arrow ++ parts.map .node) rest)
    (keepsBlank : Bool) :
    Made Covers (.node .promise { span := spanOf (promiser :: rest), keepsBlank } (.leaf promiser.leaf :: parts))
      (promiser :: rest) := by
  have hNone : arrow.filterMap Constituent.node? = [] := by
    rcases hArrow with rfl | rfl <;> rfl
  refine .node (.promise hArrow) ((Token.made_leaf promiser (some 1)).single.append hParts) ?_ fun _ => ⟨by simp, rfl⟩
  rw [List.cons_append, List.filterMap_cons, List.filterMap_append, hNone, node?_map_node]
  rfl

/-! ### The constructs of a policy -/

section

variable {own : List Token}

variable {yields : Option Int} {e : Element}

theorem Element.Derived.made_withTraits {f : Traits → Traits} (hf : ∀ t, (f t).span = t.span)
    (h : e.Derived yields own) : Made Covers (e.withTraits f).outline own := by
  induction e using Element.induction generalizing f yields own with
  | leaf word =>
    cases h with
    | word hKind =>
      rw [Element.withTraits, Element.outline_leaf]
      exact .leaf rfl fun _ => ⟨by simp, hf _⟩
  | call traits name arguments ih =>
    cases h with
    | call hName hArguments =>
      obtain @⟨opening, closing, items, inner, hOpening, hInner, hClosing⟩ := hArguments
      have hItems : ∀ e ∈ items, ∀ own, e.Derived (some 0) own → Made Covers e.outline own := by
        intro e he own hOwn
        have hMade := ih e (by simpa using he) (f := id) (fun _ => rfl) hOwn
        cases e <;> simpa [Element.withTraits] using hMade
      have hBrackets := hInner.made_bracketed hItems .arguments rfl (.inl rfl) .nil opening closing (some 2)
      rw [List.append_nil] at hBrackets
      rw [Element.withTraits, Element.outline_call]
      exact made_plain rfl ((Token.made_leaf _ _).single.append hBrackets.single) fun _ => ⟨by simp, hf _⟩

theorem Element.Derived.made (h : e.Derived yields own) : Made Covers e.outline own := by
  have hMade := h.made_withTraits (f := id) fun _ => rfl
  cases e <;> simpa [Element.withTraits] using hMade

theorem Value.Derived.made {x : Value} (h : x.Derived own) : Made Covers x.outline own := by
  cases h with
  | single h => exact h.made
  | list h =>
    obtain @⟨opening, closing, items, inner, comma, after, hOpening, hInner, hComma, hClosing⟩ := h
    have hItems : ∀ e ∈ items, ∀ own, e.Derived (some 0) own →
        Made Covers (e.withTraits (fun t => { t with keepsBlank := true })).outline own :=
      fun e _ own hOwn => hOwn.made_withTraits (f := fun t => { t with keepsBlank := true }) fun _ => rfl
    have hAfter : ∃ bare, (bare = [] ∨ NodeKind.list = .list ∧ bare = [.token .comma]) ∧
        AllMade Covers bare after := by
      cases hComma with
      | none => exact ⟨_, .inl rfl, .nil⟩
      | some hKind => exact ⟨_, .inr ⟨rfl, rfl⟩, .token hKind .nil⟩
    obtain ⟨bare, hBare, hMade⟩ := hAfter
    have hBrackets := hInner.made_bracketed hItems .list rfl hBare hMade opening closing none
    simpa only [Value.outline, outline_listOf, List.map_map, Function.comp_def] using hBrackets

theorem Assignment.Derived.made {keepsBlank : Bool} {a : Assignment} (h : a.Derived keepsBlank own)
    {kind : NodeKind} (hKind : kind.isPlain = true) : Made Covers (a.outline kind) own := by
  cases h with
  | mk hName hArrow hValue hComma =>
    exact made_plain hKind ((Token.made_leaf _ _).single.append ((Token.made_leaf _ _).single.append
      (hValue.made.single.append hComma.made))) fun _ => ⟨by simp, rfl⟩

theorem Guard.Derived.made {g : Guard} (h : g.Derived own) : Made Covers g.outline own := by
  cases h with
  | mk hKind => exact made_plain rfl (Token.made_leaf _ _).single fun _ => ⟨by simp, rfl⟩

theorem Promise.Derived.made {p : Promise} (h : p.Derived own) : Made Covers p.outline own := by
  obtain @⟨promiser, semicolon, next, last, promisee, right, comma, after, constraints, body, hPromiser,
    hPromisee, hComma, hBody, hSemicolon, hNext, hLast⟩ := h
  have hConstraints := hBody.made_open (Assignment.outline .constraint) (fun _ _ _ h => h.made rfl) .constraints rfl
    (openSpan next last)
  have hEnd := hComma.made.append_nodes (@AllMade.append_nodes _ _ _ [_] [_] hConstraints.single
    (Token.made_leaf semicolon (some 2)).single)
  obtain ⟨arrow, hArrow, hRight⟩ : ∃ arrow : List Constituent, (arrow = [] ∨ arrow = [.token .arrow]) ∧
      AllMade Covers (arrow ++ (promisee.map Value.outline).toList.map .node) right := by
    cases hPromisee with
    | none => exact ⟨_, .inl rfl, .nil⟩
    | some hArrow hValue => exact ⟨_, .inr rfl, .token hArrow hValue.made.single⟩
  have hParts := hRight.append hEnd
  rw [List.append_assoc, ← List.map_append] at hParts
  simpa [Promise.outline] using made_promise hArrow hParts true

theorem Clause.Derived.made {c : Clause} (h : c.Derived own) : Made Covers c.outline own := by
  cases h with
  | guard h => exact h.made
  | promise h => exact h.made

theorem PromiseType.Derived.made {next : Option Token} {p : PromiseType} (h : p.Derived next own) :
    Made Covers p.outline own := by
  cases h with
  | @mk name first last clauses body hName hBody hFirst hLast =>
    have hClauses := hBody.made_open Clause.outline (fun _ _ _ h => h.made) .clauses rfl (openSpan first last)
    exact made_plain rfl ((Token.made_leaf name none).single.append hClauses.single) fun _ => ⟨by simp, rfl⟩

theorem Selection.Derived.made {s : Selection} (h : s.Derived own) : AllMade Covers (inBody s.outline) own := by
  cases h with
  | guard h => exact h.made.single
  | assignment h hSemicolon => exact (h.made rfl).single.append (.token hSemicolon .nil)

theorem Contents.Derived.made {c : Contents} (h : c.Derived own) : Made Covers c.outline own := by
  cases h with
  | bundle hOpening hInner hClosing =>
    rw [Contents.outline, outline_listOf]
    refine made_plain rfl ?_ fun _ => ⟨by simp, rfl⟩
    rw [List.map_append, List.map_append]
    exact ((Token.made_leaf _ _).single.append (hInner.made_nodes fun _ _ _ h => h.made)).append
      (Token.made_leaf _ _).single
  | @body opening closing items inner hOpening hInner hItems hClosing =>
    have hMade := hInner.made (fun s => inBody s.outline) fun _ _ _ h => h.made
    rw [← List.flatMap_map] at hMade
    rw [Contents.outline, outline_listOf]
    refine .node .selections (((Token.made_leaf opening none).single.append hMade).append
      (Token.made_leaf closing none).single) ?_ fun _ => ⟨by simp, rfl⟩
    simp [Constituent.node?, node?_flatMap_inBody, optionalOutline]

theorem ParametersDerived.made {last next : Token} {g : ItemList Leaf} (h : ParametersDerived last next g own) :
    Made Covers (g.outline .parameters .leaf) own := by
  cases h with
  | none =>
    rw [outline_listOf]
    exact .node .missing .nil rfl (by simp [Covers, isDelimited, optionalOutline])
  | some h =>
    cases h with
    | @mk opening closing items inner hOpening hInner hClosing =>
      have hItems : ∀ l ∈ items, ∀ own, ParameterDerived l own → Made Covers (.leaf l) own := by
        rintro _ _ _ ⟨_⟩
        exact Token.made_leaf _ _
      simpa using hInner.made_bracketed hItems .parameters rfl (.inl rfl) .nil opening closing (Option.some 2)

theorem Block.Derived.made {b : Block} (h : b.Derived own) : Made Covers b.outline own := by
  cases h with
  | @mk keyword type name next parameters contents brackets inner hKeyword hType hName hNext hParameters hContents =>
    have hParts := (Token.made_leaf keyword (some 1)).single.append ((Token.made_leaf type (some 1)).single.append
      ((Token.made_leaf name (some 1)).single.append (hParameters.made.single.append hContents.made.single)))
    cases contents <;> exact made_plain rfl hParts fun _ => ⟨by simp, rfl⟩

theorem Specification.Derived.made {line offset : Int} {s : Specification} (h : s.Derived line offset own) :
    Made Covers s.outline own := by
  cases h with
  | mk hBlocks => exact hBlocks.made_open Block.outline (fun _ _ _ h => h.made) .specification rfl _

end

/-! ### Places in the text -/

/-- The line on which the last character of a token stands. -/
def Token.lastLine (t : Token) : Int :=
  t.line + t.text.toList.dropLast.count '\n'

theorem Lexeme.Spelling.lastLine_eq {t : Token} (h : Spelling t.kind t.text.toList) : t.endLine = t.lastLine := by
  obtain ⟨body, z, hText, hz⟩ := h.last_solid
  simp [Token.endLine, Token.lastLine, lineFeeds, hText, List.count_append, hz.2.2.1]

/-- A node stands where its tokens stand: it starts at the offset and on the line of the first, and ends after the
last and on the line of the last character of the last. -/
def Outline.Exact (o : Outline) (own : List Token) : Prop :=
  o.isDelimited = true → ∃ first last, own.head? = some first ∧ own.getLast? = some last ∧
    o.traits.span = ⟨first.line, last.lastLine, first.offset, last.stop⟩

theorem Outline.Covers.exact (h : o.Covers own) (hOwn : ∀ t ∈ own, Lexeme.Spelling t.kind t.text.toList) :
    o.Exact own := by
  intro hDelimited
  obtain ⟨hNonempty, hSpan⟩ := h hDelimited
  have hHead := List.head?_eq_some_head hNonempty
  have hLast := List.getLast?_eq_some_getLast hNonempty
  refine ⟨_, _, hHead, hLast, ?_⟩
  rw [hSpan, spanOf, hHead, hLast, ← (hOwn _ (List.getLast_mem hNonempty)).lastLine_eq]

/-- The nodes of a tree are exactly where their tokens are. What is read from an accepted text is made of all its
tokens, each node in it but a list without brackets stands exactly where the tokens stand that it is made of, and
the finished tree has only nodes that were read, at the places where they were read. -/
theorem ofText_nodes_stand_at_tokens {tidying : Tidying} {text : String} {s : Specification}
    (h : Specification.ofText tidying text = .ok s) :
    ∃ parsed, (Scan.ofText text).parse = .ok parsed ∧
      parsed.outline.Made Outline.Exact (Scan.ofText text).tokens ∧
      Contour.StemFrom s.outline.contours parsed.outline.contours := by
  obtain ⟨parsed, hParsed, -⟩ := Specification.exists_of_ofText h
  obtain ⟨line, offset, -, hDerived⟩ := Scan.parse_eq_ok.1 hParsed
  exact ⟨parsed, hParsed, hDerived.made.imp (fun o own hOwn hCovers => hCovers.exact hOwn) scanned_ofText.spelling,
    Specification.stems_ofText h hParsed⟩

/-- A bundle whose first promise type goes and whose last promise ends in a string of two lines. -/
def bundleToTheEnd : String :=
  "bundle agent a()\n\x7breports: vars: \"b\" -> \x7b, c(d),\x7d e => \"f\n g\";\x7d"

theorem bundleToTheEnd_stands_at_tokens :
    ∃ s parsed, Specification.ofText {} bundleToTheEnd = .ok s ∧ (Scan.ofText bundleToTheEnd).parse = .ok parsed ∧
      parsed.outline.Made Outline.Exact (Scan.ofText bundleToTheEnd).tokens ∧
      Contour.StemFrom s.outline.contours parsed.outline.contours := by
  have hOk : (Specification.ofText {} bundleToTheEnd).isOk = true := by decide +kernel
  obtain ⟨s, h⟩ := exists_of_isOk hOk
  obtain ⟨parsed, hParsed⟩ := ofText_nodes_stand_at_tokens h
  exact ⟨s, parsed, h, hParsed⟩

end PolicyFormat.Policy
