import PolicyFormat.Proofs.Parsing
import PolicyFormat.Proofs.Relabel
import PolicyFormat.Proofs.TreePlacing

/-! Trees of texts whose tokens stand elsewhere. If all tokens are moved, the tree that is read from them is
the old one with its nodes moved; and if the comments are moved along, they go to the same nodes. -/
namespace PolicyFormat.Policy

/-! ### Places that move -/

/-- A change of places that keeps their order. -/
structure Shift where
  line : Int → Int
  offset : Int → Int
  line_lt_line {a b : Int} : a < b → line a < line b
  offset_lt_offset {a b : Int} : a < b → offset a < offset b

namespace Shift

variable (m : Shift)

theorem line_lt_iff {a b : Int} : m.line a < m.line b ↔ a < b :=
  StrictMono.lt_iff_lt fun _ _ => m.line_lt_line

theorem line_le_iff {a b : Int} : m.line a ≤ m.line b ↔ a ≤ b :=
  StrictMono.le_iff_le fun _ _ => m.line_lt_line

theorem offset_lt_iff {a b : Int} : m.offset a < m.offset b ↔ a < b :=
  StrictMono.lt_iff_lt fun _ _ => m.offset_lt_offset

/-- A span at another place. -/
def span (s : Span) : Span :=
  ⟨m.line s.startLine, m.line s.endLine, m.offset s.start, m.offset s.stop⟩

/-- A comment at another place. -/
def comment (c : Comment) : Comment :=
  { c with span := m.span c.span }

/-- Nodes and comments at other places. -/
def labels : Relabel where
  node t := { t with span := m.span t.span, comments := t.comments.map m.comment }
  comment := m.comment

instance : Coe Shift Relabel := ⟨labels⟩

/-- A node as it is read. -/
theorem node_mk (span : Span) (yields : Option Int) (keepsBlank : Bool) :
    m.labels.node { span, yields, keepsBlank } = { span := m.span span, yields, keepsBlank } :=
  rfl

/-- Nothing moves. -/
def still : Shift :=
  ⟨id, id, id, id⟩

/-- What stands below a line goes down by some lines. -/
def below (last : Int) (count : Nat) : Shift where
  __ := still
  line l := if l ≤ last then l else l + (count + 1)
  line_lt_line h := by
    split_ifs <;> omega

theorem span_below {last : Int} {s : Span} (hStart : s.startLine ≤ last) (hEnd : s.endLine ≤ last)
    (count : Nat) : (below last count).span s = s := by
  simp only [span, below, still, hStart, hEnd, if_true, id]

end Shift

/-- A token is moved to another place. -/
structure Token.Moves (m : Shift) (change : Token → Token) (t : Token) : Prop where
  kind : (change t).kind = t.kind
  text : (change t).text = t.text
  span : (change t).span = m.span t.span

/-! ### Trees of moved tokens -/

variable {tokens : List Token}

section

variable {m : Shift} {change : Token → Token} {tokens : List Token}

theorem spanOf_map (hMoves : ∀ t ∈ tokens, t.Moves m change) (hTokens : tokens ≠ []) :
    spanOf (tokens.map change) = m.span (spanOf tokens) := by
  obtain ⟨first, rest, rfl⟩ := List.exists_cons_of_ne_nil hTokens
  have hLast : (first :: rest).getLast? = some ((first :: rest).getLast hTokens) :=
    List.getLast?_eq_some_getLast hTokens
  have hFirst := (hMoves first List.mem_cons_self).span
  have hFinal := (hMoves _ (List.getLast_mem hTokens)).span
  simp only [Token.span, Shift.span, Span.mk.injEq] at hFirst hFinal
  simp only [spanOf, List.map_cons, List.head?_cons]
  rw [← List.map_cons, List.getLast?_map, hLast]
  simp only [Option.map_some, Shift.span, hFirst, hFinal]

variable {next last : Token}

theorem openSpan_map (hNext : next.Moves m change) (hLast : last.Moves m change) :
    openSpan (change next) (change last) = m.span (openSpan next last) := by
  have hFirst := hNext.span
  have hFinal := hLast.span
  simp only [Token.span, Shift.span, Span.mk.injEq] at hFirst hFinal
  simp only [openSpan, Shift.span, hFirst, hFinal]

section

variable {α : Type} {f : α → α}

variable {xs : List α}

theorem ManyBefore.move {R R' : Option Token → α → List Token → Prop} {next : Option Token}
    (h : ManyBefore R next xs tokens) (hMoves : ∀ t ∈ tokens, t.Moves m change)
    (hNext : ∀ t ∈ next, t.Moves m change)
    (hEach : ∀ next x own, (∀ t ∈ next, t.Moves m change) → (∀ t ∈ own, t.Moves m change) →
      R next x own → R' (next.map change) (f x) (own.map change)) :
    ManyBefore R' (next.map change) (xs.map f) (tokens.map change) := by
  induction h with
  | nil => exact .nil
  | @cons x xs own more hOwn hMore ih =>
    obtain ⟨hFirst, hRest⟩ := List.forall_mem_append.1 hMoves
    rw [List.map_append, List.map_cons]
    refine .cons ?_ (ih hRest)
    have hAfter : ∀ t ∈ more.head?.or next, t.Moves m change := by
      intro t ht
      rcases Option.or_eq_some_iff.1 ht with ht | ⟨-, ht⟩
      · exact hRest t (List.mem_of_mem_head? ht)
      · exact hNext t ht
    have hStep := hEach _ x own hAfter hFirst hOwn
    rwa [Option.map_or, ← List.head?_map] at hStep

theorem Many.move {R R' : α → List Token → Prop} (h : Many R xs tokens) (hMoves : ∀ t ∈ tokens, t.Moves m change)
    (hEach : ∀ x own, (∀ t ∈ own, t.Moves m change) → R x own → R' (f x) (own.map change)) :
    Many R' (xs.map f) (tokens.map change) :=
  ManyBefore.move h hMoves (by simp) fun _ x own _ hOwn => hEach x own hOwn

variable {R R' : α → List Token → Prop}

theorem AfterCommas.move (h : AfterCommas R xs tokens) (hMoves : ∀ t ∈ tokens, t.Moves m change)
    (hEach : ∀ x ∈ xs, ∀ own, (∀ t ∈ own, t.Moves m change) → R x own → R' (f x) (own.map change)) :
    AfterCommas R' (xs.map f) (tokens.map change) := by
  induction h with
  | nil => exact .nil
  | @cons comma x xs own more hComma hOwn hMore ih =>
    obtain ⟨hFirst, hRest⟩ := List.forall_mem_append.1 hMoves
    obtain ⟨hHead, hFirst⟩ := List.forall_mem_cons.1 hFirst
    rw [List.map_append, List.map_cons, List.map_cons]
    exact .cons (hHead.kind.trans hComma) (hEach x List.mem_cons_self own hFirst hOwn)
      (ih hRest fun y hy => hEach y (List.mem_cons_of_mem x hy))

theorem Separated.move (h : Separated R xs tokens) (hMoves : ∀ t ∈ tokens, t.Moves m change)
    (hEach : ∀ x ∈ xs, ∀ own, (∀ t ∈ own, t.Moves m change) → R x own → R' (f x) (own.map change)) :
    Separated R' (xs.map f) (tokens.map change) := by
  cases h with
  | later h => exact .later (h.move hMoves hEach)
  | @first x xs own more hOwn hMore =>
    obtain ⟨hFirst, hRest⟩ := List.forall_mem_append.1 hMoves
    rw [List.map_append]
    exact .first (hEach x List.mem_cons_self own hFirst hOwn)
      (hMore.move hRest fun y hy => hEach y (List.mem_cons_of_mem x hy))

end

theorem Token.Moves.leaf {t : Token} (h : t.Moves m change) (yields : Option Int) :
    (t.leaf yields).relabel m = (change t).leaf yields := by
  simp only [Leaf.relabel, Token.leaf, Shift.node_mk, h.span, h.text]

variable {α : Type} {f : α → α}

theorem listOf_relabel (span : Span) (opening closing : Option Leaf) (items : List α) :
    (listOf span opening items closing).relabel m f =
      listOf (m.span span) (opening.map (Leaf.relabel m)) (items.map f) (closing.map (Leaf.relabel m)) := by
  simp only [ItemList.relabel, listOf, Shift.node_mk, List.map_map]
  rfl

/-- A list in brackets as it is read from moved tokens. -/
theorem listOf_move {opening closing : Token} (a b : Option Int) (items : List α)
    (hMoves : ∀ t ∈ opening :: tokens ++ [closing], t.Moves m change) :
    opening.Moves m change ∧ (∀ t ∈ tokens, t.Moves m change) ∧
      closing.Moves m change ∧
      (listOf (spanOf (opening :: tokens ++ [closing])) (some (opening.leaf a)) items
          (some (closing.leaf b))).relabel m f =
        listOf (spanOf (change opening :: tokens.map change ++ [change closing])) (some ((change opening).leaf a))
          (items.map f) (some ((change closing).leaf b)) := by
  have hSpan := spanOf_map hMoves (by simp)
  rw [listOf_relabel, ← hSpan]
  simp only [List.forall_mem_append, List.forall_mem_cons] at hMoves
  obtain ⟨⟨hFirst, hMiddle⟩, hLast, -⟩ := hMoves
  refine ⟨hFirst, hMiddle, hLast, ?_⟩
  rw [Option.map_some, Option.map_some, hFirst.leaf, hLast.leaf]
  simp

variable (hMoves : ∀ t ∈ tokens, t.Moves m change)
include hMoves

theorem Optionally.move {kind : TokenKind} {leaf : Option Leaf} (h : Optionally kind leaf tokens) :
    Optionally kind (leaf.map (Leaf.relabel m)) (tokens.map change) := by
  cases h with
  | none => exact .none
  | @some t hKind =>
    have hToken := hMoves t (List.mem_singleton_self t)
    rw [Option.map_some, hToken.leaf]
    exact .some (hToken.kind.trans hKind)

theorem Parenthesised.move {R R' : α → List Token → Prop} {g : ItemList α} (h : Parenthesised R g tokens)
    (hEach : ∀ x ∈ g.items, ∀ own, (∀ t ∈ own, t.Moves m change) → R x own →
      R' (f x) (own.map change)) : Parenthesised R' (g.relabel m f) (tokens.map change) := by
  cases h with
  | @mk opening closing items inner hOpening hInner hClosing =>
    obtain ⟨hFirst, hMiddle, hLast, hList⟩ := listOf_move (f := f) (some 1) (some 2) items hMoves
    rw [items_listOf] at hEach
    simp only [List.map_cons, List.map_append, List.map_nil]
    exact hList ▸ .mk (hFirst.kind.trans hOpening) (hInner.move hMiddle hEach) (hLast.kind.trans hClosing)

variable {yields : Option Int} {e : Element}

theorem Element.Derived.move (h : e.Derived yields tokens) : (e.relabel m).Derived yields (tokens.map change) := by
  induction e using Element.induction generalizing yields tokens with
  | leaf word =>
    cases h with
    | @word _ t hKind =>
      have hToken := hMoves t (List.mem_singleton_self t)
      rw [Element.relabel_leaf, hToken.leaf]
      exact .word (by rwa [hToken.kind])
  | call traits name arguments ih =>
    cases h with
    | @call _ name arguments brackets hName hArguments =>
      have hSpan := spanOf_map hMoves (by simp)
      obtain ⟨hFirst, hRest⟩ := List.forall_mem_cons.1 hMoves
      rw [Element.relabel_call, hFirst.leaf, Shift.node_mk, ← hSpan]
      exact .call (by rwa [hFirst.kind]) (hArguments.move hRest fun x hx own hOwn hDerived => ih x hx hOwn hDerived)

omit hMoves in
theorem Element.relabel_keeping : (e.keeping true).relabel m = (e.relabel m).keeping true := by
  cases e <;> simp only [keeping, withTraits, relabel_leaf, relabel_call] <;> rfl

theorem BracedDerived.move {g : ItemList Element} (h : BracedDerived g tokens) :
    BracedDerived (g.relabel m (Element.relabel m)) (tokens.map change) := by
  obtain @⟨opening, closing, items, inner, comma, after, hOpening, hInner, hComma, hClosing⟩ := h
  obtain ⟨hFirst, hMiddle, hLast, hList⟩ := listOf_move (f := Element.relabel m) (some 1) none
    (items.map (Element.keeping true)) hMoves
  obtain ⟨hMiddle, hAfter⟩ := List.forall_mem_append.1 hMiddle
  have hItems : (items.map (Element.keeping true)).map (Element.relabel m) =
      (items.map (Element.relabel m)).map (Element.keeping true) := by
    rw [List.map_map, List.map_map]
    exact List.map_congr_left fun x _ => Element.relabel_keeping
  rw [hItems, List.map_append] at hList
  refine hList ▸ ?_
  simp only [List.map_cons, List.map_append, List.map_nil]
  exact .mk (hFirst.kind.trans hOpening) (hInner.move hMiddle fun x _ own hOwn hDerived => hDerived.move hOwn)
    (hComma.move hAfter) (hLast.kind.trans hClosing)

theorem Value.Derived.move {v : Value} (h : v.Derived tokens) : (v.relabel m).Derived (tokens.map change) := by
  cases h with
  | single h => exact .single (h.move hMoves)
  | list h => exact .list (h.move hMoves)

theorem Assignment.Derived.move {keepsBlank : Bool} {a : Assignment} (h : a.Derived keepsBlank tokens) :
    (a.relabel m).Derived keepsBlank (tokens.map change) := by
  cases h with
  | @mk name arrow value right comma after hName hArrow hValue hComma =>
    have hSpan := spanOf_map hMoves (by simp)
    obtain ⟨hFirst, hRest⟩ := List.forall_mem_cons.1 hMoves
    obtain ⟨hSecond, hRest⟩ := List.forall_mem_cons.1 hRest
    obtain ⟨hRight, hAfter⟩ := List.forall_mem_append.1 hRest
    simp only [Assignment.relabel, hFirst.leaf, hSecond.leaf, Shift.node_mk, ← hSpan]
    simp only [List.map_cons, List.map_append]
    exact .mk (hFirst.kind.trans hName) (hSecond.kind.trans hArrow) (hValue.move hRight) (hComma.move hAfter)

theorem PromiseeDerived.move {promisee : Option Value} (h : PromiseeDerived promisee tokens) :
    PromiseeDerived (promisee.map (Value.relabel m)) (tokens.map change) := by
  cases h with
  | none => exact .none
  | some hArrow hValue =>
    obtain ⟨hFirst, hRest⟩ := List.forall_mem_cons.1 hMoves
    exact .some (hFirst.kind.trans hArrow) (hValue.move hRest)

theorem Promise.Derived.move {p : Promise} (h : p.Derived tokens) : (p.relabel m).Derived (tokens.map change) := by
  obtain @⟨promiser, semicolon, next, last, promisee, right, comma, after, constraints, body, hPromiser,
    hPromisee, hComma, hBody, hSemicolon, hNext, hLast⟩ := h
  have hSpan := spanOf_map hMoves (by simp)
  obtain ⟨hFront, hFinal⟩ := List.forall_mem_append.1 hMoves
  have hFinal := hFinal semicolon (List.mem_singleton_self semicolon)
  have hFollowing : next.Moves m change := by
    refine hMoves next ?_
    have hMem := List.mem_of_mem_head? hNext
    simp only [List.mem_append, List.mem_cons] at hMem ⊢
    rcases hMem with hMem | hMem
    · exact .inl (.inr (.inr hMem))
    · exact .inr hMem
  have hOpen := openSpan_map hFollowing (hFront last (List.mem_of_getLast? hLast))
  obtain ⟨hFirst, hRest⟩ := List.forall_mem_cons.1 hFront
  obtain ⟨hHead, hInner⟩ := List.forall_mem_append.1 hRest
  obtain ⟨hRight, hAfter⟩ := List.forall_mem_append.1 hHead
  simp only [Promise.relabel, hFirst.leaf, hFinal.leaf, Shift.node_mk, ← hSpan,
    listOf_relabel, ← hOpen, Option.map_none]
  simp only [List.map_cons, List.map_append, List.map_nil]
  refine .mk (hFirst.kind.trans hPromiser) (hPromisee.move hRight) (hComma.move hAfter)
    (Many.move hBody hInner fun x own hOwn hDerived => hDerived.move hOwn)
    (hFinal.kind.trans hSemicolon) ?_ ?_
  · have hHead := congrArg (Option.map change) hNext
    rwa [← List.head?_map, List.map_append] at hHead
  · have hTail := congrArg (Option.map change) hLast
    rw [← List.getLast?_map] at hTail
    simpa only [List.map_cons, List.map_append, Option.map_some] using hTail

theorem Guard.Derived.move {g : Guard} (h : g.Derived tokens) : (g.relabel m).Derived (tokens.map change) := by
  cases h with
  | @mk t hKind =>
    have hToken := hMoves t (List.mem_singleton_self t)
    simp only [Guard.relabel, hToken.leaf, Shift.node_mk, ← hToken.span]
    exact .mk (hToken.kind.trans hKind)

theorem Clause.Derived.move {c : Clause} (h : c.Derived tokens) : (c.relabel m).Derived (tokens.map change) := by
  cases h with
  | guard h => exact .guard (h.move hMoves)
  | promise h => exact .promise (h.move hMoves)

theorem PromiseType.Derived.move {next : Option Token} {p : PromiseType} (h : p.Derived next tokens)
    (hAfter : ∀ t ∈ next, t.Moves m change) :
    (p.relabel m).Derived (next.map change) (tokens.map change) := by
  obtain @⟨name, first, last, clauses, body, hName, hBody, hFirst, hLast⟩ := h
  have hSpan := spanOf_map hMoves (by simp)
  obtain ⟨hHead, hRest⟩ := List.forall_mem_cons.1 hMoves
  have hNext : first.Moves m change := by
    rcases Option.or_eq_some_iff.1 hFirst with h | ⟨-, h⟩
    · exact hRest first (List.mem_of_mem_head? h)
    · exact hAfter first h
  have hOpen := openSpan_map hNext (hMoves last (List.mem_of_getLast? hLast))
  simp only [PromiseType.relabel, hHead.leaf, Shift.node_mk, ← hSpan, listOf_relabel, ← hOpen, Option.map_none]
  rw [List.map_cons]
  refine .mk (hHead.kind.trans hName) (Many.move hBody hRest fun x own hOwn hDerived => hDerived.move hOwn) ?_ ?_
  · rw [List.head?_map, ← Option.map_or, hFirst, Option.map_some]
  · rw [← List.map_cons, List.getLast?_map, hLast, Option.map_some]

theorem Selection.Derived.move {s : Selection} (h : s.Derived tokens) :
    (s.relabel m).Derived (tokens.map change) := by
  cases h with
  | guard h => exact .guard (h.move hMoves)
  | assignment h hSemicolon =>
    obtain ⟨hFront, hLast⟩ := List.forall_mem_append.1 hMoves
    rw [List.map_append]
    exact .assignment (h.move hFront) ((hLast _ (List.mem_singleton_self _)).kind.trans hSemicolon)

theorem Contents.Derived.move {c : Contents} (h : c.Derived tokens) : (c.relabel m).Derived (tokens.map change) := by
  cases h with
  | @bundle opening closing items inner hOpening hInner hClosing =>
    obtain ⟨hFirst, hMiddle, hLast, hList⟩ := listOf_move (f := PromiseType.relabel m) none none items hMoves
    have hAfter : ∀ t ∈ some closing, t.Moves m change := by
      simpa using hLast
    have hItems : ManyBefore PromiseType.Derived (some (change closing)) (items.map (PromiseType.relabel m))
        (inner.map change) := hInner.move hMiddle hAfter
      fun next x own hNext hOwn hDerived => hDerived.move hOwn hNext
    simp only [Contents.relabel, hList, List.map_cons, List.map_append, List.map_nil]
    exact .bundle (hFirst.kind.trans hOpening) hItems (hLast.kind.trans hClosing)
  | @body opening closing items inner hOpening hInner hItems hClosing =>
    obtain ⟨hFirst, hMiddle, hLast, hList⟩ := listOf_move (f := Selection.relabel m) none none items hMoves
    simp only [Contents.relabel, hList, List.map_cons, List.map_append, List.map_nil]
    exact .body (hFirst.kind.trans hOpening) (Many.move hInner hMiddle fun x own hOwn hDerived => hDerived.move hOwn)
      (by simpa using hItems) (hLast.kind.trans hClosing)

theorem ParametersDerived.move {g : ItemList Leaf} (h : ParametersDerived last next g tokens)
    (hLast : last.Moves m change) (hNext : next.Moves m change) :
    ParametersDerived (change last) (change next) (g.relabel m (Leaf.relabel m)) (tokens.map change) := by
  cases h with
  | none =>
    rw [listOf_relabel, ← openSpan_map hNext hLast]
    exact .none
  | some h =>
    refine .some (h.move hMoves fun x _ own hOwn hDerived => ?_)
    cases hDerived with
    | @mk t hKind =>
      have hToken := hOwn t (List.mem_singleton_self t)
      rw [hToken.leaf]
      exact .mk (hToken.kind.trans hKind)

omit hMoves in
theorem Contents.keyword_relabel (c : Contents) : (c.relabel m).keyword = c.keyword := by
  cases c <;> rfl

theorem Block.Derived.move {b : Block} (h : b.Derived tokens) : (b.relabel m).Derived (tokens.map change) := by
  cases h with
  | @mk keyword type name next parameters contents brackets inner hKeyword hType hName hNext hParameters hContents =>
    have hSpan := spanOf_map hMoves (by simp)
    simp only [List.forall_mem_cons, List.forall_mem_append] at hMoves
    obtain ⟨hFirst, hSecond, hThird, hBrackets, hInner⟩ := hMoves
    simp only [Block.relabel, hFirst.leaf, hSecond.leaf, hThird.leaf, Shift.node_mk, ← hSpan]
    simp only [List.map_cons, List.map_append]
    refine .mk ?_ (hSecond.kind.trans hType) (hThird.kind.trans hName) ?_
      (hParameters.move hBrackets hThird (hInner next (List.mem_of_mem_head? hNext)))
      (hContents.move hInner)
    · exact hFirst.kind.trans (hKeyword.trans (Contents.keyword_relabel contents).symm)
    · rw [List.head?_map, hNext, Option.map_some]

end

/-- No node reaches below the last line that a token reaches. -/
theorem Many.relabel_below {blocks : List Block} (h : Many Block.Derived blocks tokens) {last : Int}
    (hLast : ∀ t ∈ tokens, t.line ≤ last ∧ t.endLine ≤ last) (count : Nat) :
    blocks.map (Block.relabel (Shift.below last count)) = blocks := by
  have hMoves : ∀ t ∈ tokens, t.Moves (Shift.below last count) id := fun t ht =>
    ⟨rfl, rfl, (Shift.span_below (hLast t ht).1 (hLast t ht).2 count).symm⟩
  have hMoved := Many.move h hMoves fun x own hOwn hDerived => hDerived.move hOwn
  rw [List.map_id] at hMoved
  -- Both are what is read from the tokens.
  have hParsed : ∀ {blocks}, Many Block.Derived blocks tokens → ∃ span,
      (⟨tokens, [], .complete 0 0⟩ : Scan).parse = .ok (listOf span none blocks none) :=
    fun h => ⟨_, Scan.parse_eq_ok.2 ⟨0, 0, rfl, .mk h⟩⟩
  obtain ⟨_, hFirst⟩ := hParsed hMoved
  obtain ⟨_, hSecond⟩ := hParsed h
  have hSame := congrArg ItemList.items (Except.ok.inj (hFirst.symm.trans hSecond))
  rwa [items_listOf, items_listOf] at hSame

/-! ### Comments that move along -/

/-- Moved comments that are given to a moved node end up as the comments that are given to the node. -/
def Shift.Follows (m : Shift) {α : Type} (f : α → α) (give : α → List Comment → α × List Comment) (x : α) : Prop :=
  ∀ cs, give (f x) (cs.map m.comment) = (f (give x cs).1, (give x cs).2.map m.comment)

/-- A plan for moved comments. -/
def Plan.mapComments (change : Comment → Comment) (p : Plan) : Plan where
  opening := p.opening.map change
  shares := p.shares.map fun share => (share.1.map change, share.2.map change)
  trailing := p.trailing.map change
  closing := p.closing.map change

variable (m : Shift)

theorem Shift.covers (s : Span) (line : Int) : (m.span s).covers (m.line line) = s.covers line := by
  simp only [Span.covers, span, m.line_le_iff]

/-! ### Sharing -/

section

variable {α : Type} {s : Sharing α} {f : α → α}

/-- A node is moved, and it keeps the moved comments that it kept. -/
structure Sharing.Moves (s : Sharing α) (m : Shift) (f : α → α) (x : α) : Prop where
  span : s.span (f x) = m.span (s.span x)
  owns : ∀ c, s.owns (f x) (m.comment c) = s.owns x c

variable {m} {x : α}

theorem Sharing.precedes_move (hx : s.Moves m f x) (c : Comment) :
    s.precedes (f x) (m.comment c) = s.precedes x c := by
  simp only [precedes, hx.span, Shift.comment, Shift.span, m.line_lt_iff]
  rfl

variable {later : List α}

theorem Sharing.wants_move (hx : s.Moves m f x) (hLater : ∀ y ∈ later, s.Moves m f y) (c : Comment) :
    s.wants (f x) (later.map f) (m.comment c) = s.wants x later c := by
  have hAny : ((later.map f).map s.span).any (·.covers (m.comment c).span.startLine) =
      (later.map s.span).any (·.covers c.span.startLine) := by
    induction later with
    | nil => rfl
    | cons y later ih =>
      obtain ⟨hy, hRest⟩ := List.forall_mem_cons.1 hLater
      simp only [List.map_cons, List.any_cons, ih hRest, hy.span]
      exact congrArg (· || _) (m.covers (s.span y) c.span.startLine)
  have hNext : s.isBeforeNext (later.map f) (m.comment c) = s.isBeforeNext later c := by
    cases later with
    | nil => rfl
    | cons y later =>
      simp only [isBeforeNext, List.map_cons, (hLater y List.mem_cons_self).span, Shift.comment, Shift.span,
        m.line_lt_iff]
      rfl
  have hCovers : (s.span (f x)).covers (m.comment c).span.startLine = (s.span x).covers c.span.startLine :=
    hx.span ▸ m.covers (s.span x) c.span.startLine
  simp only [wants, List.isEmpty_map, Comment.trails, hAny, hNext, hCovers, hx.owns]
  simp only [hx.span, Shift.comment, Shift.span, m.line_lt_iff, m.line_le_iff]

theorem Sharing.collect_move (hx : s.Moves m f x) (hLater : ∀ y ∈ later, s.Moves m f y) (cs : List Comment) :
    s.collect (f x) (later.map f) (cs.map m.comment) =
      ((s.collect x later cs).1.map m.comment, (s.collect x later cs).2.1.map m.comment,
        (s.collect x later cs).2.2.map m.comment) := by
  induction cs with
  | nil => rfl
  | cons c cs ih =>
    simp only [List.map_cons, collect, precedes_move hx, wants_move hx hLater, ih]
    split_ifs <;> rfl

/-- Moved comments are shared out as they were. -/
theorem Sharing.share_move {nodes : List α} (hNodes : ∀ x ∈ nodes, s.Moves m f x) (cs : List Comment) :
    s.share (nodes.map f) (cs.map m.comment) =
      ⟨(s.share nodes cs).slots.map fun slot => ⟨slot.before.map m.comment, f slot.node, slot.given.map m.comment⟩,
        (s.share nodes cs).trailing.map m.comment⟩ := by
  induction nodes generalizing cs with
  | nil => rfl
  | cons x nodes ih =>
    obtain ⟨hx, hRest⟩ := List.forall_mem_cons.1 hNodes
    simp only [List.map_cons, share, collect_move hx hRest, ih hRest]

end

theorem shareAmongParts_move (parts : List (Nat × Span)) (cs : List Comment) (number : Nat) :
    shareAmongParts (parts.map fun part => (part.1, m.span part.2)) (cs.map m.comment) number =
      (shareAmongParts parts cs number).map m.comment := by
  have hParts : ∀ x ∈ parts, partSharing.Moves m (fun part => (part.1, m.span part.2)) x :=
    fun _ _ => ⟨rfl, fun _ => rfl⟩
  have hShare := Sharing.share_move hParts cs
  simp only [shareAmongParts, partSharing] at hShare ⊢
  rw [hShare]
  simp only [List.filter_map, List.flatMap_map, List.map_flatMap, Function.comp_def]

/-! ### Nodes -/

theorem Shift.handOn (rank : Int) (cs : List Comment) :
    Policy.handOn rank (cs.map m.comment) = (Policy.handOn rank cs).map m.comment := by
  simp only [Policy.handOn, List.map_map]
  rfl

theorem Traits.adopt_move (t : Traits) (handed : List Comment) (allowsTail : Bool) :
    (m.labels.node t).adopt (handed.map m.comment) allowsTail =
      (m.labels.node (t.adopt handed allowsTail).1, (t.adopt handed allowsTail).2.map m.comment) := by
  have hSettle : (Keeper.mk t.yields allowsTail).settle (handed.map m.comment) =
      ((Keeper.mk t.yields allowsTail).settle handed).map m.comment := by
    cases allowsTail with
    | false => simp only [Keeper.settle, Bool.false_eq_true, if_false, List.map_map]; rfl
    | true => rfl
  simp only [adopt, Shift.labels, hSettle, m.handOn]
  cases (Keeper.mk t.yields allowsTail).handsOn? <;> simp

theorem Leaf.follows (l : Leaf) : m.Follows (Leaf.relabel m) Leaf.receive l := by
  intro cs
  have hHands : (l.relabel m).traits.handsOn? = l.traits.handsOn? := rfl
  rw [Leaf.receive, Leaf.receive, hHands]
  cases l.traits.handsOn? with
  | some rank => simp only [m.handOn]
  | none => rfl

theorem receiveOptional_follows (l : Option Leaf) : m.Follows (Option.map (Leaf.relabel m)) receiveOptional l := by
  intro cs
  cases l with
  | none => rfl
  | some l => simp only [receiveOptional, Option.map_some, Leaf.follows m l cs]

/-! ### Lists -/

theorem detachFirst_move (line : Option Int) (cs : List Comment) :
    detachFirst (line.map m.line) (cs.map m.comment) = (detachFirst line cs).map m.comment := by
  cases cs with
  | nil => rfl
  | cons c cs =>
    have hLine : (line.map m.line).any ((m.comment c).span.startLine < ·) = line.any (c.span.startLine < ·) := by
      cases line with
      | none => rfl
      | some line => exact decide_eq_decide.2 m.line_lt_iff
    have hEnd : (m.comment c).isEndOfLine = c.isEndOfLine := rfl
    simp only [List.map_cons, detachFirst, hEnd, hLine]
    split <;> rfl

theorem partition_move {p q : Comment → Bool} (h : ∀ c, p (m.comment c) = q c) (cs : List Comment) :
    (cs.map m.comment).partition p = ((cs.partition q).1.map m.comment, (cs.partition q).2.map m.comment) := by
  have hSame : p ∘ m.comment = q := funext h
  have hOther : (not ∘ p) ∘ m.comment = not ∘ q := by
    rw [Function.comp_assoc, hSame]
  rw [List.partition_eq_filter_filter, List.partition_eq_filter_filter, List.filter_map, List.filter_map, hSame,
    hOther]

section

variable {α : Type} {f : α → α} (traits : α → Traits) (rule : ListRule)
  (hTraits : ∀ x, traits (f x) = m.labels.node (traits x)) (hOwns : ∀ c, rule.owns (m.comment c) = rule.owns c)
include hTraits hOwns

theorem ItemList.plan_move (g : ItemList α) (cs : List Comment) :
    (g.relabel m f).plan rule (fun x => (traits x).span) (cs.map m.comment) =
      (g.plan rule (fun x => (traits x).span) cs).mapComments m.comment := by
  have hItems : ∀ x ∈ g.items, (⟨fun x => (traits x).span, true, fun _ => rule.owns⟩ : Sharing α).Moves m f x :=
    fun x _ => ⟨congrArg Traits.span (hTraits x), hOwns⟩
  have hLine : ((g.items.map f).head?.map fun x => (traits x).span.startLine) =
      (g.items.head?.map fun x => (traits x).span.startLine).map m.line := by
    rw [List.head?_map, Option.map_map, Option.map_map]
    exact congrArg (Option.map · _) (funext fun x => congrArg (·.span.startLine) (hTraits x))
  have hBefore := fun l : Leaf => partition_move m (p := fun c => c.span.start < (l.relabel m).traits.span.start)
    (q := fun c => c.span.start < l.traits.span.start) fun c => decide_eq_decide.2 m.offset_lt_iff
  have hAfter := fun l : Leaf => partition_move m (p := fun c => (l.relabel m).traits.span.start < c.span.start)
    (q := fun c => l.traits.span.start < c.span.start) fun c => decide_eq_decide.2 m.offset_lt_iff
  simp only [plan, items_relabel, hLine]
  simp only [ItemList.relabel]
  cases g.opening <;> cases g.closing <;> cases rule.opensBlock <;>
    simp only [Option.map_none, Option.map_some, Bool.false_eq_true, if_false, if_true, hBefore, hAfter,
      detachFirst_move, Sharing.share_move hItems, Plan.mapComments, List.map_map] <;>
    rfl

theorem ItemList.follows (g : ItemList α) {give : α → List Comment → α × List Comment}
    (hGive : ∀ x ∈ g.items, m.Follows f give x) :
    m.Follows (ItemList.relabel m f) (fun g => g.receive rule (fun x => (traits x).span) give) g := by
  intro cs
  have hEach : ∀ (entries : List (Entry α)) (shares : List (List Comment × List Comment)),
      (∀ x, .item x ∈ entries → m.Follows f give x) →
      receiveEach give (entries.map (Entry.relabel m f))
          (shares.map fun share => (share.1.map m.comment, share.2.map m.comment)) =
        ((receiveEach give entries shares).1.map (Entry.relabel m f),
          (receiveEach give entries shares).2.map m.comment) := by
    intro entries
    induction entries with
    | nil => intros; rfl
    | cons entry entries ih =>
      intro shares hFollows
      have hRest := fun shares => ih shares fun x hx => hFollows x (List.mem_cons_of_mem _ hx)
      cases entry with
      | comment c => simp only [List.map_cons, Entry.relabel, receiveEach, hRest]
      | item x =>
        cases shares with
        | nil => rfl
        | cons share shares =>
          simp only [List.map_cons, Entry.relabel, receiveEach, hRest, hFollows x List.mem_cons_self share.2,
            List.map_append, List.map_map]
          rfl
  have hEntries := hEach g.entries (g.plan rule (fun x => (traits x).span) cs).shares
    fun x hx => hGive x (mem_items.2 hx)
  simp only [receive, plan_move m traits rule hTraits hOwns, Plan.mapComments]
  simp only [ItemList.relabel, hEntries, complete, receiveOptional_follows m _ _, ← List.map_append,
    Traits.adopt_move m]
  simp only [List.map_append, List.map_map]
  rfl

end

/-! ### The constructs of a policy -/

theorem Shift.span_node (t : Traits) : (m.labels.node t).span = m.span t.span := rfl

theorem Leaf.traits_relabel (l : Leaf) : (l.relabel m).traits = m.labels.node l.traits := rfl

theorem ItemList.traits_relabel {α : Type} (f : α → α) (g : ItemList α) :
    (g.relabel m f).traits = m.labels.node g.traits := rfl

theorem Element.follows (e : Element) : m.Follows (Element.relabel m) Element.receive e := by
  induction e using Element.induction with
  | leaf word =>
    intro cs
    simp only [Element.relabel_leaf, Element.receive, Leaf.follows m word cs]
  | call traits name arguments ih =>
    intro cs
    have hList := ItemList.follows m Element.traits {} (Element.traits_relabel m) (fun _ => rfl) arguments ih
    have hShare := shareAmongParts_move m [(0, name.traits.span), (1, arguments.traits.span)] cs
    simp only [List.map_cons, List.map_nil] at hShare
    simp only [Element.relabel_call, Element.receive_call, Leaf.traits_relabel, ItemList.traits_relabel,
      Shift.span_node, hShare, Leaf.follows m _ _, hList _, ← List.map_append, Traits.adopt_move m]

theorem Value.follows (v : Value) : m.Follows (Value.relabel m) Value.receive v := by
  intro cs
  cases v with
  | single element => simp only [Value.relabel, Value.receive, Element.follows m element cs]
  | list elements =>
    have hList := ItemList.follows m Element.traits {} (Element.traits_relabel m) (fun _ => rfl) elements
      fun x _ => Element.follows m x
    simp only [Value.relabel, Value.receive, hList cs]

theorem Assignment.follows (a : Assignment) : m.Follows (Assignment.relabel m) Assignment.receive a := by
  intro cs
  obtain ⟨traits, name, arrow, value, comma⟩ := a
  have hShare := shareAmongParts_move m ([(0, name.traits.span), (1, arrow.traits.span), (2, value.traits.span)] ++
    optionalPart 3 (comma.map (·.traits))) cs
  cases comma <;>
    simp only [optionalPart, List.cons_append, List.nil_append, List.append_nil, List.map_cons, List.map_nil,
      Option.map_none, Option.map_some, Option.toList_none, Option.toList_some] at hShare <;>
    simp only [Assignment.receive, Assignment.relabel, Leaf.traits_relabel, Value.traits_relabel, Shift.span_node,
      optionalPart, Option.map_none, Option.map_some, Option.toList_none, Option.toList_some, List.cons_append,
      List.nil_append, List.append_nil, hShare, Leaf.follows m _ _, Value.follows m _ _, receiveOptional,
      ← List.map_append, Traits.adopt_move m]

theorem Guard.follows (g : Guard) : m.Follows (Guard.relabel m) Guard.receive g := by
  intro cs
  simp only [Guard.receive, Guard.relabel, Leaf.follows m _ _, Traits.adopt_move m]

theorem Promise.follows (p : Promise) : m.Follows (Promise.relabel m) Promise.receive p := by
  intro cs
  obtain ⟨traits, promiser, promisee, comma, constraints, semicolon⟩ := p
  have hList := ItemList.follows m Assignment.traits {} (fun _ => rfl) (fun _ => rfl) constraints
    fun x _ => Assignment.follows m x
  have hShare := shareAmongParts_move m ([(0, promiser.traits.span)] ++ optionalPart 1 (promisee.map (·.traits)) ++
    optionalPart 2 (comma.map (·.traits)) ++ [(3, constraints.traits.span), (4, semicolon.traits.span)]) cs
  cases promisee <;> cases comma <;>
    simp only [optionalPart, List.cons_append, List.nil_append, List.append_nil, List.map_cons, List.map_nil,
      Option.map_none, Option.map_some, Option.toList_none, Option.toList_some] at hShare <;>
    simp only [Promise.receive, Promise.relabel, Leaf.traits_relabel, Value.traits_relabel, ItemList.traits_relabel,
      Shift.span_node, optionalPart, Option.map_none, Option.map_some, Option.toList_none, Option.toList_some,
      List.cons_append, List.nil_append, List.append_nil, hShare, Leaf.follows m _ _, Value.follows m _ _, hList _,
      receiveOptional, ← List.map_append, Traits.adopt_move m]

theorem Clause.follows (c : Clause) : m.Follows (Clause.relabel m) Clause.receive c := by
  intro cs
  cases c with
  | guard g => simp only [Clause.relabel, Clause.receive, Guard.follows m g cs]
  | promise p => simp only [Clause.relabel, Clause.receive, Promise.follows m p cs]

theorem PromiseType.follows (p : PromiseType) : m.Follows (PromiseType.relabel m) PromiseType.receive p := by
  intro cs
  have hList := ItemList.follows m Clause.traits {} (Clause.traits_relabel m) (fun _ => rfl) p.clauses
    fun c _ => Clause.follows m c
  have hShare := shareAmongParts_move m [(0, p.name.traits.span), (1, p.clauses.traits.span)] cs
  simp only [List.map_cons, List.map_nil] at hShare
  simp only [PromiseType.receive, PromiseType.relabel, Leaf.traits_relabel, ItemList.traits_relabel,
    Shift.span_node, hShare, Leaf.follows m _ _, hList _, ← List.map_append, Traits.adopt_move m]

theorem Selection.follows (s : Selection) : m.Follows (Selection.relabel m) Selection.receive s := by
  intro cs
  cases s with
  | guard g => simp only [Selection.relabel, Selection.receive, Guard.follows m g cs]
  | assignment a => simp only [Selection.relabel, Selection.receive, Assignment.follows m a cs]

theorem Contents.follows (c : Contents) : m.Follows (Contents.relabel m) Contents.receive c := by
  intro cs
  cases c with
  | bundle statements =>
    have hList := ItemList.follows m PromiseType.traits bundleRule (fun _ => rfl) (fun _ => rfl) statements
      fun p _ => PromiseType.follows m p
    simp only [Contents.relabel, Contents.receive, hList cs]
  | body selections =>
    have hList := ItemList.follows m Selection.traits bodyRule (Selection.traits_relabel m) (fun _ => rfl) selections
      fun s _ => Selection.follows m s
    simp only [Contents.relabel, Contents.receive, hList cs]

theorem Block.follows (b : Block) : m.Follows (Block.relabel m) Block.receive b := by
  intro cs
  have hList := ItemList.follows m Leaf.traits {} (Leaf.traits_relabel m) (fun _ => rfl) b.parameters
    fun l _ => Leaf.follows m l
  have hShare := shareAmongParts_move m [(0, b.keyword.traits.span), (1, b.type.traits.span),
    (2, b.name.traits.span), (3, b.parameters.traits.span), (4, b.contents.traits.span)] cs
  simp only [List.map_cons, List.map_nil] at hShare
  simp only [Block.receive, Block.relabel, Leaf.traits_relabel, ItemList.traits_relabel, Contents.traits_relabel,
    Shift.span_node, hShare, Leaf.follows m _ _, hList _, Contents.follows m _ _, ← List.map_append,
    Traits.adopt_move m]

/-- Moved comments that are given to a moved file end up as the comments that are given to the file. Where
the file itself is said to be does not matter. -/
theorem Specification.receive_move (blocks : List Block) (span other : Span) (cs : List Comment) :
    (Specification.receive (listOf other none (blocks.map (Block.relabel m)) none) (cs.map m.comment)).1 =
      { (Specification.receive (listOf span none blocks none) cs).1.relabel m with
        traits := { span := other, yields := some 1 } } := by
  have hMove := ItemList.follows m Block.traits {} (fun _ => rfl) (fun _ => rfl)
    (listOf span none blocks none) (fun b _ => Block.follows m b) cs
  have hSame : listOf other none (blocks.map (Block.relabel m)) none =
      { (listOf span none blocks none).relabel m (Block.relabel m) with
        traits := { span := other, yields := some 1 } } := by
    simp only [listOf, ItemList.relabel, List.map_map, Option.map_none]
    rfl
  have hFirst : ItemList.relabel m (Block.relabel m) (Specification.receive (listOf span none blocks none) cs).1 =
      (Specification.receive ((listOf span none blocks none).relabel m (Block.relabel m)) (cs.map m.comment)).1 :=
    (congrArg Prod.fst hMove).symm
  rw [hSame, Specification.relabel, hFirst]
  rfl

end PolicyFormat.Policy
