import PolicyFormat.Proofs.BlankMarks

/-! Every construct of a policy gets the marks that its lines tell, from the words up to the whole file. -/
namespace PolicyFormat.Policy

open Abstract (View Bond)

variable {line start : Int} {own tokens : List Token}

variable {C : Int → Token → Prop} {isEmpty : Int → Bool}

/-! ### Words and lists -/

/-- A node that starts with the token is marked as its line tells. -/
theorem Token.walks_node {t : Token} (h : C line t) (hAfter : line ≤ t.line) {traits : Traits}
    (hFresh : traits.Fresh) (hLine : traits.span.startLine = t.line) (hOffset : traits.span.start = t.offset) :
    Walks isEmpty line t.line traits (noteLine true traits) (takeMark true traits) (traits.Noted C isEmpty line) :=
  (Policy.walks_node hFresh (hLine ▸ hAfter) (Int.le_of_eq hLine)).imp fun _ hMarked => ⟨hMarked, t, h, hLine, hOffset⟩

theorem Token.walks_leaf (t : Token) (hLine : line ≤ t.line) (yields : Option Int) :
    Walks isEmpty line t.endLine (t.leaf yields) ((t.leaf yields).visit noteLine)
      ((t.leaf yields).visit takeMark) (fun marked => marked.text = t.text) :=
  (Policy.walks_leaf ⟨rfl, rfl⟩ hLine t.line_le_endLine).imp fun _ h => h.1

theorem Token.walks_some (t : Token) (hLine : line ≤ t.line) (yields : Option Int) :
    Walks isEmpty line t.endLine (some (t.leaf yields)) (visitOptional noteLine (some (t.leaf yields)))
      (visitOptional takeMark (some (t.leaf yields))) (fun _ => True) :=
  (t.walks_leaf hLine yields).bind fun _ _ => .done trivial

theorem Optionally.walks {kind : TokenKind} {leaf : Option Leaf} (h : Optionally kind leaf own)
    (hAfter : ∀ {line t}, C line t → line ≤ t.line) (hTokens : Tracked C line own) :
    Walks isEmpty line (lineAfter line own) leaf (visitOptional noteLine leaf) (visitOptional takeMark leaf)
      (fun _ => True) := by
  cases h with
  | none => exact .done trivial
  | @some t hKind => exact t.walks_some (hAfter hTokens.1) _

section

variable {α : Type} {note : α → StateM (List Int) α} {mark : α → StateM (List Bool) α} {items : List α}
  {Q : List (Entry α) → Prop} {place : Span} {line last : Int}

/-- A list in brackets is walked through if its entries are. -/
theorem walks_bracketed {opening closing : Token} (hOpening : line ≤ opening.line)
    (hPlace : place.startLine = opening.line)
    (hInner : Walks isEmpty opening.endLine last (items.map .item)
      (ItemList.visitParts.visitEntries note (items.map .item))
      (ItemList.visitParts.visitEntries mark (items.map .item)) Q)
    (hClosing : last ≤ closing.line) (left right : Option Int) :
    Walks isEmpty line closing.endLine (listOf place (some (opening.leaf left)) items (some (closing.leaf right)))
      ((listOf place (some (opening.leaf left)) items (some (closing.leaf right))).visit noteLine note)
      ((listOf place (some (opening.leaf left)) items (some (closing.leaf right))).visit takeMark mark)
      (fun marked => Q marked.entries) := by
  have hNode : Walks isEmpty line opening.line ({ span := place, yields := some 1 } : Traits) _ _ _ :=
    walks_node ⟨rfl, rfl⟩ (hPlace ▸ hOpening) (Int.le_of_eq hPlace)
  refine hNode.bind fun traits _ => ?_
  refine (opening.walks_some (Int.le_refl _) left).bind fun _ _ => ?_
  refine hInner.bind fun entries hEntries => ?_
  exact (closing.walks_some hClosing right).bind fun _ _ => .done hEntries

theorem Parenthesised.walks {traits : α → Traits} {R : Int → α → α → Prop} {D : α → List Token → Prop}
    {g : ItemList α} (h : Parenthesised D g own)
    (hEach : ∀ x ∈ g.items, ∀ own, D x own → Walked C isEmpty traits note mark R x own)
    (hAfter : ∀ {line t}, C line t → line ≤ t.line) (hTokens : Tracked C line own) :
    Walks isEmpty line (lineAfter line own) g (g.visit noteLine note) (g.visit takeMark mark)
      (fun marked => ∃ line, EntriesMarked C traits R line g.items marked.entries) := by
  cases h with
  | @mk opening closing items inner hOpening hInner hClosing =>
    obtain ⟨hOpen, hRest⟩ := hTokens
    obtain ⟨hItems, hClose, -⟩ := tracked_append.1 hRest
    have hEntries := hInner.walks (fun x hx => hEach x (by simpa using hx)) hAfter hItems
    rw [lineAfter_cons, lineAfter_append, items_listOf]
    exact walks_bracketed (hAfter hOpen) (startLine_spanOf opening (inner ++ [closing])) hEntries
      (hAfter hClose) (some 1) (some 2)

/-- The parts of a list without brackets are walked through if its entries are. -/
theorem walks_parts (hInner : Walks isEmpty start last (items.map .item)
      (ItemList.visitParts.visitEntries note (items.map .item))
      (ItemList.visitParts.visitEntries mark (items.map .item)) Q) (traits marked : Traits) :
    Walks isEmpty start last ⟨traits, none, items.map .item, none⟩
      (ItemList.visitParts noteLine note ⟨traits, none, items.map .item, none⟩)
      (ItemList.visitParts takeMark mark ⟨marked, none, items.map .item, none⟩) (fun marked => Q marked.entries) := by
  have hMissing : ∀ line, Walks isEmpty line line (none : Option Leaf) (visitOptional noteLine none)
      (visitOptional takeMark none) fun _ => True := fun _ => .done trivial
  refine (hMissing start).bind fun _ _ => hInner.bind fun entries hEntries => ?_
  exact (hMissing last).bind fun _ _ => .done hEntries

/-- A list without brackets is walked through if its entries are. -/
theorem walks_unbracketed (hPlace : place.startLine = start) (hFirst : line ≤ start)
    (hInner : Walks isEmpty start last (items.map .item) (ItemList.visitParts.visitEntries note (items.map .item))
      (ItemList.visitParts.visitEntries mark (items.map .item)) Q) :
    Walks isEmpty line last (listOf place none items none) ((listOf place none items none).visit noteLine note)
      ((listOf place none items none).visit takeMark mark) (fun marked => Q marked.entries) := by
  have hNode : Walks isEmpty line start ({ span := place, yields := some 1 } : Traits) _ _ _ :=
    walks_node ⟨rfl, rfl⟩ (hPlace ▸ hFirst) (Int.le_of_eq hPlace)
  exact hNode.bind fun marked _ => walks_parts hInner _ marked

end

/-! ### Values -/

variable {α β : Type} {D : α → List Token → Prop} {f : α → β} {xs : List α}

section

variable {μ ν : Type} {u : View μ} {v : View ν} {bond : Bond μ ν} (hSurvey : Survey C isEmpty u v bond)
include hSurvey

theorem Element.Derived.walks {yields : Option Int} {e : Element} (h : e.Derived yields own) (keepsBlank : Bool) :
    Walked C isEmpty Element.traits (Element.visit noteLine) (Element.visit takeMark)
      (NodeMarked C isEmpty Element.traits (fun x y => x.term = y.term)) (e.keeping keepsBlank) own := by
  induction e using Element.induction generalizing yields own keepsBlank with
  | leaf word =>
    cases h with
    | @word _ t hKind =>
      intro line hTokens
      refine ⟨?_, fun _ => rfl⟩
      have hLeaf : Walks isEmpty line t.endLine
          { (t.leaf yields) with traits := { (t.leaf yields).traits with keepsBlank } } _ _ _ :=
        Policy.walks_leaf ⟨rfl, rfl⟩ (hSurvey.after hTokens.1) t.line_le_endLine
      refine hLeaf.bind fun marked hMarked => .done ⟨?_, ?_⟩
      · exact ⟨hMarked.2, t, hTokens.1, rfl, rfl⟩
      · exact congrArg Abstract.Term.word hMarked.1.symm
  | call traits name arguments ih =>
    cases h with
    | @call _ name arguments brackets hName hArguments =>
      intro line hTokens
      refine ⟨?_, fun _ => lineAfter_eq_spanOf⟩
      have hEach : ∀ x ∈ arguments.items, ∀ own, x.Derived (some 0) own → Walked C isEmpty Element.traits
          (Element.visit noteLine) (Element.visit takeMark)
          (NodeMarked C isEmpty Element.traits (fun x y => x.term = y.term)) x own := by
        intro x hx own hOwn
        simpa only [hOwn.keeping_false] using ih x hx hOwn false
      have hNode : Walks isEmpty line name.line
          ({ span := spanOf (name :: brackets), yields, keepsBlank } : Traits) _ _ _ :=
        Token.walks_node hTokens.1 (hSurvey.after hTokens.1) ⟨rfl, rfl⟩ (startLine_spanOf name brackets)
          (start_spanOf name brackets)
      simp only [Element.keeping, Element.withTraits, Element.visit_call]
      refine hNode.bind fun traits hTraits => ?_
      refine (name.walks_leaf (Int.le_refl _) (some 1)).bind fun marked hName => ?_
      refine (hArguments.walks hEach hSurvey.after hTokens.2).bind fun parts hParts => ?_
      obtain ⟨first, hParts⟩ := hParts
      have hTerms := hParts.trail.map_eq fun _ _ _ h => h.related
      exact .done ⟨hTraits, by simp [hName, Token.leaf, hTerms]⟩

end

theorem AfterCommas.map (h : AfterCommas D xs tokens) :
    AfterCommas (fun y own => ∃ x, y = f x ∧ D x own) (xs.map f) tokens := by
  induction h with
  | nil => exact .nil
  | cons hComma hOwn _ ih => exact .cons hComma ⟨_, rfl, hOwn⟩ ih

theorem Separated.map (h : Separated D xs tokens) :
    Separated (fun y own => ∃ x, y = f x ∧ D x own) (xs.map f) tokens := by
  cases h with
  | later h => exact .later h.map
  | first hOwn hMore => exact .first ⟨_, rfl, hOwn⟩ hMore.map

section

variable {μ ν : Type} {u : View μ} {v : View ν} {bond : Bond μ ν} (hSurvey : Survey C isEmpty u v bond)
include hSurvey

theorem BracedDerived.walks {g : ItemList Element} (h : BracedDerived g own) (hTokens : Tracked C line own) :
    Walks isEmpty line (lineAfter line own) g (g.visit noteLine (Element.visit noteLine))
      (g.visit takeMark (Element.visit takeMark)) (fun marked =>
        Abstract.Rows bond.element (fun _ => false) Eq none (u.along Element.traits Element.term g.items)
          (v.along Element.traits Element.term marked.items)) := by
  obtain @⟨opening, closing, items, inner, comma, after, hOpening, hInner, hComma, hClosing⟩ := h
  obtain ⟨hRest, hClose, -⟩ := tracked_append.1 hTokens
  obtain ⟨hOpen, hRest⟩ := hRest
  obtain ⟨hItems, hAfter⟩ := tracked_append.1 hRest
  have hEach : ∀ x ∈ items.map (Element.keeping true), ∀ own,
      (∃ e : Element, x = e.keeping true ∧ e.Derived (some 0) own) →
      Walked C isEmpty Element.traits (Element.visit noteLine) (Element.visit takeMark)
        (EntryMarked C isEmpty Element.traits (fun x y => x.term = y.term)) x own := by
    rintro _ - own ⟨e, rfl, hOwn⟩
    refine (hOwn.walks hSurvey true).mono fun line y hMarked => ⟨hMarked, ?_⟩
    rw [Element.keeping, Element.traits_withTraits]
  have hEntries := hInner.map.walks hEach hSurvey.after hItems
  have hLast : lineAfter opening.endLine inner ≤ closing.line := by
    have hMore := hAfter.le hSurvey.after
    have hBefore := hSurvey.after hClose
    rw [lineAfter_cons, lineAfter_append] at hBefore
    omega
  rw [lineAfter_append]
  refine (walks_bracketed (hSurvey.after hOpen) (startLine_spanOf opening _) hEntries hLast (some 1) none).imp
    fun marked hMarked => ?_
  obtain ⟨_, hMarked⟩ := hMarked
  rw [items_listOf]
  exact hMarked.trail.rows hSurvey.element fun _ _ h => h

theorem Value.Derived.walks {x : Value} (h : x.Derived own) :
    Walked C isEmpty Value.traits (Value.visit noteLine) (Value.visit takeMark)
      (fun _ x y => (x.meaning u).Matches bond (y.meaning v)) x own := by
  intro line hTokens
  cases h with
  | @single e _ h =>
    have hElement := h.walks hSurvey false line hTokens
    rw [h.keeping_false] at hElement
    exact ⟨hElement.1.bind fun marked hMarked => .done (.single hMarked.related), hElement.2⟩
  | @list g _ h =>
    refine ⟨(h.walks hSurvey hTokens).bind fun marked hMarked => .done (.list hMarked), fun _ => ?_⟩
    cases h
    exact lineAfter_eq_spanOf

/-! ### Promises -/

variable {next : Option Token} {body : List Token}

/-- An assignment, walked through from any line that is not after it. -/
theorem Assignment.Derived.walks_from {keepsBlank : Bool} {a : Assignment} (h : a.Derived keepsBlank own)
    (hTokens : Tracked C line own) (hStart : ∀ t ∈ own.head?, start ≤ t.line) :
    Walks isEmpty start (lineAfter line own) a (a.visit noteLine) (a.visit takeMark) (fun marked =>
      a.traits.Marked isEmpty start marked.traits ∧ (a.meaning u).Matches bond (marked.meaning v)) := by
  obtain @⟨name, arrow, value, right, comma, after, hName, hArrow, hValue, hComma⟩ := h
  obtain ⟨hFirst, hSecond, hRest⟩ := hTokens
  obtain ⟨hRight, hAfter⟩ := tracked_append.1 hRest
  have hPlace := startLine_spanOf name (arrow :: (right ++ after))
  have hNode : Walks isEmpty start name.line
      ({ span := spanOf (name :: arrow :: (right ++ after)), keepsBlank } : Traits) _ _ _ :=
    walks_node ⟨rfl, rfl⟩ (hPlace ▸ hStart name rfl) (Int.le_of_eq hPlace)
  rw [lineAfter_cons, lineAfter_cons, lineAfter_append]
  refine hNode.bind fun traits hTraits => ?_
  refine (name.walks_leaf (Int.le_refl _) (some 1)).bind fun markedName hText => ?_
  refine (arrow.walks_leaf (hSurvey.after hSecond) (some 1)).bind fun _ _ => ?_
  refine (hValue.walks hSurvey _ hRight).1.bind fun markedValue hMeaning => ?_
  refine (hComma.walks hSurvey.after hAfter).bind fun _ _ => .done ⟨hTraits, ?_, hMeaning⟩
  exact hText.symm

theorem Guard.Derived.walks {g : Guard} (h : g.Derived own) (hTokens : Tracked C line own) :
    Walks isEmpty line (lineAfter line own) g (g.visit noteLine) (g.visit takeMark)
      (fun marked => g.traits.Noted C isEmpty line marked.traits ∧ g.expression.text = marked.expression.text) := by
  obtain @⟨t, hKind⟩ := h
  have hNode : Walks isEmpty line t.line ({ span := t.span, keepsBlank := true } : Traits) _ _ _ :=
    Token.walks_node hTokens.1 (hSurvey.after hTokens.1) ⟨rfl, rfl⟩ rfl rfl
  refine hNode.bind fun traits hTraits => ?_
  exact (t.walks_leaf (Int.le_refl _) (some 1)).bind fun _ hText =>
    .done ⟨hTraits, hText.symm⟩

/-- Assignments, walked through from any line that is not after them. -/
theorem walks_assignments {xs : List Assignment} (h : ManyBefore (fun _ => Assignment.Derived false) next xs body)
    (hTokens : Tracked C line body) (hStart : ∀ t ∈ body.head?, start ≤ t.line) :
    Walks isEmpty start (lineAfter start body) (xs.map .item)
      (ItemList.visitParts.visitEntries (Assignment.visit noteLine) (xs.map .item))
      (ItemList.visitParts.visitEntries (Assignment.visit takeMark) (xs.map .item)) fun entries =>
        ∃ ys, entries = ys.map .item ∧ List.Forall₂ (fun x y => (x.meaning u).Matches bond (y.meaning v)) xs ys := by
  induction h generalizing line start with
  | nil => exact .done ⟨[], rfl, .nil⟩
  | @cons x xs own more hOwn _ ih =>
    obtain ⟨t, rest, rfl, -⟩ := hOwn.head
    obtain ⟨hFirst, hRest⟩ := tracked_append.1 hTokens
    have hHead : ∀ first ∈ (t :: rest).head?, start ≤ first.line := by simpa using hStart
    have hMore : ∀ next ∈ more.head?, lineAfter line (t :: rest) ≤ next.line := by
      intro next hNext
      obtain ⟨tail, rfl⟩ := List.head?_eq_some_iff.1 hNext
      exact hSurvey.after hRest.1
    rw [lineAfter_append]
    refine (hOwn.walks_from hSurvey hFirst hHead).bind fun y hy => (ih hRest hMore).bind ?_
    rintro _ ⟨ys, rfl, hEach⟩
    exact .done ⟨y :: ys, rfl, .cons hy.2 hEach⟩

/-- The attributes of a promise, up to its semicolon. -/
theorem walks_constraints {constraints : List Assignment}
    (hBody : Many (Assignment.Derived false) constraints body) {semicolon next : Token} (last : Token)
    (hSemicolon : semicolon.kind = .semicolon) (hNext : (body ++ [semicolon]).head? = some next)
    (hTokens : Tracked C line (body ++ [semicolon])) :
    Walks isEmpty line semicolon.line (listOf (openSpan next last) none constraints none)
      ((listOf (openSpan next last) none constraints none).visit noteLine (Assignment.visit noteLine))
      ((listOf (openSpan next last) none constraints none).visit takeMark (Assignment.visit takeMark))
      (fun marked => List.Forall₂ (fun x y => (x.meaning u).Matches bond (y.meaning v)) constraints marked.items) := by
  have hKind : next.kind ≠ .quoted := by
    cases hBody with
    | nil =>
      obtain rfl : semicolon = next := by simpa using hNext
      simp [hSemicolon]
    | cons hOwn hMore =>
      obtain ⟨t, more, rfl, hIdent⟩ := hOwn.head
      obtain rfl : t = next := by simpa using hNext
      simp [hIdent]
  obtain ⟨rest, hSplit⟩ := List.head?_eq_some_iff.1 hNext
  have hFirst : C line next := (hSplit ▸ hTokens : Tracked C line (next :: rest)).1
  have hStart : (openSpan next last).startLine = next.line := hSurvey.single hFirst hKind
  obtain ⟨hItems, hEnd, -⟩ := tracked_append.1 hTokens
  have hHead : ∀ t ∈ body.head?, next.line ≤ t.line := by
    intro t ht
    obtain rfl : t = next := by
      simpa [List.head?_append, Option.mem_def.1 ht] using hNext
    exact Int.le_refl _
  have hLast : lineAfter next.line body ≤ semicolon.line := by
    cases body with
    | nil =>
      obtain rfl : semicolon = next := by simpa using hNext
      exact Int.le_refl _
    | cons t body => exact hSurvey.after hEnd
  refine (walks_unbracketed hStart (hSurvey.after hFirst) (walks_assignments hSurvey hBody hItems hHead)).mono
    (Int.le_refl _) hLast ?_
  rintro marked ⟨ys, hEntries, hEach⟩
  rwa [ItemList.items_eq hEntries]

theorem PromiseeDerived.walks {promisee : Option Value} (h : PromiseeDerived promisee own)
    (hTokens : Tracked C line own) :
    Walks isEmpty line (lineAfter line own) promisee (visitPromisee noteLine promisee)
      (visitPromisee takeMark promisee) (fun marked =>
        Option.Rel (Abstract.Value.Matches bond) (promisee.map (Value.meaning u)) (marked.map (Value.meaning v))) := by
  cases h with
  | none => exact .done .none
  | @some arrow _ _ hArrow hValue =>
    have hBefore := (hSurvey.after hTokens.1).trans arrow.line_le_endLine
    refine ((hValue.walks hSurvey _ hTokens.2).1.mono hBefore (Int.le_refl _) fun _ h => h).bind
      fun marked hMarked => .done (.some hMarked)

theorem Promise.Derived.walks {p : Promise} (h : p.Derived own) :
    Walked C isEmpty Promise.traits (Promise.visit noteLine) (Promise.visit takeMark)
      (NodeMarked C isEmpty Promise.traits (fun x y => (x.meaning u).Matches bond (y.meaning v))) p own := by
  intro line hTokens
  obtain @⟨promiser, semicolon, next, last, promisee, right, comma, after, constraints, body, hPromiser,
    hPromisee, hComma, hBody, hSemicolon, hNext, hLast⟩ := h
  refine ⟨?_, fun _ => lineAfter_eq_spanOf⟩
  simp only [List.cons_append, List.append_assoc] at hTokens
  obtain ⟨hFirst, hRest⟩ := hTokens
  obtain ⟨hRight, hRest⟩ := tracked_append.1 hRest
  obtain ⟨hAfter, hRest⟩ := tracked_append.1 hRest
  have hNode : Walks isEmpty line promiser.line
      ({ span := spanOf (promiser :: (right ++ after ++ body) ++ [semicolon]), keepsBlank := true } : Traits)
      _ _ _ :=
    Token.walks_node hFirst (hSurvey.after hFirst) ⟨rfl, rfl⟩ (startLine_spanOf promiser _) (start_spanOf promiser _)
  have hConstraints := walks_constraints hSurvey hBody last hSemicolon hNext hRest
  rw [lineAfter_append, Promise.visit_eq, Promise.visit_eq]
  refine hNode.bind fun traits hTraits => ?_
  refine (promiser.walks_leaf (Int.le_refl _) (some 1)).bind fun markedPromiser hText => ?_
  refine (hPromisee.walks hSurvey hRight).bind fun markedPromisee hTo => ?_
  refine (hComma.walks hSurvey.after hAfter).bind fun _ _ => ?_
  refine hConstraints.bind fun markedConstraints hMeaning => ?_
  refine (semicolon.walks_leaf (Int.le_refl _) (some 2)).bind fun _ _ =>
    .done ⟨hTraits, hText.symm, hTo, ?_⟩
  rw [Promise.meaning, Promise.meaning, items_listOf]
  exact List.forall₂_map_left_iff.2 (List.forall₂_map_right_iff.2 hMeaning)

theorem Clause.Derived.walks {c : Clause} (h : c.Derived own) :
    Walked C isEmpty Clause.traits (Clause.visit noteLine) (Clause.visit takeMark)
      (EntryMarked C isEmpty Clause.traits (fun x y => (x.meaning u).Matches bond (y.meaning v))) c own := by
  intro line hTokens
  cases h with
  | @guard g _ h =>
    have hGuard := h.walks hSurvey hTokens
    cases h with
    | mk hKind =>
      refine ⟨hGuard.bind fun marked hMarked => .done ⟨⟨hMarked.1, ?_⟩, rfl⟩, fun _ => rfl⟩
      exact .guard hMarked.2
  | @promise p _ h =>
    obtain ⟨hPromise, hEnd⟩ := h.walks hSurvey line hTokens
    have hKeeps : p.traits.keepsBlank = true := by
      cases h
      rfl
    refine ⟨hPromise.bind fun marked hMarked => .done ⟨⟨hMarked.noted, ?_⟩, hKeeps⟩, hEnd⟩
    exact .promise hMarked.related

theorem PromiseType.Derived.walks {p : PromiseType} (h : p.Derived next own) :
    Walked C isEmpty PromiseType.traits (PromiseType.visit noteLine) (PromiseType.visit takeMark)
      (fun _ x y => (x.meaning u).Matches bond (y.meaning v)) p own := by
  intro line hTokens
  obtain @⟨name, first, last, clauses, body, hName, hBody, hFirst, hLast⟩ := h
  refine ⟨?_, fun _ => lineAfter_eq_spanOf⟩
  have hNode : Walks isEmpty line name.line ({ span := spanOf (name :: body) } : Traits) _ _ _ :=
    Token.walks_node hTokens.1 (hSurvey.after hTokens.1) ⟨rfl, rfl⟩ (startLine_spanOf name body)
      (start_spanOf name body)
  have hEntries := ManyBefore.walks hBody (fun _ _ _ hOwn => hOwn.walks hSurvey) hTokens.2
  refine hNode.bind fun traits _ => ?_
  refine (name.walks_leaf (Int.le_refl _) none).bind fun markedName hText => ?_
  refine (walks_parts hEntries _ _).bind fun marked hMarked => .done ⟨hText.symm, ?_⟩
  rw [PromiseType.meaning, PromiseType.meaning, items_listOf]
  exact hMarked.trail.rows hSurvey.statement fun _ _ h => h

/-! ### Blocks -/

variable {s : Specification} {offset : Int}

theorem Selection.Derived.walks {s : Selection} (h : s.Derived own) :
    Walked C isEmpty Selection.traits (Selection.visit noteLine) (Selection.visit takeMark)
      (EntryMarked C isEmpty Selection.traits (fun x y => (x.meaning u).Matches bond (y.meaning v))) s own := by
  intro line hTokens
  cases h with
  | @guard g _ h =>
    have hGuard := h.walks hSurvey hTokens
    cases h with
    | mk hKind =>
      refine ⟨hGuard.bind fun marked hMarked => .done ⟨⟨hMarked.1, ?_⟩, rfl⟩, fun _ => rfl⟩
      exact .guard hMarked.2
  | @assignment a tokens semicolon h hSemicolon =>
    obtain ⟨hOwn, hLast, -⟩ := tracked_append.1 hTokens
    have hHead : ∀ t ∈ tokens.head?, line ≤ t.line := by
      obtain ⟨t, rest, rfl, -⟩ := h.head
      simpa using hSurvey.after hOwn.1
    have hAssignment := h.walks_from hSurvey hOwn hHead
    have hAfter : lineAfter line tokens ≤ lineAfter line (tokens ++ [semicolon]) := by
      rw [lineAfter_append]
      exact (hSurvey.after hLast).trans semicolon.line_le_endLine
    obtain @⟨name, arrow, value, right, comma, after, hName, hArrow, hValue, hComma⟩ := h
    refine ⟨hAssignment.bind fun marked hMarked => .pure hAfter ⟨⟨⟨hMarked.1, name, hOwn.1, ?_, ?_⟩, ?_⟩, rfl⟩,
      fun hTrails => ?_⟩
    · exact startLine_spanOf name _
    · exact start_spanOf name _
    · exact .assignment hMarked.2
    · -- The semicolon ends on the line that the assignment ends on.
      rw [lineAfter_append, lineAfter_cons, lineAfter_nil, hTrails _ _ hLast (.inr hSemicolon)]
      exact lineAfter_eq_spanOf

/-- What stands between the braces, walked through from any line that is not after it. -/
theorem Contents.Derived.walks {c : Contents} (h : c.Derived own) (hTokens : Tracked C line own)
    (hStart : ∀ t ∈ own.head?, start ≤ t.line) :
    Walks isEmpty start (lineAfter line own) c (c.visit noteLine) (c.visit takeMark)
      (fun marked => (c.meaning u).Matches bond (marked.meaning v)) := by
  cases h with
  | @bundle opening closing items inner hOpening hInner hClosing =>
    obtain ⟨hRest, hClose, -⟩ := tracked_append.1 hTokens
    have hEntries := hInner.walks (fun _ _ _ hOwn => hOwn.walks hSurvey) hRest.2
    rw [lineAfter_append]
    refine (walks_bracketed (hStart opening rfl) (startLine_spanOf opening _) hEntries (hSurvey.after hClose)
      none none).bind fun marked hMarked => .done (.bundle ?_)
    rw [items_listOf]
    exact List.forall₂_map_left_iff.2 (List.forall₂_map_right_iff.2 (hMarked.trail.forall₂ fun _ _ _ h => h))
  | @body opening closing items inner hOpening hInner _ hClosing =>
    obtain ⟨hRest, hClose, -⟩ := tracked_append.1 hTokens
    have hEntries := ManyBefore.walks hInner (fun _ _ _ hOwn => hOwn.walks hSurvey) hRest.2
    rw [lineAfter_append]
    refine (walks_bracketed (hStart opening rfl) (startLine_spanOf opening _) hEntries (hSurvey.after hClose)
      none none).bind fun marked hMarked => .done (.body ?_)
    rw [items_listOf]
    exact hMarked.trail.rows hSurvey.statement fun _ _ h => h

omit hSurvey in
theorem ParameterDerived.walks {l : Leaf} (h : ParameterDerived l own)
    (hAfter : ∀ {line t}, C line t → line ≤ t.line) :
    Walked C isEmpty Leaf.traits (Leaf.visit noteLine) (Leaf.visit takeMark)
      (fun _ x y => x.text = y.text) l own := by
  intro line hTokens
  cases h with
  | @mk t hKind =>
    exact ⟨(t.walks_leaf (hAfter hTokens.1) (some 0)).imp fun _ h => h.symm, fun _ => rfl⟩

/-- The parameters of a block, up to the token after them. -/
theorem ParametersDerived.walks {last next : Token} {g : ItemList Leaf} (h : ParametersDerived last next g own)
    (hNext : next.endLine = next.line) (hTokens : Tracked C line own) (hAfter : lineAfter line own ≤ next.line) :
    Walks isEmpty line next.line g (g.visit noteLine (Leaf.visit noteLine)) (g.visit takeMark (Leaf.visit takeMark))
      (fun marked => g.items.map Leaf.text = marked.items.map Leaf.text) := by
  cases h with
  | none =>
    have hEntries : Walks isEmpty next.line next.line (([] : List Leaf).map Entry.item)
        (ItemList.visitParts.visitEntries (Leaf.visit noteLine) [])
        (ItemList.visitParts.visitEntries (Leaf.visit takeMark) []) (fun marked => marked = []) :=
      .done rfl
    refine (walks_unbracketed hNext hAfter hEntries).imp fun marked hMarked => ?_
    simp [ItemList.items, hMarked, listOf]
  | some h =>
    refine (h.walks (fun _ _ _ hOwn => hOwn.walks hSurvey.after) hSurvey.after hTokens).mono (Int.le_refl _) hAfter
      fun marked hMarked => ?_
    obtain ⟨_, hMarked⟩ := hMarked
    exact hMarked.trail.map_eq fun _ _ _ h => h

theorem Block.Derived.walks {b : Block} (h : b.Derived own) :
    Walked C isEmpty Block.traits (Block.visit noteLine) (Block.visit takeMark)
      (fun _ x y => (x.meaning u).Matches bond (y.meaning v)) b own := by
  intro line hTokens
  obtain @⟨keyword, type, name, next, parameters, contents, brackets, inner, hKeyword, hType, hName, hNext,
    hParameters, hContents⟩ := h
  refine ⟨?_, fun _ => lineAfter_eq_spanOf⟩
  have hNode : Walks isEmpty line keyword.line
      ({ span := spanOf (keyword :: type :: name :: (brackets ++ inner)) } : Traits) _ _ _ :=
    Token.walks_node hTokens.1 (hSurvey.after hTokens.1) ⟨rfl, rfl⟩ (startLine_spanOf keyword _)
      (start_spanOf keyword _)
  obtain ⟨hFirst, hSecond, hThird, hRest⟩ := hTokens
  obtain ⟨hBrackets, hInner⟩ := tracked_append.1 hRest
  obtain ⟨opening, more, rfl, hOpening⟩ := hContents.head
  obtain rfl : opening = next := by simpa using hNext
  have hSingle : opening.endLine = opening.line := hSurvey.single hInner.1 (by simp [hOpening])
  rw [lineAfter_cons, lineAfter_cons, lineAfter_cons, lineAfter_append]
  refine hNode.bind fun traits _ => ?_
  refine (keyword.walks_leaf (Int.le_refl _) (some 1)).bind fun _ _ => ?_
  refine (type.walks_leaf (hSurvey.after hSecond) (some 1)).bind fun markedType hTypeText => ?_
  refine (name.walks_leaf (hSurvey.after hThird) (some 1)).bind fun markedName hNameText => ?_
  refine (hParameters.walks hSurvey hSingle hBrackets (hSurvey.after hInner.1)).bind fun markedParameters hTexts => ?_
  refine (hContents.walks hSurvey hInner (by simp)).bind fun markedContents hMeaning => .done ?_
  exact ⟨hTypeText.symm, hNameText.symm, hTexts, hMeaning⟩

/-- Both walks go through a policy file. -/
theorem Specification.Derived.walks (h : s.Derived line offset tokens) (hTokens : Tracked C start tokens) :
    Walks isEmpty start (lineAfter start tokens) s (s.visit noteLine) (s.visit takeMark)
      (fun marked => (s.meaning u).Matches bond (marked.meaning v)) := by
  cases h with
  | @mk blocks tokens hBlocks =>
    have hEntries := ManyBefore.walks hBlocks (fun _ _ _ hOwn => hOwn.walks hSurvey) hTokens
    refine (walks_parts hEntries _ _).imp fun marked hMarked => ?_
    exact List.forall₂_map_left_iff.2 (List.forall₂_map_right_iff.2
      (items_listOf .. ▸ hMarked.trail.forall₂ fun _ _ _ h => h))

/-- The marks of blank lines in a policy file are related to what its lines tell. -/
theorem Specification.Derived.matches_markBlankLines (h : s.Derived line offset tokens)
    (hTokens : Tracked C 0 tokens) : (s.meaning u).Matches bond ((s.markBlankLines isEmpty).meaning v) := by
  obtain ⟨-, starts, hOrder, hWithin, hNotes, hMarks⟩ := h.walks hSurvey hTokens
  have hStarts : s.startLines = starts := by
    rw [startLines_eq, hNotes]
    simp
  have hSorted : (-1 :: starts).Pairwise (· ≤ ·) := by
    refine List.pairwise_cons.2 ⟨fun line hLine => ?_, hOrder⟩
    have := hWithin line hLine
    omega
  obtain ⟨marked, hRun, hMeaning⟩ := hMarks (-1) (by decide) []
  rw [markBlankLines_eq, hStarts, markAfterBlank, (markAfterBlank_go hSorted).1, ← List.append_nil starts, hRun]
  exact hMeaning

end

/-! ### Blank lines where commas and semicolons trail -/

/-- The token comes after the line as tokens of a text do. Only quoted tokens go over several lines, and commas
and semicolons follow what they end. -/
structure Token.Stands (isEmpty : Int → Bool) (line : Int) (t : Token) : Prop extends t.Follows isEmpty line where
  single : t.kind ≠ .quoted → t.endLine = t.line
  trails : t.kind = .comma ∨ t.kind = .semicolon → t.line = line

/-- A node that starts after a line that is not blank is marked if a line is left out between them. -/
theorem Traits.Noted.afterBlank_eq {t marked : Traits} (h : t.Noted C isEmpty line marked)
    (hFollows : ∀ first, C line first → first.Follows isEmpty line) (hLine : isEmpty line = false)
    (hLess : line < t.span.startLine) : marked.afterBlank = decide (line + 2 ≤ t.span.startLine) := by
  rw [h.blank hLess]
  obtain ⟨first, hFirst, hStart, -⟩ := h.first
  by_cases hOut : line + 2 ≤ t.span.startLine
  · rw [(hFollows first hFirst).between _ (by omega) (by omega), decide_eq_true hOut]
  · have hNext : t.span.startLine - 1 = line := by omega
    rw [hNext, hLine, decide_eq_false hOut]

theorem signsTrail_stands : SignsTrail fun line t => t.Stands isEmpty line ∧ isEmpty line = false := by
  intro line t h hKind
  rw [h.1.single (by rcases hKind with hKind | hKind <;> simp [hKind]), h.1.trails hKind]

theorem survey_byLines : Survey (fun line t => t.Stands isEmpty line ∧ isEmpty line = false) isEmpty byLines byMarks
      (Bond.same (Option Bool)) := by
  have hViews : Surveys (fun line t => t.Stands isEmpty line ∧ isEmpty line = false) isEmpty byLines byMarks
      (fun _ => Eq) := by
    refine ⟨rfl, fun _ line previous before t marked hSpan hLine hKeeps hNoted => ?_⟩
    obtain ⟨first, hFirst, -⟩ := hNoted.first
    have hKept : marked.keepsBlank = true := by rw [hNoted.same, hKeeps]
    simp only [byLines, byMarks, hNoted.span, hSpan, hKept, Bool.and_true, ← hLine signsTrail_stands]
    split
    · rfl
    · rw [hNoted.afterBlank_eq (fun _ h => h.1.toFollows) hFirst.2 (by omega)]
  exact ⟨fun h => h.1.after, fun h => h.1.single, hViews, hViews⟩

theorem Tracked.and_inked (h : Tracked (Token.Stands isEmpty) line tokens) (hLine : isEmpty line = false) :
    Tracked (fun line t => t.Stands isEmpty line ∧ isEmpty line = false) line tokens := by
  induction tokens generalizing line with
  | nil => trivial
  | cons t tokens ih => exact ⟨⟨h.1, hLine⟩, ih h.2 h.1.inked⟩

/-- The marks of blank lines tell what the lines of a policy file tell. -/
theorem Specification.Derived.meaning_markBlankLines {offset : Int} {s : Specification}
    (h : s.Derived line offset tokens) (hZero : isEmpty 0 = false)
    (hTokens : Tracked (Token.Stands isEmpty) 0 tokens) :
    (s.markBlankLines isEmpty).meaning byMarks = s.meaning byLines :=
  (h.matches_markBlankLines survey_byLines (hTokens.and_inked hZero)).eq.symm

end PolicyFormat.Policy
