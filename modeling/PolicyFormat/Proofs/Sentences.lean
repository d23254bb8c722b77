import PolicyFormat.Proofs.Derivation
import PolicyFormat.Proofs.Grammar

/-! Every sentence of the grammar is derived from some tree: each production keeps what its symbols
stand for. -/
namespace PolicyFormat.Policy.Grammar

/-- The tokens are one token of the given kind. -/
def IsToken (kind : TokenKind) (tokens : List Token) : Prop :=
  ∃ t, tokens = [t] ∧ t.kind = kind

/-- What the tokens are that a nonterminal yields. -/
def Stands : Nonterminal → List Token → Prop
  | .specification | .blocksNode | .blocks => fun ts => ∃ bs, Many Block.Derived bs ts
  | .block | .bundle | .body => fun ts => ∃ b, Block.Derived b ts
  | .bundleToken => IsToken .bundle
  | .bodyToken => IsToken .body
  | .parametersNode => fun ts => ∀ last next, ∃ g, ParametersDerived last next g ts
  | .parameters => fun ts => ∃ ls, Separated ParameterDerived ls ts
  | .parameter => fun ts => ∃ l, ParameterDerived l ts
  | .statementsNode => fun ts => ∃ c, Contents.Derived c ts ∧ c.keyword = .bundle
  | .statements => fun ts => ∀ next, ∃ ps, ManyBefore PromiseType.Derived (some next) ps ts
  | .statement => fun ts => ∀ next, ∃ p, PromiseType.Derived (some next) p ts
  | .promiseType => IsToken .promiseType
  | .clausesNode | .clauses => fun ts => ∃ cs, Many Clause.Derived cs ts
  | .clause => fun ts => ∃ c, Clause.Derived c ts
  | .promiseLine | .promiserStatement | .promiseeStatement => fun ts => ∃ p, Promise.Derived p ts
  | .constraintsNode | .constraints => fun ts => ∃ xs, Many (Assignment.Derived false) xs ts
  | .constraint => fun ts => ∃ a, Assignment.Derived false a ts
  | .selectionsNode => fun ts => ∃ c, Contents.Derived c ts ∧ c.keyword = .body
  | .selections => fun ts => ∃ xs, Many Selection.Derived xs ts ∧ xs ≠ []
  | .selection => fun ts => ∃ s, Selection.Derived s ts
  | .assignment => fun ts => ∃ a, Assignment.Derived true a ts
  | .guard => fun ts => ∃ g, Guard.Derived g ts
  | .guardExpression => IsToken .guard
  | .value => fun ts => ∃ v, Value.Derived v ts
  | .list => fun ts => ∃ g, BracedDerived g ts
  | .elementsNode => fun ts => ∃ g, Parenthesised (Element.Derived (some 0)) g ts
  | .elements => fun ts => ∃ es, Separated (Element.Derived (some 0)) es ts
  | .element | .call => fun ts => ∀ yields, ∃ e, Element.Derived yields e ts
  | .callee => fun ts => ∃ t, ts = [t] ∧ Parser.startsCall t.kind = true
  | .optionalComma => fun ts => ∃ l, Optionally .comma l ts
  | .comma => IsToken .comma
  | .semicolon => IsToken .semicolon
  | .arrow => IsToken .arrow
  | .assign => IsToken .assign
  | .openParen => IsToken .openParen
  | .closeParen => IsToken .closeParen
  | .openBrace | .keepingOpenBrace => IsToken .openBrace
  | .closeBrace => IsToken .closeBrace
  | .ident | .constraintId => IsToken .ident
  | .symbol => IsToken .symbol
  | .quoted => IsToken .quoted
  | .nakedVar => IsToken .nakedVar
  | .nothing | .empty => fun ts => ts = []

/-- What the tokens are that symbols yield one after the other. -/
def StandFor : List Sign → List Token → Prop
  | [], ts => ts = []
  | .terminal kind :: rest, ts => ∃ t more, ts = t :: more ∧ t.kind = kind ∧ StandFor rest more
  | .nonterminal left :: rest, ts => ∃ own more, ts = own ++ more ∧ Stands left own ∧ StandFor rest more

/-- The production keeps what its symbols stand for. -/
def Keeps (production : Production) : Prop :=
  ∀ ts, StandFor production.output ts → Stands production.input ts

/-! ### Lists -/

section

variable {α : Type}

theorem ManyBefore.concat {R : Option Token → α → List Token → Prop} {next : Option Token} {xs : List α}
    {x : α} {own more : List Token} (h : ManyBefore R (more.head?.or next) xs own) (hx : R next x more) :
    ManyBefore R next (xs ++ [x]) (own ++ more) := by
  induction h with
  | nil =>
    have hLast : ManyBefore R next [x] (more ++ []) := .cons hx .nil
    simpa using hLast
  | @cons y ys first rest hOwn hMore ih =>
    rw [List.append_assoc]
    refine .cons ?_ ih
    rw [List.head?_append, Option.or_assoc]
    exact hOwn

variable {R : α → List Token → Prop} {comma : Token} {xs : List α} {x : α} {own more : List Token}

theorem AfterCommas.concat (h : AfterCommas R xs own) (hComma : comma.kind = .comma) (hx : R x more) :
    AfterCommas R (xs ++ [x]) (own ++ comma :: more) := by
  induction h with
  | nil => simpa using AfterCommas.cons hComma hx .nil
  | cons hFirst hOwn hMore ih => simpa using AfterCommas.cons hFirst hOwn ih

theorem Separated.concat (h : Separated R xs own) (hComma : comma.kind = .comma) (hx : R x more) :
    Separated R (xs ++ [x]) (own ++ comma :: more) := by
  cases h with
  | later h => exact .later (AfterCommas.concat h hComma hx)
  | first hOwn hMore =>
    rw [List.append_assoc]
    exact .first hOwn (AfterCommas.concat hMore hComma hx)

theorem Separated.one (hx : R x own) : Separated R [x] own := by
  simpa using Separated.first hx .nil

end

/-- The productions of a list keep what their symbols stand for if its elements can be put one after
the other and into brackets. -/
theorem keeps_lists {node items item opening closing : Nonterminal} {separator : List Sign}
    {mayBeEmpty : Bool} (hOne : ∀ ts, Stands item ts → Stands items ts)
    (hMore : ∀ own ts, Stands items own → StandFor (separator ++ [.nonterminal item]) ts → Stands items (own ++ ts))
    (hNone : mayBeEmpty = true → Stands items [])
    (hNode : ∀ front own back, Stands opening front → Stands items own → Stands closing back →
      Stands node (front ++ (own ++ back))) :
    ∀ production ∈ lists node items item opening closing separator mayBeEmpty, Keeps production := by
  intro production hMem
  simp only [lists, List.mem_append, List.mem_cons, List.not_mem_nil, or_false] at hMem
  rcases hMem with (hMem | hMem) | hMem
  · rcases hMem with rfl | rfl
    · rintro ts ⟨own, more, rfl, hOwn, rfl⟩
      rw [List.append_nil]
      exact hOne own hOwn
    · rintro ts ⟨own, more, rfl, hOwn, hRest⟩
      exact hMore own more hOwn hRest
  · split at hMem
    · rename_i hEmpty
      obtain rfl := List.mem_singleton.1 hMem
      rintro ts rfl
      exact hNone hEmpty
    · cases hMem
  · subst hMem
    rintro ts ⟨front, -, rfl, hFront, own, -, rfl, hOwn, none, -, rfl, rfl, back, -, rfl, hBack, rfl⟩
    rw [List.nil_append, List.append_nil]
    exact hNode front own back hFront hOwn hBack

/-! ### The productions -/

theorem keeps_tokenProductions : ∀ production ∈ tokenProductions, Keeps production := by
  simp only [tokenProductions, List.forall_mem_cons, List.not_mem_nil, false_imp_iff, implies_true, and_true]
  refine ⟨?_, ?_, ?_, ?_, ?_, ?_, ?_, ?_, ?_, ?_, ?_, ?_, ?_, ?_, ?_, ?_, ?_, ?_, ?_⟩
  all_goals first
    | (rintro ts ⟨t, more, rfl, hKind, rfl⟩; exact ⟨t, rfl, hKind⟩)
    | (rintro ts rfl; rfl)

theorem stands_word {kind : TokenKind} (hKind : Parser.startsElement kind = true) {ts : List Token}
    (h : IsToken kind ts) (yields : Option Int) : ∃ e, Element.Derived yields e ts := by
  obtain ⟨t, rfl, rfl⟩ := h
  exact ⟨_, .word hKind⟩

theorem keeps_one {left right : Nonterminal} (h : ∀ ts, Stands right ts → Stands left ts) :
    Keeps (produces left [right]) := by
  rintro ts ⟨own, -, rfl, hOwn, rfl⟩
  rw [List.append_nil]
  exact h own hOwn

theorem keeps_valueProductions : ∀ production ∈ valueProductions, Keeps production := by
  have hSingle : ∀ ts, (∀ yields, ∃ e, Element.Derived yields e ts) → ∃ v, Value.Derived v ts := by
    intro ts h
    obtain ⟨e, he⟩ := h (some 1)
    exact ⟨_, .single he⟩
  have hCallee : ∀ kind, Parser.startsCall kind = true → ∀ ts, IsToken kind ts →
      ∃ t, ts = [t] ∧ Parser.startsCall t.kind = true := by
    rintro kind hKind ts ⟨t, rfl, rfl⟩
    exact ⟨t, rfl, hKind⟩
  rw [valueProductions, List.forall_mem_append]
  refine ⟨keeps_lists ?_ ?_ ?_ ?_, ?_⟩
  · intro ts h
    obtain ⟨e, he⟩ := h (some 0)
    exact ⟨[e], Separated.one he⟩
  · rintro own ts ⟨es, hes⟩ ⟨comma, -, rfl, hComma, more, -, rfl, h, rfl⟩
    obtain ⟨e, he⟩ := h (some 0)
    rw [List.append_nil]
    exact ⟨es ++ [e], Separated.concat hes hComma he⟩
  · exact fun _ => ⟨[], .later .nil⟩
  · rintro front own back ⟨opening, rfl, hOpening⟩ ⟨es, hes⟩ ⟨closing, rfl, hClosing⟩
    exact ⟨_, .mk hOpening hes hClosing⟩
  · simp only [List.forall_mem_cons, List.not_mem_nil, false_imp_iff, implies_true, and_true]
    refine ⟨keeps_one fun ts h => hSingle ts (stands_word (by decide) h),
      keeps_one fun ts h => hSingle ts (stands_word (by decide) h),
      keeps_one fun ts h => hSingle ts (stands_word (by decide) h),
      keeps_one fun ts ⟨g, h⟩ => ⟨_, .list h⟩,
      keeps_one hSingle,
      keeps_one fun ts h => hSingle ts (stands_word (by decide) h), ?_,
      keeps_one fun ts h => stands_word (by decide) h,
      keeps_one fun ts h => stands_word (by decide) h,
      keeps_one fun ts h => stands_word (by decide) h,
      keeps_one fun ts h => stands_word (by decide) h,
      keeps_one fun ts h => h, ?_,
      keeps_one (hCallee _ (by decide)), keeps_one (hCallee _ (by decide)), keeps_one (hCallee _ (by decide)),
      ?_, ?_⟩
    · rintro ts ⟨-, -, rfl, ⟨opening, rfl, hOpening⟩, inner, -, rfl, ⟨es, hes⟩, after, -, rfl, ⟨comma, hComma⟩,
        -, -, rfl, ⟨closing, rfl, hClosing⟩, rfl⟩
      have hBraced := BracedDerived.mk hOpening hes hComma hClosing
      exact ⟨_, by simpa using hBraced⟩
    · rintro ts ⟨-, -, rfl, ⟨name, rfl, hName⟩, brackets, -, rfl, ⟨arguments, hArguments⟩, rfl⟩ yields
      rw [List.append_nil]
      exact ⟨_, .call hName hArguments⟩
    · refine keeps_one ?_
      rintro ts rfl
      exact ⟨none, .none⟩
    · refine keeps_one ?_
      rintro ts ⟨t, rfl, hKind⟩
      exact ⟨_, .some hKind⟩

section

open Nonterminal

theorem keeps_statements :
    ∀ production ∈ lists statementsNode statements statement keepingOpenBrace closeBrace [] true,
      Keeps production := by
  refine keeps_lists ?_ ?_ ?_ ?_
  · intro ts h next
    obtain ⟨p, hp⟩ := h next
    exact ⟨[p], ManyBefore.concat .nil hp⟩
  · rintro own ts h ⟨more, -, rfl, hLast, rfl⟩ next
    rw [List.append_nil]
    obtain ⟨p, hp⟩ := hLast next
    obtain ⟨t, ht⟩ : ∃ t, more.head?.or (some next) = some t := by cases more <;> simp
    obtain ⟨ps, hps⟩ := h t
    exact ⟨ps ++ [p], ManyBefore.concat (ht ▸ hps) hp⟩
  · exact fun _ next => ⟨[], .nil⟩
  · rintro front own back ⟨opening, rfl, hOpening⟩ h ⟨closing, rfl, hClosing⟩
    obtain ⟨ps, hps⟩ := h closing
    exact ⟨_, .bundle hOpening hps hClosing, rfl⟩

/-- A list without brackets, of constructs that do not depend on what follows them. -/
theorem keeps_many {node items item : Nonterminal} {α : Type} {R : α → List Token → Prop}
    (hNode : Stands node = fun ts => ∃ xs, Many R xs ts) (hItems : Stands items = Stands node)
    (hItem : Stands item = fun ts => ∃ x, R x ts) :
    ∀ production ∈ lists node items item nothing nothing [] true, Keeps production := by
  refine keeps_lists ?_ ?_ ?_ ?_
  · intro ts h
    rw [hItem] at h
    obtain ⟨x, hx⟩ := h
    rw [hItems, hNode]
    exact ⟨[x], ManyBefore.concat .nil hx⟩
  · rintro own ts h ⟨more, -, rfl, hLast, rfl⟩
    rw [hItem] at hLast
    rw [hItems, hNode] at h ⊢
    obtain ⟨xs, hxs⟩ := h
    obtain ⟨x, hx⟩ := hLast
    rw [List.append_nil]
    exact ⟨xs ++ [x], ManyBefore.concat hxs.anywhere hx⟩
  · intro _
    rw [hItems, hNode]
    exact ⟨[], .nil⟩
  · rintro front own back rfl h rfl
    rw [List.nil_append, List.append_nil, ← hItems]
    exact h

theorem keeps_selections :
    ∀ production ∈ lists selectionsNode selections selection keepingOpenBrace closeBrace [] false,
      Keeps production := by
  refine keeps_lists ?_ ?_ ?_ ?_
  · rintro ts ⟨s, hs⟩
    exact ⟨[s], ManyBefore.concat .nil hs, by simp⟩
  · rintro own ts ⟨xs, hxs, -⟩ ⟨more, -, rfl, ⟨s, hs⟩, rfl⟩
    rw [List.append_nil]
    exact ⟨xs ++ [s], ManyBefore.concat hxs.anywhere hs, by simp⟩
  · exact fun h => Bool.noConfusion h
  · rintro front own back ⟨opening, rfl, hOpening⟩ ⟨xs, hxs, hItems⟩ ⟨closing, rfl, hClosing⟩
    exact ⟨_, .body hOpening hxs hItems hClosing, rfl⟩

end

theorem exists_promise {promiser semicolon : Token} {promisee : Option Value} {right after body : List Token}
    {comma : Option Leaf} {constraints : List Assignment} (hPromiser : promiser.kind = .quoted)
    (hPromisee : PromiseeDerived promisee right) (hComma : Optionally .comma comma after)
    (hBody : Many (Assignment.Derived false) constraints body) (hSemicolon : semicolon.kind = .semicolon) :
    ∃ p, Promise.Derived p (promiser :: (right ++ (after ++ (body ++ [semicolon])))) := by
  obtain ⟨next, hNext⟩ : ∃ next, (body ++ [semicolon]).head? = some next := by cases body <;> simp
  have hLast := List.getLast?_eq_some_getLast (List.cons_ne_nil promiser (right ++ after ++ body))
  have hDerived := Promise.Derived.mk hPromiser hPromisee hComma hBody hSemicolon hNext hLast
  exact ⟨_, by simpa using hDerived⟩

theorem exists_assignment (keepsBlank : Bool) {ts : List Token}
    (h : StandFor (produces .constraint [.constraintId, .assign, .value, .optionalComma]).output ts) :
    ∃ a, Assignment.Derived keepsBlank a ts := by
  obtain ⟨-, -, rfl, ⟨name, rfl, hName⟩, -, -, rfl, ⟨arrow, rfl, hArrow⟩, right, -, rfl, ⟨v, hv⟩,
    after, -, rfl, ⟨comma, hComma⟩, rfl⟩ := h
  have hDerived : Assignment.Derived keepsBlank _ _ := .mk hName hArrow hv hComma
  exact ⟨_, by simpa using hDerived⟩

theorem keeps_contentProductions : ∀ production ∈ contentProductions, Keeps production := by
  simp only [contentProductions, List.forall_mem_append]
  refine ⟨⟨⟨⟨keeps_statements, keeps_many rfl rfl rfl⟩, keeps_many rfl rfl rfl⟩, keeps_selections⟩, ?_⟩
  simp only [List.forall_mem_cons, List.not_mem_nil, false_imp_iff, implies_true, and_true]
  refine ⟨?_, keeps_one fun ts ⟨g, h⟩ => ⟨_, .guard h⟩, keeps_one fun ts ⟨p, h⟩ => ⟨_, .promise h⟩,
    keeps_one fun ts h => h, keeps_one fun ts h => h, ?_, ?_, fun ts => exists_assignment false,
    keeps_one fun ts h => h, keeps_one fun ts ⟨g, h⟩ => ⟨_, .guard h⟩, ?_, fun ts => exists_assignment true, ?_⟩
  · rintro ts ⟨-, -, rfl, ⟨name, rfl, hName⟩, body, -, rfl, ⟨cs, hcs⟩, rfl⟩ next
    rw [List.append_nil]
    obtain ⟨first, hFirst⟩ : ∃ first, body.head?.or (some next) = some first := by cases body <;> simp
    exact ⟨_, .mk hName hcs hFirst (List.getLast?_eq_some_getLast (List.cons_ne_nil name body))⟩
  · rintro ts ⟨-, -, rfl, ⟨promiser, rfl, hPromiser⟩, -, -, rfl, rfl, -, -, rfl, rfl, after, -, rfl,
      ⟨comma, hComma⟩, body, -, rfl, ⟨xs, hxs⟩, -, -, rfl, ⟨semicolon, rfl, hSemicolon⟩, rfl⟩
    exact exists_promise hPromiser .none hComma hxs hSemicolon
  · rintro ts ⟨-, -, rfl, ⟨promiser, rfl, hPromiser⟩, -, -, rfl, ⟨arrow, rfl, hArrow⟩, right, -, rfl, ⟨v, hv⟩,
      after, -, rfl, ⟨comma, hComma⟩, body, -, rfl, ⟨xs, hxs⟩, -, -, rfl, ⟨semicolon, rfl, hSemicolon⟩, rfl⟩
    exact exists_promise hPromiser (.some hArrow hv) hComma hxs hSemicolon
  · rintro ts ⟨own, -, rfl, ⟨a, ha⟩, -, -, rfl, ⟨semicolon, rfl, hSemicolon⟩, rfl⟩
    exact ⟨_, .assignment ha hSemicolon⟩
  · refine keeps_one ?_
    rintro ts ⟨t, rfl, hKind⟩
    exact ⟨_, .mk hKind⟩

theorem exists_block {keyword : TokenKind} {token contents : Nonterminal} (hToken : Stands token = IsToken keyword)
    (hContents : Stands contents = fun ts => ∃ c, Contents.Derived c ts ∧ c.keyword = keyword) {ts : List Token}
    (h : StandFor (produces .block [token, .ident, .ident, .parametersNode, contents]).output ts) :
    ∃ b, Block.Derived b ts := by
  obtain ⟨front, -, rfl, hFirst, -, -, rfl, ⟨type, rfl, hType⟩, -, -, rfl, ⟨name, rfl, hName⟩, brackets, -, rfl,
    hParameters, inner, -, rfl, hInner, rfl⟩ := h
  rw [hToken] at hFirst
  rw [hContents] at hInner
  obtain ⟨first, rfl, hKind⟩ := hFirst
  obtain ⟨c, hc, hWord⟩ := hInner
  obtain ⟨next, rest, rfl, -⟩ := hc.head
  obtain ⟨g, hg⟩ := hParameters name next
  have hDerived := Block.Derived.mk (hKind.trans hWord.symm) hType hName rfl hg hc
  exact ⟨_, by simpa using hDerived⟩

theorem keeps_blockProductions : ∀ production ∈ blockProductions, Keeps production := by
  simp only [blockProductions, List.forall_mem_append]
  refine ⟨⟨keeps_many rfl rfl rfl, keeps_lists ?_ ?_ ?_ ?_⟩, ?_⟩
  · rintro ts ⟨l, hl⟩
    exact ⟨[l], Separated.one hl⟩
  · rintro own ts ⟨ls, hls⟩ ⟨comma, -, rfl, hComma, more, -, rfl, ⟨l, hl⟩, rfl⟩
    rw [List.append_nil]
    exact ⟨ls ++ [l], Separated.concat hls hComma hl⟩
  · exact fun _ => ⟨[], .later .nil⟩
  · rintro front own back ⟨opening, rfl, hOpening⟩ ⟨ls, hls⟩ ⟨closing, rfl, hClosing⟩ last next
    exact ⟨_, .some (.mk hOpening hls hClosing)⟩
  · simp only [List.forall_mem_cons, List.not_mem_nil, false_imp_iff, implies_true, and_true]
    refine ⟨keeps_one fun ts h => h, keeps_one fun ts h => h, keeps_one fun ts h => h, ?_, ?_, ?_, ?_⟩
    · rintro ts ⟨-, -, rfl, rfl, -, -, rfl, rfl, -, -, rfl, rfl, -, -, rfl, rfl, rfl⟩ last next
      exact ⟨_, .none⟩
    · refine keeps_one ?_
      rintro ts ⟨t, rfl, hKind⟩
      exact ⟨_, .mk hKind⟩
    · exact fun ts => exists_block rfl rfl
    · exact fun ts => exists_block rfl rfl

theorem keeps_productions : ∀ production ∈ productions, Keeps production := by
  simp only [productions, List.forall_mem_append]
  exact ⟨⟨⟨keeps_blockProductions, keeps_contentProductions⟩, keeps_valueProductions⟩, keeps_tokenProductions⟩

theorem Yields.standFor {signs : List Sign} {word : List TokenKind} (h : Yields signs word) :
    ∀ ts : List Token, ts.map (·.kind) = word → StandFor signs ts := by
  induction h with
  | nil => exact fun ts h => List.map_eq_nil_iff.1 h
  | terminal h ih =>
    intro ts hWord
    obtain ⟨t, more, rfl, hKind, hMore⟩ := List.map_eq_cons_iff.1 hWord
    exact ⟨t, more, rfl, hKind, ih more hMore⟩
  | nonterminal hRule hOwn hRest ihOwn ihRest =>
    intro ts hWord
    obtain ⟨own, more, rfl, hFirst, hMore⟩ := List.map_eq_append_iff.1 hWord
    exact ⟨own, more, rfl, keeps_productions _ hRule own (ihOwn own hFirst), ihRest more hMore⟩

/-- A sentence of the grammar is derived from some tree. -/
theorem exists_derived {ts : List Token} (h : ts.map (·.kind) ∈ grammar.language) (line offset : Int) :
    ∃ s, Specification.Derived line offset s ts := by
  obtain ⟨own, -, rfl, ⟨bs, hbs⟩, rfl⟩ := (mem_language.1 h).standFor ts rfl
  rw [List.append_nil]
  exact ⟨_, .mk hbs⟩

end PolicyFormat.Policy.Grammar
