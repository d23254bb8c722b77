import PolicyFormat.Proofs.Lookahead
import PolicyFormat.Proofs.Sentences

/-! What the parsers read are words of the grammar, and where they stop, the tokens read so far are
the start of such a word. -/
namespace PolicyFormat.Policy

open Grammar (Nonterminal Yields Sign productions produces)
open scoped Computability

variable {left : Nonterminal}

namespace Parser

/-! ### The languages of the grammar -/

variable {word : List TokenKind} {kind : TokenKind} {node items item opening closing : Nonterminal}

/-- The words that a nonterminal yields. -/
def lang (left : Nonterminal) : Language TokenKind :=
  {word | Yields [.nonterminal left] word}

/-- The words that nonterminals yield one after the other. -/
def langs : List Nonterminal → Language TokenKind
  | [] => 1
  | [left] => lang left
  | left :: right => lang left * langs right

theorem yields_of_mem_langs {right : List Nonterminal} (h : word ∈ langs right) :
    Yields (right.map .nonterminal) word := by
  fun_induction langs right generalizing word with
  | case1 =>
    obtain rfl : word = [] := h
    exact .nil
  | case2 left => exact h
  | case3 left right hRight ih =>
    obtain ⟨own, hOwn, more, hMore, rfl⟩ := Language.mem_mul.1 h
    exact Yields.append hOwn (ih hMore)

theorem lang_produces (right : List Nonterminal) (h : produces left right ∈ productions) : langs right ≤ lang left :=
  fun _ hWord => Yields.single h (yields_of_mem_langs hWord)

theorem lang_reads (h : Grammar.reads left kind ∈ productions) : {[kind]} ≤ lang left := by
  rintro word rfl
  exact Yields.single h (.terminal .nil)

theorem one_le_nothing : 1 ≤ lang .nothing :=
  lang_produces [] (by decide)

section

variable {node items item opening closing : Nonterminal} {separator : List Sign} {mayBeEmpty : Bool}
  (hIn : ∀ production ∈ Grammar.lists node items item opening closing separator mayBeEmpty, production ∈ productions)
include hIn

theorem lang_one : lang item ≤ lang items :=
  lang_produces [item] (hIn _ (by simp [Grammar.lists]))

theorem lang_more (hSeparator : separator = []) : lang items * lang item ≤ lang items := by
  subst hSeparator
  exact lang_produces [items, item] (hIn _ (by simp [Grammar.lists, produces]))

theorem lang_comma (hSeparator : separator = [.terminal .comma]) :
    lang items * ({[.comma]} * lang item) ≤ lang items := by
  subst hSeparator
  rintro word hWord
  obtain ⟨first, hFirst, last, hLast, rfl⟩ := Language.mem_mul.1 hWord
  obtain ⟨comma, rfl, own, hOwn, rfl⟩ := Language.mem_mul.1 hLast
  refine Yields.single (hIn _ (List.mem_append_left _ (List.mem_append_left _
    (List.mem_cons_of_mem _ List.mem_cons_self)))) ?_
  exact Yields.append hFirst (Yields.terminal hOwn)

theorem lang_node : lang opening * (lang items * lang closing) ≤ lang node := by
  refine le_trans ?_ (lang_produces [opening, items, .nothing, closing] (hIn _ (by simp [Grammar.lists])))
  exact mul_le_mul' le_rfl (mul_le_mul' le_rfl ((one_mul _).symm.trans_le (mul_le_mul_left one_le_nothing _)))

theorem lang_enclosed {first last : TokenKind} {L : Language TokenKind}
    (hFirst : Grammar.reads opening first ∈ productions) (hLast : Grammar.reads closing last ∈ productions)
    (hItems : L ≤ lang items) : {[first]} * (L * {[last]}) ≤ lang node :=
  calc {[first]} * (L * {[last]})
    _ ≤ lang opening * (lang items * lang closing) :=
        mul_le_mul' (lang_reads hFirst) (mul_le_mul' hItems (lang_reads hLast))
    _ ≤ lang node := lang_node hIn

end

theorem lang_many
    (hIn : ∀ production ∈ Grammar.lists node items item opening closing [] true, production ∈ productions) :
    (lang item)∗ ≤ lang items :=
  kstar_le_of_mul_le_left (lang_produces [] (hIn _ (by simp [Grammar.lists]))) (lang_more hIn rfl)

theorem lang_separated (hIn : ∀ production ∈ Grammar.lists node items item opening closing [.terminal .comma] true,
      production ∈ productions) : separated (lang item) ≤ lang items :=
  mul_kstar_le (add_le (lang_produces [] (hIn _ (by simp [Grammar.lists]))) (lang_one hIn)) (lang_comma hIn rfl)

theorem maybe_comma_le : maybe .comma ≤ lang .optionalComma := by
  refine add_le (le_trans one_le_nothing (lang_produces [.nothing] (by decide))) ?_
  exact (lang_reads (by decide)).trans (lang_produces [.comma] (by decide))

/-- The symbols that always take a token. -/
def takesToken : Sign → Bool
  | .terminal _ => true
  | .nonterminal left =>
    match left with
    | .block | .bundle | .body | .bundleToken | .bodyToken | .statement | .promiseType | .clause | .promiseLine
    | .promiserStatement | .promiseeStatement | .constraint | .constraintId | .selection | .assignment | .guard
    | .guardExpression | .ident | .quoted => true
    | _ => false

theorem takesToken_productions : ∀ production ∈ productions,
    takesToken (.nonterminal production.input) = true → production.output.any takesToken = true := by
  decide

theorem ne_nil_of_yields {signs : List Sign} (h : Yields signs word) (hSigns : signs.any takesToken = true) :
    word ≠ [] := by
  induction h with
  | nil => cases hSigns
  | terminal h ih => exact List.cons_ne_nil _ _
  | nonterminal hRule hOwn hRest ihOwn ihRest =>
    rw [List.any_cons, Bool.or_eq_true] at hSigns
    obtain hLeft | hRight := hSigns
    · exact List.append_ne_nil_of_left_ne_nil (ihOwn (takesToken_productions _ hRule hLeft)) _
    · exact List.append_ne_nil_of_right_ne_nil _ (ihRest hRight)

theorem nil_notMem_lang (h : takesToken (.nonterminal left) = true) : [] ∉ lang left :=
  fun hNil => ne_nil_of_yields hNil (by simp [h]) rfl

/-! ### Values -/

/-- A token that a nonterminal of its own reads. -/
theorem lang_token (right : Nonterminal) (hRead : Grammar.reads right kind ∈ productions)
    (hLeft : produces left [right] ∈ productions) : {[kind]} ≤ lang left :=
  (lang_reads hRead).trans (lang_produces [right] hLeft)

theorem callee_le (h : startsCall kind = true) : {[kind]} ≤ lang .callee := by
  cases kind <;> simp only [startsCall, reduceCtorEq, decide_false, Bool.or_self, Bool.false_eq_true] at h
  · exact lang_token .nakedVar (by decide) (by decide)
  · exact lang_token .symbol (by decide) (by decide)
  · exact lang_token .ident (by decide) (by decide)

theorem elements_in : ∀ production ∈ Grammar.lists .elementsNode .elements .element .openParen .closeParen
    [.terminal .comma] true, production ∈ productions := by
  decide

theorem arguments_le : {[.openParen]} * (separated (lang .element) * {[.closeParen]}) ≤ lang .elementsNode :=
  lang_enclosed elements_in (by decide) (by decide) (lang_separated elements_in)

section

-- What stands for elements stands for words and calls.
variable (hLeft : ∀ right ∈ [Nonterminal.nakedVar, .quoted, .symbol, .ident, .call],
  produces left [right] ∈ productions)

include hLeft

theorem word_le {kind : TokenKind} (h : startsElement kind = true) : {[kind]} ≤ lang left := by
  cases kind <;>
    simp only [startsElement, startsCall, reduceCtorEq, decide_false, Bool.or_self, Bool.false_eq_true] at h
  · exact lang_token .nakedVar (by decide) (hLeft _ (by decide))
  · exact lang_token .quoted (by decide) (hLeft _ (by decide))
  · exact lang_token .symbol (by decide) (hLeft _ (by decide))
  · exact lang_token .ident (by decide) (hLeft _ (by decide))

theorem element_reads (depth : Nat) (yields : Option Int) : Reads (element depth yields) (lang left) := by
  have hWord (kind : TokenKind) : startsElement kind = true → {[kind]} ≤ lang left := word_le hLeft
  induction depth generalizing left yields with
  | zero => exact .refuse ⟨_, hWord .ident rfl rfl⟩
  | succ depth ih =>
    have hElement : Reads (element depth (some 0)) (lang .element) :=
      ih (by decide) (some 0) fun _ => word_le (by decide)
    have hArguments := (parenthesised_reads hElement startsElement).mono arguments_le
    have hWhole : ∀ kind, startsCall kind = true → {[kind]} * (1 + lang .elementsNode) ≤ lang left := by
      intro kind hKind
      have hCall : lang .callee * lang .elementsNode ≤ lang left :=
        (lang_produces [.callee, .elementsNode] (by decide)).trans (lang_produces [.call] (hLeft _ (by decide)))
      rw [mul_add, mul_one]
      exact add_le (hWord kind (by simp [startsElement, hKind])) ((mul_le_mul_left (callee_le hKind) _).trans hCall)
    have hAll : Reads (element (depth + 1) yields) (1 * (1 * lang left)) := by
      refine atNext_reads.bind fun start => nextKind?_reads.bind fun next => ?_
      cases next with
      | none => exact .refuse ⟨_, hWord .ident rfl rfl⟩
      | some kind =>
        refine .ite (fun _ => ?_) fun _ => .ite (fun hKind => ?_) fun _ =>
          .refuse ⟨_, hWord .ident rfl rfl⟩
        · exact ((leaf_reads .quoted yields).map Element.leaf).mono (hWord .quoted rfl)
        · have hBoth := (leaf_reads kind (some 1)).bind fun word => nextKind?_reads.bind fun after =>
            Reads.ite (c := after = some .openParen) (L := 1 + lang .elementsNode)
              (fun _ => (hArguments.bind fun arguments => (spanFrom_reads start).bind fun span =>
                Reads.pure (Element.call { span, yields } word arguments)).mono
                  (by rw [mul_one, mul_one]; exact le_add_self))
              (fun _ => (Reads.pure
                (Element.leaf { word with traits := { word.traits with yields } })).mono le_self_add)
          rw [one_mul] at hBoth
          exact hBoth.mono (hWhole kind hKind)
    rwa [one_mul, one_mul] at hAll

omit hLeft in
/-- The depth to which calls may be nested does not matter if it is enough for the tokens. -/
theorem element_same {length n m : Nat} (hn : length ≤ n) (hm : length ≤ m) (yields : Option Int) :
    SameUpTo length (element n yields) (element m yields) := by
  refine SameUpTo.of_steps (fun yields n => element n yields)
    (fun _ _ _ _ _ _ => by rw [element_nil, element_nil]) (fun {length n m} ih _ => ?_) hn hm yields
  have hElement : Reads (element n (some 0)) (lang .element) := element_reads (by decide) n (some 0)
  have hArguments := SameUpTo.parenthesised startsElement hElement (ih (some 0))
  refine SameUpTo.bind_left atNext_reads fun start => SameUpTo.bind_left nextKind?_reads fun next => ?_
  cases next with
  | none => exact fun _ _ => rfl
  | some kind =>
    exact .ite (fun _ _ => rfl) (.ite (.bind_taking (leaf_reads _ _) nofun fun word =>
      .bind_left nextKind?_reads fun after => .ite (.bind_right hArguments _) fun _ _ => rfl) fun _ _ => rfl)

theorem anyElement_reads (yields : Option Int) : Reads (anyElement yields) (lang left) :=
  .of_bounds (fun depth => element_reads hLeft depth yields)
    fun input _ hBound => element_same le_rfl hBound yields input le_rfl

end

theorem bracedList_reads : Reads bracedList (lang .list) := by
  have hElement : Reads (anyElement (some 0)) (lang .element) := anyElement_reads (by decide) _
  rw [bracedList_eq]
  refine (enclosed_reads ((commaSeparated_trailed_reads hElement _).map _)).mono ?_
  rw [mul_assoc]
  refine le_trans ?_ (lang_produces [.openBrace, .elements, .optionalComma, .closeBrace] (by decide))
  exact mul_le_mul' (lang_reads (by decide)) (mul_le_mul' (lang_separated elements_in)
    (mul_le_mul' maybe_comma_le (lang_reads (by decide))))

theorem value_reads : Reads value (lang .value) :=
  choose_reads (L := lang .value) ((bracedList_reads.map Value.list).mono (lang_produces [.list] (by decide)))
    ((anyElement_reads (by decide) _).map Value.single)

/-! ### Promises -/

theorem assignment_reads (keepsBlank : Bool)
    (h : produces left [.constraintId, .assign, .value, .optionalComma] ∈ productions) :
    Reads (assignment keepsBlank) (lang left) := by
  have hAll : Reads (assignment keepsBlank)
      (1 * ({[.ident]} * ({[.assign]} * (lang .value * (maybe .comma * (1 * 1)))))) :=
    atNext_reads.bind fun start => (leaf_reads _ _).bind fun name => (leaf_reads _ _).bind fun arrow =>
      Reads.bind value_reads fun v => (optional_reads _).bind fun comma => (spanFrom_reads start).bind fun span =>
        Reads.pure ({ traits := { span, keepsBlank }, name, arrow, value := v, comma } : Assignment)
  simp only [one_mul, mul_one] at hAll
  refine hAll.mono (le_trans ?_ (lang_produces _ h))
  exact mul_le_mul' (lang_token .ident (by decide) (by decide))
    (mul_le_mul' (lang_reads (by decide)) (mul_le_mul' le_rfl maybe_comma_le))

theorem optional_promisee_reads : Reads promisee (1 + {[.arrow]} * lang .value) :=
  choose_reads (((leaf_reads _ _).bind fun _ => value_reads.map some).mono le_add_self)
    ((Reads.pure none).mono le_self_add)

theorem constraints_in : ∀ production ∈ Grammar.lists .constraintsNode .constraints .constraint .nothing .nothing
    [] true, production ∈ productions := by
  decide

/-- A list without brackets is what its elements are. -/
theorem lang_open
    (hIn : ∀ production ∈ Grammar.lists node items item .nothing .nothing [] true, production ∈ productions) :
    (lang item)∗ ≤ lang node := by
  calc (lang item)∗
    _ = 1 * ((lang item)∗ * 1) := by rw [one_mul, mul_one]
    _ ≤ lang .nothing * (lang items * lang .nothing) := by
        gcongr
        · exact one_le_nothing
        · exact lang_many hIn
        · exact one_le_nothing
    _ ≤ lang node := lang_node hIn

theorem promise_le : {[.quoted]} * ((1 + {[.arrow]} * lang .value) * (maybe .comma *
    ((lang .constraint)∗ * {[.semicolon]}))) ≤ lang .promiseLine := by
  have hEnd : maybe .comma * ((lang .constraint)∗ * {[.semicolon]}) ≤
      lang .optionalComma * (lang .constraintsNode * lang .semicolon) :=
    mul_le_mul' maybe_comma_le (mul_le_mul' (lang_open constraints_in) (lang_reads (by decide)))
  have hSkip : ∀ X : Language TokenKind, X ≤ lang .nothing * X := fun X =>
    (one_mul X).symm.trans_le (mul_le_mul_left one_le_nothing X)
  rw [add_mul, mul_add, one_mul, mul_assoc]
  refine add_le ?_ ?_
  · refine le_trans ?_ ((lang_produces [.quoted, .nothing, .nothing, .optionalComma, .constraintsNode, .semicolon]
      (by decide)).trans (lang_produces [.promiserStatement] (by decide)))
    exact mul_le_mul' (lang_reads (by decide)) (hEnd.trans ((hSkip _).trans (hSkip _)))
  · refine le_trans ?_ ((lang_produces [.quoted, .arrow, .value, .optionalComma, .constraintsNode, .semicolon]
      (by decide)).trans (lang_produces [.promiseeStatement] (by decide)))
    exact mul_le_mul' (lang_reads (by decide)) (mul_le_mul' (lang_reads (by decide)) (mul_le_mul' le_rfl hEnd))

theorem promise_reads : Reads promise (lang .promiseLine) := by
  rw [promise_eq]
  have hConstraint : Reads (assignment false) (lang .constraint) := assignment_reads false (by decide)
  have hConstraints := many_reads hConstraint (· = .ident) (nil_notMem_lang (by decide))
  have hAll := atNext_reads.bind fun start => (leaf_reads .quoted (some 1)).bind fun promiser =>
    Reads.bind optional_promisee_reads fun promisee => (optional_reads .comma).bind fun comma =>
      afterNext_reads.bind fun inner => hConstraints.bind fun items =>
        (group_reads inner none items none).bind fun constraints =>
          (leaf_reads .semicolon (some 2)).bind fun semicolon => (spanFrom_reads start).bind fun span =>
            Reads.pure ({
              traits := { span, keepsBlank := true }
              promiser, promisee, comma, constraints, semicolon } : Promise)
  simp only [one_mul, mul_one] at hAll
  exact hAll.mono promise_le

theorem guard_reads (h : produces left [.guard] ∈ productions) : Reads guard (lang left) := by
  have hAll := atNext_reads.bind fun start => (leaf_reads .guard (some 1)).bind fun expression =>
    (spanFrom_reads start).bind fun span => Reads.pure ({ traits := { span, keepsBlank := true }, expression } : Guard)
  simp only [one_mul, mul_one] at hAll
  exact hAll.mono ((lang_token .guardExpression (by decide) (by decide)).trans (lang_produces [.guard] h))

theorem clause_reads : Reads clause (lang .clause) :=
  choose_reads (L := lang .clause) ((guard_reads (by decide)).map Clause.guard)
    ((promise_reads.map Clause.promise).mono (lang_produces [.promiseLine] (by decide)))

/-! ### Blocks -/

theorem clauses_in : ∀ production ∈ Grammar.lists .clausesNode .clauses .clause .nothing .nothing [] true,
    production ∈ productions := by
  decide

theorem statements_in : ∀ production ∈ Grammar.lists .statementsNode .statements .statement .keepingOpenBrace
    .closeBrace [] true, production ∈ productions := by
  decide

theorem selections_in : ∀ production ∈ Grammar.lists .selectionsNode .selections .selection .keepingOpenBrace
    .closeBrace [] false, production ∈ productions := by
  decide

theorem parameters_in : ∀ production ∈ Grammar.lists .parametersNode .parameters .parameter .openParen .closeParen
    [.terminal .comma] true, production ∈ productions := by
  decide

theorem blocks_in : ∀ production ∈ Grammar.lists .blocksNode .blocks .block .nothing .nothing [] true,
    production ∈ productions := by
  decide

theorem promiseType_reads : Reads promiseType (lang .statement) := by
  have hClauses := many_reads clause_reads (fun kind => kind = .guard || kind = .quoted) (nil_notMem_lang (by decide))
  have hAll := atNext_reads.bind fun start => (leaf_reads .promiseType none).bind fun name =>
    afterNext_reads.bind fun inner => hClauses.bind fun items =>
      (group_reads inner none items none).bind fun clauses => (spanFrom_reads start).bind fun span =>
        Reads.pure ({ traits := { span }, name, clauses } : PromiseType)
  simp only [one_mul, mul_one] at hAll
  refine hAll.mono (le_trans ?_ (lang_produces [.promiseType, .clausesNode] (by decide)))
  exact mul_le_mul' (lang_reads (by decide)) (lang_open clauses_in)

theorem selection_reads : Reads selection (lang .selection) := by
  have hAssignment : Reads (assignment true) (lang .assignment) := assignment_reads true (by decide)
  have hSelection := hAssignment.bind fun value =>
    (leaf_reads .semicolon (some 2)).map fun _ => Selection.assignment value
  exact choose_reads (L := lang .selection) ((guard_reads (by decide)).map Selection.guard)
    (hSelection.mono ((mul_le_mul_right (lang_reads (by decide)) _).trans
      (lang_produces [.assignment, .semicolon] (by decide))))

theorem statements_reads : Reads statements (lang .statementsNode) := by
  have hTypes := many_reads promiseType_reads (· = .promiseType) (nil_notMem_lang (by decide))
  exact Reads.mono (enclosed_reads hTypes)
    (lang_enclosed statements_in (by decide) (by decide) (lang_many statements_in))

theorem selections_reads : Reads selections (lang .selectionsNode) := by
  have hItems := selection_reads.bind fun first => (many_reads selection_reads
    (fun kind => kind = .guard || kind = .ident) (nil_notMem_lang (by decide))).map fun rest => first :: rest
  rw [selections_eq]
  exact (enclosed_reads hItems).mono (lang_enclosed selections_in (by decide) (by decide)
    (mul_kstar_le (lang_one selections_in) (lang_more selections_in rfl)))

theorem parameters_reads : Reads parameters (lang .parametersNode) := by
  have hParameter : {[.ident]} ≤ lang .parameter := lang_token .ident (by decide) (by decide)
  have hGiven := parenthesised_reads ((leaf_reads .ident (some 0)).mono hParameter) (· = .ident)
  have hMissing := afterNext_reads.bind fun start => group_reads start none ([] : List Leaf) none
  have hNone : 1 * 1 ≤ lang .parametersNode := by
    have hEmpty : 1 ≤ lang .empty := lang_produces [] (by decide)
    rw [one_mul]
    refine le_trans ?_ (lang_produces [.nothing, .empty, .nothing, .nothing] (by decide))
    exact one_le_mul one_le_nothing (one_le_mul hEmpty (one_le_mul one_le_nothing one_le_nothing))
  exact choose_reads
    (hGiven.mono (lang_enclosed parameters_in (by decide) (by decide) (lang_separated parameters_in)))
    (hMissing.mono hNone)

theorem contents_reads (isBundle : Bool) :
    Reads (contents isBundle) (lang (if isBundle then .statementsNode else .selectionsNode)) := by
  cases isBundle with
  | false => exact selections_reads.map Contents.body
  | true => exact statements_reads.map Contents.bundle

theorem block_le (isBundle : Bool) : {[if isBundle then .bundle else .body]} * ({[.ident]} * ({[.ident]} *
    (lang .parametersNode * lang (if isBundle then .statementsNode else .selectionsNode)))) ≤ lang .block := by
  have hNames (keyword node : Nonterminal) {kind : TokenKind} (h : Grammar.reads keyword kind ∈ productions) :
      {[kind]} * ({[.ident]} * ({[.ident]} * (lang .parametersNode * lang node))) ≤
        langs [keyword, .ident, .ident, .parametersNode, node] :=
    mul_le_mul' (lang_reads h) (mul_le_mul' (lang_reads (by decide)) (mul_le_mul' (lang_reads (by decide)) le_rfl))
  cases isBundle
  · exact (hNames .bodyToken .selectionsNode (by decide)).trans
      ((lang_produces _ (by decide)).trans (lang_produces [.body] (by decide)))
  · exact (hNames .bundleToken .statementsNode (by decide)).trans
      ((lang_produces _ (by decide)).trans (lang_produces [.bundle] (by decide)))

theorem block_reads : Reads block (lang .block) := by
  rw [block_eq]
  have hAll := atNext_reads.bind fun start => nextKind?_reads.bind fun kind =>
    (Reads.bind (leaf_reads (if kind = some .bundle then .bundle else .body) (some 1)) fun keyword =>
      (leaf_reads .ident (some 1)).bind fun type => (leaf_reads .ident (some 1)).bind fun name =>
        Reads.bind parameters_reads fun parameters => (contents_reads (kind = some .bundle)).bind fun contents =>
          (spanFrom_reads start).bind fun span =>
            Reads.pure ({ traits := { span }, keyword, type, name, parameters, contents } : Block)).mono
      (show _ ≤ lang .block by simpa using block_le (kind = some .bundle))
  rwa [one_mul, one_mul] at hAll

theorem afterLast_reads : Reads specification.afterLast 1 := by
  refine .of_idle (fun _ _ _ => .inr fun _ _ => rfl) fun ending endLine stop => ?_
  cases ending with
  | complete line offset => exact .inl ⟨(), rfl⟩
  | unreadable rest line offset => exact .inr rfl

theorem specification_reads : Reads specification (lang .specification) := by
  have hBlocks := many_reads block_reads (fun kind => kind = .bundle || kind = .body) (nil_notMem_lang (by decide))
  have hAll : Reads specification (1 * ((lang .block)∗ * (1 * 1))) :=
    afterNext_reads.bind fun start => hBlocks.bind fun blocks => Reads.bind afterLast_reads fun _ =>
      group_reads start none blocks none
  simp only [one_mul, mul_one] at hAll
  exact hAll.mono ((lang_open blocks_in).trans (lang_produces [.blocksNode] (by decide)))

end Parser

end PolicyFormat.Policy
