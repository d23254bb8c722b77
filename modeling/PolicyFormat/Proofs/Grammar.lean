import Mathlib.Computability.ContextFreeGrammar
import PolicyFormat.Policy.Token

/-! The grammar of policy files over the kinds of tokens, as a list of productions, and which words its
symbols yield. The grammar is ambiguous: a list may start with nothing or with its first element. -/
namespace PolicyFormat.Policy.Grammar

/-- The symbols that the productions define. -/
inductive Nonterminal where
  | specification | blocksNode | blocks | block
  | bundle | body | bundleToken | bodyToken
  | parametersNode | parameters | parameter
  | statementsNode | statements | statement | promiseType
  | clausesNode | clauses | clause | promiseLine | promiserStatement | promiseeStatement
  | constraintsNode | constraints | constraint | constraintId
  | selectionsNode | selections | selection | assignment | guard | guardExpression
  | value | list | elementsNode | elements | element | call | callee
  | optionalComma | comma | semicolon | arrow | assign
  | openParen | closeParen | openBrace | keepingOpenBrace | closeBrace
  | ident | symbol | quoted | nakedVar
  | nothing | empty
deriving DecidableEq, Repr

/-- A symbol of the grammar. -/
abbrev Sign := Symbol TokenKind Nonterminal

/-- A production. -/
abbrev Production := ContextFreeRule TokenKind Nonterminal

/-- The production of a nonterminal from nonterminals. -/
def produces (left : Nonterminal) (right : List Nonterminal) : Production :=
  ⟨left, right.map .nonterminal⟩

/-- The production of a nonterminal from one token. -/
def reads (left : Nonterminal) (kind : TokenKind) : Production :=
  ⟨left, [.terminal kind]⟩

/-- The productions of a list: its elements, with separators between them, and its node with brackets. -/
def lists (node items item opening closing : Nonterminal) (separator : List Sign) (mayBeEmpty : Bool) :
    List Production :=
  [produces items [item], ⟨items, .nonterminal items :: (separator ++ [.nonterminal item])⟩] ++
    (if mayBeEmpty then [produces items []] else []) ++
    [produces node [opening, items, .nothing, closing]]

open Nonterminal in
/-- The productions of blocks and their parameters. -/
def blockProductions : List Production :=
  lists blocksNode blocks block nothing nothing [] true ++
  lists parametersNode parameters parameter openParen closeParen [.terminal .comma] true ++
  [produces specification [blocksNode], produces block [bundle], produces block [body],
    produces parametersNode [nothing, empty, nothing, nothing],
    produces parameter [ident],
    produces bundle [bundleToken, ident, ident, parametersNode, statementsNode],
    produces body [bodyToken, ident, ident, parametersNode, selectionsNode]]

open Nonterminal in
/-- The productions of what stands in bundles and bodies. -/
def contentProductions : List Production :=
  lists statementsNode statements statement keepingOpenBrace closeBrace [] true ++
  lists clausesNode clauses clause nothing nothing [] true ++
  lists constraintsNode constraints constraint nothing nothing [] true ++
  lists selectionsNode selections selection keepingOpenBrace closeBrace [] false ++
  [produces statement [promiseType, clausesNode], produces clause [guard], produces clause [promiseLine],
    produces promiseLine [promiserStatement],
    produces promiseLine [promiseeStatement],
    produces promiserStatement [quoted, nothing, nothing, optionalComma, constraintsNode, semicolon],
    produces promiseeStatement [quoted, arrow, value, optionalComma, constraintsNode, semicolon],
    produces constraint [constraintId, assign, value, optionalComma],
    produces constraintId [ident],
    produces selection [guard],
    produces selection [assignment, semicolon],
    produces assignment [constraintId, assign, value, optionalComma],
    produces guard [guardExpression]]

open Nonterminal in
/-- The productions of values. -/
def valueProductions : List Production :=
  lists elementsNode elements element openParen closeParen [.terminal .comma] true ++
  [produces value [ident], produces value [symbol], produces value [quoted], produces value [list],
    produces value [call],
    produces value [nakedVar],
    produces list [openBrace, elements, optionalComma, closeBrace],
    produces element [ident],
    produces element [quoted],
    produces element [symbol],
    produces element [nakedVar],
    produces element [call],
    produces call [callee, elementsNode],
    produces callee [ident],
    produces callee [symbol],
    produces callee [nakedVar],
    produces optionalComma [nothing],
    produces optionalComma [comma]]

open Nonterminal in
/-- The productions of single tokens, and of nothing. -/
def tokenProductions : List Production :=
  [reads semicolon .semicolon, reads closeParen .closeParen, reads keepingOpenBrace .openBrace,
    reads closeBrace .closeBrace,
    reads comma .comma,
    reads quoted .quoted,
    reads nakedVar .nakedVar,
    reads openBrace .openBrace,
    reads openParen .openParen,
    reads guardExpression .guard,
    reads bundleToken .bundle,
    reads bodyToken .body,
    reads assign .assign,
    reads symbol .symbol,
    reads arrow .arrow,
    reads ident .ident,
    reads promiseType .promiseType,
    produces nothing [],
    produces empty []]

/-- The productions of policy files. -/
def productions : List Production :=
  blockProductions ++ contentProductions ++ valueProductions ++ tokenProductions

end PolicyFormat.Policy.Grammar

namespace PolicyFormat.Policy

/-- The grammar of policy files. -/
def grammar : ContextFreeGrammar TokenKind where
  NT := Grammar.Nonterminal
  initial := .specification
  rules := Grammar.productions.toFinset

end PolicyFormat.Policy

namespace PolicyFormat.Policy.Grammar

theorem mem_rules {production : Production} : production ∈ grammar.rules ↔ production ∈ productions :=
  List.mem_toFinset

/-! ### The words that symbols yield -/

/-- The word can be derived from the symbols. -/
inductive Yields : List Sign → List TokenKind → Prop where
  | nil : Yields [] []
  | terminal {kind : TokenKind} {rest : List Sign} {word : List TokenKind} (h : Yields rest word) :
      Yields (.terminal kind :: rest) (kind :: word)
  | nonterminal {left : Nonterminal} {right rest : List Sign} {own word : List TokenKind}
      (hRule : ⟨left, right⟩ ∈ productions) (hOwn : Yields right own) (hRest : Yields rest word) :
      Yields (.nonterminal left :: rest) (own ++ word)

namespace Yields

variable {a b : List Sign} {u v word : List TokenKind}

theorem append (ha : Yields a u) (hb : Yields b v) : Yields (a ++ b) (u ++ v) := by
  induction ha with
  | nil => exact hb
  | terminal h ih => exact .terminal ih
  | nonterminal hRule hOwn hRest ihOwn ihRest =>
    rw [List.append_assoc]
    exact .nonterminal hRule hOwn ihRest

theorem split (h : Yields (a ++ b) word) : ∃ u v, word = u ++ v ∧ Yields a u ∧ Yields b v := by
  induction a generalizing word with
  | nil => exact ⟨[], word, rfl, .nil, h⟩
  | cons sign a ih =>
    cases h with
    | terminal h =>
      obtain ⟨u, v, rfl, hu, hv⟩ := ih h
      exact ⟨_ :: u, v, rfl, .terminal hu, hv⟩
    | nonterminal hRule hOwn hRest =>
      obtain ⟨u, v, rfl, hu, hv⟩ := ih hRest
      exact ⟨_ ++ u, v, (List.append_assoc _ _ _).symm, .nonterminal hRule hOwn hu, hv⟩

theorem single {left : Nonterminal} {right : List Sign} (hRule : ⟨left, right⟩ ∈ productions)
    (h : Yields right word) : Yields [.nonterminal left] word := by
  simpa using Yields.nonterminal hRule h .nil

theorem derives (h : Yields a word) : grammar.Derives a (word.map .terminal) := by
  induction h with
  | nil => exact .refl _
  | @terminal kind rest word h ih => exact ih.append_left [.terminal kind]
  | @nonterminal left right rest own word hRule hOwn hRest ihOwn ihRest =>
    have hStep : grammar.Produces (.nonterminal left :: rest) (right ++ rest) :=
      ⟨⟨left, right⟩, mem_rules.2 hRule, .head rest⟩
    rw [List.map_append]
    exact hStep.trans_derives ((ihOwn.append_right rest).trans (ihRest.append_left _))

/-- A production that is applied first does not change what can be derived. -/
theorem of_produces (hStep : grammar.Produces a b) (h : Yields b word) : Yields a word := by
  obtain ⟨rule, hRule, hRewrites⟩ := hStep
  obtain ⟨front, back, rfl, rfl⟩ := hRewrites.exists_parts
  obtain ⟨u, v, rfl, hFront, hBack⟩ := h.split
  obtain ⟨x, y, rfl, hx, hy⟩ := hFront.split
  exact (hx.append (single (mem_rules.1 hRule) hy)).append hBack

theorem terminals (word : List TokenKind) : Yields (word.map .terminal) word := by
  induction word with
  | nil => exact .nil
  | cons kind word ih => exact .terminal ih

theorem iff_derives : Yields a word ↔ grammar.Derives a (word.map .terminal) := by
  refine ⟨derives, fun h => ?_⟩
  induction h using Relation.ReflTransGen.head_induction_on with
  | refl => exact terminals word
  | head hStep _ ih => exact of_produces hStep ih

end Yields

theorem mem_language {word : List TokenKind} : word ∈ grammar.language ↔ Yields [.nonterminal .specification] word :=
  Yields.iff_derives.symm

end PolicyFormat.Policy.Grammar
