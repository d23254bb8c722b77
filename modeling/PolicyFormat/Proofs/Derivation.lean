import PolicyFormat.Policy.Parse
import PolicyFormat.Policy.Placement

/-! Which trees the tokens of a policy file stand for. The relations say what the parser of each
construct is to read, with the places of all nodes, and say nothing of how it decides what to
read next. The parser reads a tree from tokens exactly if the tree is derived from them. -/
namespace PolicyFormat.Policy

variable {own : List Token}

/-! ### Places -/

variable {α : Type}

namespace Token

/-- The text that a token covers. -/
def span (t : Token) : Span :=
  ⟨t.line, t.endLine, t.offset, t.stop⟩

/-- The node of a token. -/
def leaf (t : Token) (yields : Option Int := some 1) : Leaf :=
  { traits := { span := t.span, yields }, text := t.text }

end Token

/-- The text from the first to the last token. -/
def spanOf (tokens : List Token) : Span :=
  match tokens.head?, tokens.getLast? with
  | some first, some last => ⟨first.line, last.endLine, first.offset, last.stop⟩
  | _, _ => default

/-- The text that a list without brackets is said to cover: from the end of the token that follows
the start of the list to the end of the last token read. -/
def openSpan (next last : Token) : Span :=
  ⟨next.endLine, last.endLine, next.stop, last.stop⟩

/-- A list node as it is read. -/
def listOf {α : Type} (span : Span) (opening : Option Leaf) (items : List α) (closing : Option Leaf) : ItemList α :=
  { traits := { span, yields := some 1 }, opening, entries := items.map .item, closing }

@[simp] theorem items_listOf (span : Span) (opening : Option Leaf) (items : List α) (closing : Option Leaf) :
    (listOf span opening items closing).items = items := by
  simp [listOf, ItemList.items, List.filterMap_map, Function.comp_def, Entry.item?]

/-! ### Sequences -/

/-- One construct after the other, where each may depend on the token after it. The token after
all of them is `next`. -/
inductive ManyBefore {α : Type} (R : Option Token → α → List Token → Prop) (next : Option Token) :
    List α → List Token → Prop where
  | nil : ManyBefore R next [] []
  | cons {x : α} {xs : List α} {own more : List Token} (hOwn : R (more.head?.or next) x own)
      (hMore : ManyBefore R next xs more) : ManyBefore R next (x :: xs) (own ++ more)

section

variable {α : Type} (R : α → List Token → Prop)

/-- One construct after the other. -/
abbrev Many : List α → List Token → Prop :=
  ManyBefore (fun _ => R) none

/-- Constructs that each have a comma before them. -/
inductive AfterCommas : List α → List Token → Prop where
  | nil : AfterCommas [] []
  | cons {comma : Token} {x : α} {xs : List α} {own more : List Token}
      (hComma : comma.kind = .comma) (hOwn : R x own) (hMore : AfterCommas xs more) :
      AfterCommas (x :: xs) (comma :: own ++ more)

/-- Constructs with commas between them. The first may be left out, also before a comma. -/
inductive Separated : List α → List Token → Prop where
  | later {xs : List α} {tokens : List Token} (h : AfterCommas R xs tokens) : Separated xs tokens
  | first {x : α} {xs : List α} {own more : List Token} (hOwn : R x own)
      (hMore : AfterCommas R xs more) : Separated (x :: xs) (own ++ more)

/-- Constructs in round brackets. -/
inductive Parenthesised : ItemList α → List Token → Prop where
  | mk {opening closing : Token} {items : List α} {inner : List Token}
      (hOpening : opening.kind = .openParen) (hInner : Separated R items inner)
      (hClosing : closing.kind = .closeParen) :
      Parenthesised (listOf (spanOf (opening :: (inner ++ [closing]))) (some opening.leaf) items
          (some (closing.leaf (some 2))))
        (opening :: (inner ++ [closing]))

end

/-- A token that may be missing. -/
inductive Optionally (kind : TokenKind) : Option Leaf → List Token → Prop where
  | none : Optionally kind none []
  | some {t : Token} (hKind : t.kind = kind) : Optionally kind (some t.leaf) [t]

/-! ### Values -/

/-- A word or a call is derived from tokens. -/
inductive Element.Derived : Option Int → Element → List Token → Prop where
  | word {yields : Option Int} {t : Token} (hKind : Parser.startsElement t.kind = true) :
      Derived yields (.leaf (t.leaf yields)) [t]
  | call {yields : Option Int} {name : Token} {arguments : ItemList Element} {brackets : List Token}
      (hName : Parser.startsCall name.kind = true)
      (hArguments : Parenthesised (Derived (some 0)) arguments brackets) :
      Derived yields (.call { span := spanOf (name :: brackets), yields } name.leaf arguments) (name :: brackets)

/-- A list in braces is derived from tokens. Its elements keep the blank lines before them. -/
inductive BracedDerived : ItemList Element → List Token → Prop where
  | mk {opening closing : Token} {items : List Element} {inner : List Token} {comma : Option Leaf}
      {after : List Token} (hOpening : opening.kind = .openBrace)
      (hInner : Separated (Element.Derived (some 0)) items inner)
      (hComma : Optionally .comma comma after) (hClosing : closing.kind = .closeBrace) :
      BracedDerived (listOf (spanOf (opening :: (inner ++ after) ++ [closing])) (some opening.leaf)
          (items.map (Element.withTraits (fun t => { t with keepsBlank := true })))
          (some (closing.leaf none)))
        (opening :: (inner ++ after) ++ [closing])

inductive Value.Derived : Value → List Token → Prop where
  | single {element : Element} {tokens : List Token}
      (h : element.Derived (some 1) tokens) : Derived (.single element) tokens
  | list {elements : ItemList Element} {tokens : List Token}
      (h : BracedDerived elements tokens) : Derived (.list elements) tokens

/-! ### Promises -/

/-- An attribute with its value and the comma after it is derived from tokens. -/
inductive Assignment.Derived (keepsBlank : Bool) : Assignment → List Token → Prop where
  | mk {name arrow : Token} {value : Value} {right : List Token} {comma : Option Leaf}
      {after : List Token} (hName : name.kind = .ident) (hArrow : arrow.kind = .assign)
      (hValue : value.Derived right) (hComma : Optionally .comma comma after) :
      Derived keepsBlank
        { traits := { span := spanOf (name :: arrow :: (right ++ after)), keepsBlank }
          name := name.leaf
          arrow := arrow.leaf
          value
          comma }
        (name :: arrow :: (right ++ after))

/-- A promisee that may be missing is derived from tokens. -/
inductive PromiseeDerived : Option Value → List Token → Prop where
  | none : PromiseeDerived none []
  | some {arrow : Token} {value : Value} {right : List Token} (hArrow : arrow.kind = .arrow)
      (hValue : value.Derived right) : PromiseeDerived (some value) (arrow :: right)

inductive Promise.Derived : Promise → List Token → Prop where
  | mk {promiser semicolon next last : Token} {promisee : Option Value} {right : List Token}
      {comma : Option Leaf} {after : List Token} {constraints : List Assignment} {body : List Token}
      (hPromiser : promiser.kind = .quoted) (hPromisee : PromiseeDerived promisee right)
      (hComma : Optionally .comma comma after) (hBody : Many (Assignment.Derived false) constraints body)
      (hSemicolon : semicolon.kind = .semicolon) (hNext : (body ++ [semicolon]).head? = some next)
      (hLast : (promiser :: (right ++ after ++ body)).getLast? = some last) :
      Derived
        { traits := {
            span := spanOf (promiser :: (right ++ after ++ body) ++ [semicolon]), keepsBlank := true }
          promiser := promiser.leaf
          promisee
          comma
          constraints := listOf (openSpan next last) none constraints none
          semicolon := semicolon.leaf (some 2) }
        (promiser :: (right ++ after ++ body) ++ [semicolon])

inductive Guard.Derived : Guard → List Token → Prop where
  | mk {t : Token} (hKind : t.kind = .guard) :
      Derived { traits := { span := t.span, keepsBlank := true }, expression := t.leaf } [t]

inductive Clause.Derived : Clause → List Token → Prop where
  | guard {g : Guard} {tokens : List Token} (h : g.Derived tokens) : Derived (.guard g) tokens
  | promise {p : Promise} {tokens : List Token} (h : p.Derived tokens) : Derived (.promise p) tokens

/-- A promise type is derived from tokens. The token after them is `next`. -/
inductive PromiseType.Derived (next : Option Token) : PromiseType → List Token → Prop where
  | mk {name first last : Token} {clauses : List Clause} {body : List Token}
      (hName : name.kind = .promiseType) (hBody : Many Clause.Derived clauses body)
      (hFirst : body.head?.or next = some first)
      (hLast : (name :: body).getLast? = some last) :
      Derived next
        { traits := { span := spanOf (name :: body) }
          name := name.leaf none
          clauses := listOf (openSpan first last) none clauses none }
        (name :: body)

/-! ### Blocks -/

variable {xs : List α}

inductive Selection.Derived : Selection → List Token → Prop where
  | guard {g : Guard} {tokens : List Token} (h : g.Derived tokens) : Derived (.guard g) tokens
  | assignment {a : Assignment} {tokens : List Token} {semicolon : Token}
      (h : a.Derived true tokens) (hSemicolon : semicolon.kind = .semicolon) :
      Derived (.assignment a) (tokens ++ [semicolon])

/-- What stands between the braces of a block is derived from tokens. A body is never empty. -/
inductive Contents.Derived : Contents → List Token → Prop where
  | bundle {opening closing : Token} {items : List PromiseType} {inner : List Token}
      (hOpening : opening.kind = .openBrace)
      (hInner : ManyBefore PromiseType.Derived (some closing) items inner)
      (hClosing : closing.kind = .closeBrace) :
      Derived (.bundle (listOf (spanOf (opening :: inner ++ [closing])) (some (opening.leaf none)) items
          (some (closing.leaf none))))
        (opening :: inner ++ [closing])
  | body {opening closing : Token} {items : List Selection} {inner : List Token}
      (hOpening : opening.kind = .openBrace) (hInner : Many Selection.Derived items inner)
      (hItems : items ≠ []) (hClosing : closing.kind = .closeBrace) :
      Derived (.body (listOf (spanOf (opening :: inner ++ [closing])) (some (opening.leaf none)) items
          (some (closing.leaf none))))
        (opening :: inner ++ [closing])

/-- A name in a list of parameters is derived from a token. -/
inductive ParameterDerived : Leaf → List Token → Prop where
  | mk {t : Token} (hKind : t.kind = .ident) : ParameterDerived (t.leaf (some 0)) [t]

/-- The parameters of a block are derived from tokens. The tokens around them are `last` and
`next`. -/
inductive ParametersDerived (last next : Token) : ItemList Leaf → List Token → Prop where
  | none : ParametersDerived last next (listOf (openSpan next last) none [] none) []
  | some {parameters : ItemList Leaf} {brackets : List Token}
      (h : Parenthesised ParameterDerived parameters brackets) :
      ParametersDerived last next parameters brackets

/-- The keyword of a block with the given contents. -/
def Contents.keyword : Contents → TokenKind
  | .bundle _ => .bundle
  | .body _ => .body

inductive Block.Derived : Block → List Token → Prop where
  | mk {keyword type name next : Token} {parameters : ItemList Leaf} {contents : Contents}
      {brackets inner : List Token} (hKeyword : keyword.kind = contents.keyword)
      (hType : type.kind = .ident) (hName : name.kind = .ident)
      (hNext : inner.head? = some next) (hParameters : ParametersDerived name next parameters brackets)
      (hContents : contents.Derived inner) :
      Derived
        { traits := { span := spanOf (keyword :: type :: name :: (brackets ++ inner)) }
          keyword := keyword.leaf
          type := type.leaf
          name := name.leaf
          parameters
          contents }
        (keyword :: type :: name :: (brackets ++ inner))

/-- A policy file is derived from tokens. The place after the end of its text is given. -/
inductive Specification.Derived (line offset : Int) : Specification → List Token → Prop where
  | mk {blocks : List Block} {tokens : List Token} (hBlocks : Many Block.Derived blocks tokens) : Derived line offset
        (listOf ⟨(tokens.head?.map Token.endLine).getD line, (tokens.getLast?.map Token.endLine).getD 0,
            (tokens.head?.map Token.stop).getD offset, (tokens.getLast?.map Token.stop).getD 0⟩
          none blocks none)
        tokens

/-- Where no construct depends on the token after it, the token after all of them does not matter
either. -/
theorem ManyBefore.anywhere {R : α → List Token → Prop} {a b : Option Token}
    (h : ManyBefore (fun _ => R) a xs own) : ManyBefore (fun _ => R) b xs own := by
  induction h with
  | nil => exact .nil
  | cons hOwn _ ih => exact .cons hOwn ih

/-- Where a token follows all constructs, a token follows each. -/
theorem ManyBefore.of_isSome {R : Option Token → α → List Token → Prop} {next : Token}
    (h : ManyBefore (fun next x own => next.isSome → R next x own) (some next) xs own) :
    ManyBefore R (some next) xs own := by
  induction h with
  | nil => exact .nil
  | cons hOwn _ ih => exact .cons (hOwn (by simp)) ih

/-! ### First tokens -/

variable {yields : Option Int} {e : Element}

theorem Element.Derived.head (h : e.Derived yields own) :
    ∃ t more, own = t :: more ∧ Parser.startsElement t.kind = true := by
  cases h with
  | word hKind => exact ⟨_, [], rfl, hKind⟩
  | call hName hArguments => exact ⟨_, _, rfl, by simp [Parser.startsElement, hName]⟩

theorem Element.Derived.span {tokens : List Token} (h : e.Derived yields tokens) : e.traits.span = spanOf tokens := by
  cases h with
  | word h => rfl
  | call hName h => rfl

theorem Assignment.Derived.head {keepsBlank : Bool} {a : Assignment} (h : a.Derived keepsBlank own) :
    ∃ t more, own = t :: more ∧ t.kind = .ident := by
  cases h with
  | mk hName => exact ⟨_, _, rfl, hName⟩

theorem Clause.Derived.head {c : Clause} (h : c.Derived own) :
    ∃ t more, own = t :: more ∧ t.kind = if c.isGuard then .guard else .quoted := by
  cases h with
  | guard h =>
    cases h with
    | mk hKind => exact ⟨_, _, rfl, hKind⟩
  | promise h =>
    cases h with
    | mk hPromiser => exact ⟨_, _, rfl, hPromiser⟩

theorem PromiseType.Derived.head {next : Option Token} {p : PromiseType} (h : p.Derived next own) :
    ∃ t more, own = t :: more ∧ t.kind = .promiseType := by
  cases h with
  | mk hName => exact ⟨_, _, rfl, hName⟩

theorem Selection.Derived.head {s : Selection} (h : s.Derived own) :
    ∃ t more, own = t :: more ∧ t.kind = if s.isGuard then .guard else .ident := by
  cases h with
  | guard h =>
    cases h with
    | mk hKind => exact ⟨_, _, rfl, hKind⟩
  | assignment h =>
    obtain ⟨t, more, rfl, ht⟩ := h.head
    exact ⟨t, _, rfl, ht⟩

theorem Contents.Derived.head {c : Contents} (h : c.Derived own) :
    ∃ t more, own = t :: more ∧ t.kind = .openBrace := by
  cases h with
  | bundle hOpening => exact ⟨_, _, rfl, hOpening⟩
  | body hOpening => exact ⟨_, _, rfl, hOpening⟩

theorem Block.Derived.head {b : Block} (h : b.Derived own) :
    ∃ t more, own = t :: more ∧ t.kind = b.contents.keyword := by
  cases h with
  | mk hKeyword => exact ⟨_, _, rfl, hKeyword⟩

end PolicyFormat.Policy
