import PolicyFormat.Keyed

/-!
The productions of a context-free grammar. Symbols are named by text, and whether a symbol is a
terminal is decided by the grammar that a production belongs to.
-/
namespace PolicyFormat

/-- The way in which an operator groups with others of the same level. -/
inductive Associativity where
  | left | right | nonassoc
deriving Repr, BEq, DecidableEq

/-- The word for an associativity in grammar declarations. -/
def Associativity.word : Associativity → String
  | .left => "left"
  | .right => "right"
  | .nonassoc => "nonassoc"

def Associativity.ofWord? : String → Option Associativity
  | "left" => some .left
  | "right" => some .right
  | "nonassoc" => some .nonassoc
  | _ => none

/-- How strongly an operator binds. A higher level binds more strongly. -/
structure Precedence where
  associativity : Associativity := .right
  level : Int := 0
deriving Repr, BEq, DecidableEq

/-- A line of a file in which a grammar is written. -/
structure Place where
  file : String := ""
  line : Int := 0
deriving Repr, BEq, DecidableEq

/-- The form in which messages name a place. -/
def Place.text (p : Place) : String :=
  p.file ++ ":" ++ toString p.line

/-- A production: a nonterminal and the symbols that it may stand for. -/
structure Production where
  number : Nat
  name : String
  symbols : List String
  precedence : Precedence := {}
  action : Option String := none
  place : Place := {}
deriving Repr, BEq

def arrowText (name : String) (symbols : List String) : String :=
  name ++ " -> " ++ (if symbols.isEmpty then "<empty>" else String.intercalate " " symbols)

/-- A production as it is shown in logs and messages. -/
def Production.text (p : Production) : String :=
  arrowText p.name p.symbols

/-- The symbols of a production, each once, in order of first use. -/
def Production.uniqueSymbols (p : Production) : List String :=
  addAllNew [] p.symbols

def rightmostTerminal? (isTerminal : String → Bool) (symbols : List String) : Option String :=
  symbols.reverse.find? isTerminal

end PolicyFormat
