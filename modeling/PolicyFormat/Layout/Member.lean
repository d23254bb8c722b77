import PolicyFormat.Layout.Policy
import PolicyFormat.Policy.Evaluation

/-!
Lists of words and class expressions, the simplest lists that are laid out.
-/
namespace PolicyFormat.Layout

open Policy

/-- A word or a class expression in a list. -/
inductive Member where
  | word (l : Leaf)
  | guard (g : Guard)

namespace Member

def traits : Member → Traits
  | .word l => l.traits
  | .guard g => g.traits

def withTraits (f : Traits → Traits) : Member → Member
  | .word l => .word { l with traits := f l.traits }
  | .guard g => .guard { g with traits := f g.traits }

def isGuard : Member → Bool
  | .word _ => false
  | .guard _ => true

def piece : Member → Piece
  | .word l => Piece.ofItem .other l.traits (leafLines l)
  | .guard g => Piece.ofItem .guard g.traits (guardLines g)

/-- The empty line before an entry is kept. -/
def keepsBlank : Entry Member → Bool
  | .comment c => c.keepsBlank
  | .item m => m.traits.keepsBlank

/-- In lists where class expressions guard what follows, no empty line is kept after one. -/
def settle (kind : ListKind) (entries : List (Entry Member)) : List (Entry Member) :=
  if kind = .selections || kind = .clauses then settleAfterGuards isGuard withTraits false entries
  else entries

def listLines (kind : ListKind) (group : ItemList Member) (f : Frame) : Lines :=
  groupLines kind piece group f

end Member

end PolicyFormat.Layout
