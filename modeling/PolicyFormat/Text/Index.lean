/-!
Positions in a text or list that may be counted from the end. A negative index counts from the
end, and an index outside is moved to the nearest end.
-/
namespace PolicyFormat.Text

/-- The place in a sequence of `size` elements that the index `i` stands for. -/
def clip (size : Nat) (i : Int) : Nat :=
  let j := if i < 0 then i + size else i
  min j.toNat size

def dropFrom {α : Type} (xs : List α) (i : Int) : List α :=
  xs.drop (clip xs.length i)

/-- The elements before index `i`. -/
def takeTo {α : Type} (xs : List α) (i : Int) : List α :=
  xs.take (clip xs.length i)

/-- The place of the last element that satisfies `p`, or `-1`. -/
def lastIndex {α : Type} (p : α → Bool) (xs : List α) : Int :=
  match xs.reverse.findIdx? p with
  | some i => (xs.length : Int) - 1 - i
  | none => -1

/-- The place of the last line feed before index `limit`, or `-1` if there is none. -/
def previousLineFeed (text : List Char) (limit : Int) : Int :=
  lastIndex (· == '\n') (takeTo text limit)

def occursIn (word : List Char) : List Char → Bool
  | [] => word.isEmpty
  | c :: rest => word.isPrefixOf (c :: rest) || occursIn word rest

/-- A text with each line feed shown as a bar. -/
def onOneLine (s : String) : String :=
  String.ofList (s.toList.flatMap (fun c => if c == '\n' then [' ', '|', ' '] else [c]))

/-- Puts pairs over others: a key that is there keeps its place and gets the new value, and a new
key comes last. -/
def mergePairs {α : Type} (base later : List (String × α)) : List (String × α) :=
  later.foldl put base
where
  /-- Puts one pair. -/
  put : List (String × α) → String × α → List (String × α)
  | [], new => [new]
  | old :: rest, new => if old.1 == new.1 then new :: rest else old :: put rest new

/-- The element at an index, which may count from the end, and the elements after it. -/
def pick? {α : Type} (xs : List α) (i : Int) : Option (α × List α) :=
  let j := if i < 0 then i + xs.length else i
  if j < 0 then none
  else match xs.drop j.toNat with
    | x :: later => some (x, later)
    | [] => none

/-- The place of the first element from index `start` on that satisfies `p`. -/
def findFrom? {α : Type} (p : α → Bool) (xs : List α) (start : Int) : Option Nat :=
  let skipped := clip xs.length start
  ((xs.drop skipped).findIdx? p).map (· + skipped)

/-- The place of the last element that satisfies `p`, up to and with index `last`. -/
def findBackFrom? {α : Type} (p : α → Bool) (xs : List α) (last : Int) : Option Nat :=
  let before := takeTo xs (last + 1)
  (before.reverse.findIdx? p).map (before.length - 1 - ·)

end PolicyFormat.Text
