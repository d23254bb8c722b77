import PolicyFormat.Pattern.Basic
import PolicyFormat.Pattern.Error
import PolicyFormat.Text.Unquoted

/-!
Reading regular expressions. Blanks outside of character classes are skipped, and so is a comment, which
starts with a number sign and goes to the end of the line.
-/
namespace PolicyFormat.Pattern

/-- The rest of a written expression, its place, and the groups that were opened. -/
structure Reading where
  rest : List Char
  position : Nat := 0
  groups : Nat := 0
  /-- The groups that were closed too. -/
  closed : List Nat := []
  names : List (String × Nat) := []

abbrev Read := StateT Reading (Except PatternError)

namespace Read

def failAt {α : Type} (fault : PatternFault) (position : Nat) : Read α :=
  throw ⟨fault, position⟩

/-- The place of the next character. -/
def here : Read Nat := return (← get).position

def peek : Read (Option Char) := return (← get).rest.head?

def advance (n : Nat) : Read Unit :=
  modify (fun s => { s with rest := s.rest.drop n, position := s.position + n })

def accept (c : Char) : Read Bool := do
  if (← peek) == some c then
    advance 1
    return true
  else return false

def token : Read (Option (List Char)) := do
  match (← get).rest with
  | [] => return none
  | ['\\'] => failAt .escapeAtEnd (← here)
  | '\\' :: c :: _ =>
    advance 2
    return some ['\\', c]
  | c :: _ =>
    advance 1
    return some [c]

def charsOf (p : Char → Bool) (most : Option Nat := none) : Read (List Char) := do
  let all := (← get).rest.takeWhile p
  let found := (most.map all.take).getD all
  advance found.length
  return found

def upTo (stop : Char) (missing : PatternFault) : Read String := do
  let start ← here
  let found ← charsOf (· != stop)
  if ← accept stop then
    if found.isEmpty then failAt .noGroupName start else return String.ofList found
  else if found.isEmpty then failAt .noGroupName start
  else failAt missing start

end Read

open Read

def isOctal (c : Char) : Bool := '0' ≤ c && c ≤ '7'

def valueOf (base : Nat) (digits : List Char) : Nat :=
  Text.digitsValue base (digits.map (fun c => (Text.hexDigit? c).getD 0))

def escapedChar? : Char → Option Char
  | 'a' => some '\x07'
  | 'f' => some '\x0c'
  | 'n' => some '\n'
  | 'r' => some '\r'
  | 't' => some '\t'
  | 'v' => some '\x0b'
  | '\\' => some '\\'
  | _ => none

def escapedKind? : Char → Option ClassItem
  | 'd' => some (.digit true)
  | 'D' => some (.digit false)
  | 's' => some (.blank true)
  | 'S' => some (.blank false)
  | 'w' => some (.word true)
  | 'W' => some (.word false)
  | _ => none

/-- Conditions that are written as an escaped letter. -/
def escapedAnchor? : Char → Option Anchor
  | 'A' => some .textStart
  | 'Z' => some .textEnd
  | 'b' => some (.wordEdge true)
  | 'B' => some (.wordEdge false)
  | _ => none

/-- The number of digits after a letter for a character in hexadecimal. -/
def hexLength? : Char → Option Nat
  | 'x' => some 2
  | 'u' => some 4
  | 'U' => some 8
  | _ => none

/-- Reads a character that is given in hexadecimal. The escape starts at `start`. -/
def readHex (start : Nat) (letter : Char) (length : Nat) : Read Char := do
  let digits ← charsOf (fun c => (Text.hexDigit? c).isSome) (some length)
  let written := String.ofList ('\\' :: letter :: digits)
  if digits.length != length then failAt (.incompleteEscape written) start
  let value := valueOf 16 digits
  if value < 0x110000 then return Char.ofNat value
  else failAt (.badEscape written) start

def octalChar (start : Nat) (digits : List Char) : Read Char := do
  let value := valueOf 8 digits
  if value > 255 then failAt (.octalTooLarge (String.ofList ('\\' :: digits))) start
  else return Char.ofNat value

/-- An escaped character that stands for itself. Letters and digits do not. -/
def readItself (start : Nat) (c : Char) : Read Char := do
  if c.isAlphanum then failAt (.badEscape (String.ofList ['\\', c])) start else return c

def readClassEscape (start : Nat) (c : Char) : Read ClassItem := do
  match (if c == 'b' then some '\x08' else escapedChar? c), escapedKind? c, hexLength? c with
  | some d, _, _ => return .char d
  | _, some kind, _ => return kind
  | _, _, some length => return .char (← readHex start c length)
  | _, _, _ =>
    if isOctal c then return .char (← octalChar start (c :: (← charsOf isOctal (some 2))))
    else return .char (← readItself start c)

/-- A reference to a group. It must not refer to a group that is open, and others are not read. -/
def readReference (start number : Nat) : Read Pattern := do
  let s ← get
  if number ≤ s.groups && !s.closed.contains number then failAt .openReference start
  else failAt (.unknownReference number) (start + 1)

/-- Reads an escape that starts with the digit `c`, which is not zero: a character in octal, if there are
three octal digits, and otherwise a reference. -/
def readNumbered (start : Nat) (c : Char) : Read Pattern := do
  match (← get).rest.takeWhile Char.isDigit with
  | [] => readReference start (valueOf 10 [c])
  | [d] => readReference start (valueOf 10 [c, d])
  | d :: e :: _ =>
    if isOctal c && isOctal d && isOctal e then
      advance 2
      return char (← octalChar start [c, d, e])
    else readReference start (valueOf 10 [c, d])

def readEscape (start : Nat) (c : Char) : Read Pattern := do
  match escapedAnchor? c, escapedKind? c, escapedChar? c, hexLength? c with
  | some a, _, _, _ => return .anchor a
  | _, some kind, _, _ => return .oneOf true [kind]
  | _, _, some d, _ => return char d
  | _, _, _, some length => return char (← readHex start c length)
  | _, _, _, _ =>
    if c == '0' then return char (← octalChar start (c :: (← charsOf isOctal (some 2))))
    else if c.isDigit then readNumbered start c
    else return char (← readItself start c)

/-- Reads one part of a character class from its first token. -/
def readClassItem (start : Nat) : List Char → Read ClassItem
  | ['\\', c] => readClassEscape start c
  | c :: _ => return .char c
  | [] => return .char '\\'

/-- Reads the parts of a character class and the bracket after them. The class starts at `start`. -/
def readClass (start : Nat) : (limit : Nat) → List ClassItem → Read (List ClassItem)
  | 0, items => return items
  | limit + 1, items => do
    let lowStart ← here
    match ← token with
    | none => failAt .unclosedClass start
    | some first =>
      if first == [']'] && !items.isEmpty then return items
      let low ← readClassItem lowStart first
      if !(← accept '-') then return ← readClass start limit (items ++ [low])
      let highStart ← here
      match ← token with
      | none => failAt .unclosedClass start
      | some second =>
        if second == [']'] then return items ++ [low, .char '-']
        let high ← readClassItem highStart second
        let bad := PatternFault.badRange (String.ofList first ++ "-" ++ String.ofList second)
        let place := (← here) - (first.length + 1 + second.length)
        match low, high with
        | .char a, .char b =>
          if b < a then failAt bad place
          readClass start limit (items ++ [.range a b])
        | _, _ => failAt bad place

/-- Opens a group. A name starts at `start`. -/
def openGroup (name : Option (String × Nat)) : Read Nat := do
  let s ← get
  let number := s.groups + 1
  match name with
  | none => set { s with groups := number }
  | some (name, start) =>
    match s.names.lookup name with
    | some previous => failAt (.groupDefinedTwice name number previous) start
    | none => set { s with groups := number, names := s.names ++ [(name, number)] }
  return number

/-- A group name is made of word characters and does not start with a digit. -/
def isGroupName (name : String) : Bool :=
  name.toList.all Text.isWord && !(name.toList.head?.map Text.isDigit).getD true

/-- What an opening bracket starts. -/
inductive Opening where
  | group (number : Nat)
  | cluster
  | atomic
  | ahead (inside : Bool)
  | comment

/-- The part in brackets that starts so. -/
def Opening.around (p : Pattern) : Opening → Pattern
  | .group number => .group number p
  | .cluster => .cluster p
  | .atomic => .atomic p
  | .ahead inside => .ahead inside p
  | .comment => .empty

def Opening.close : Opening → Read Unit
  | .group number => modify (fun s => { s with closed := number :: s.closed })
  | _ => return

/-- Reads what stands after an opening bracket and a question mark. The bracket is at `start`. -/
def readExtension (start : Nat) : Read Opening := do
  match ← token with
  | none => failAt .unexpectedEnd (← here)
  | some [':'] => return .cluster
  | some ['>'] => return .atomic
  | some ['='] => return .ahead true
  | some ['!'] => return .ahead false
  | some ['#'] =>
    let _ ← charsOf (· != ')')
    if ← accept ')' then return .comment else failAt .unclosedComment start
  | some ['<'] =>
    match ← token with
    | none => failAt .unexpectedEnd (← here)
    | some written =>
      failAt (.unknownExtension ("?<" ++ String.ofList written)) ((← here) - (written.length + 2))
  | some ['P'] =>
    if ← accept '<' then
      let nameStart ← here
      let name ← upTo '>' .unclosedName
      if !isGroupName name then failAt (.badGroupName name) nameStart
      return .group (← openGroup (some (name, nameStart)))
    else
      match ← token with
      | none => failAt .unexpectedEnd (← here)
      | some written =>
        failAt (.unknownExtension ("?P" ++ String.ofList written)) ((← here) - (written.length + 2))
  | some written =>
    if written.all (fun c => "aiLmsux-".toList.contains c) then failAt .flagsInside start
    else failAt (.unknownExtension ("?" ++ String.ofList written)) ((← here) - (written.length + 1))

def readOpening (start : Nat) : Read Opening := do
  if ← accept '?' then readExtension start
  else return .group (← openGroup none)

/-- Reads the bounds of a repetition after an opening brace. Without bounds nothing is read and the brace
stands for itself. -/
def readBounds : Read (Option (Nat × Option Nat)) := do
  let start ← get
  if (← peek) == some '\x7d' then return none
  let low ← charsOf Char.isDigit
  let high ← if ← accept ',' then charsOf Char.isDigit else pure low
  if !(← accept '\x7d') then
    set start
    return none
  let least := valueOf 10 low
  let most := if high.isEmpty then none else some (valueOf 10 high)
  if (most.map (fun m => decide (m < least))).getD false then failAt .leastAboveMost start.position
  return some (least, most)

/-- The bounds of a repetition mark of which the first character is read. -/
def readRepetition : Char → Read (Option (Nat × Option Nat))
  | '?' => return some (0, some 1)
  | '*' => return some (0, none)
  | '+' => return some (1, none)
  | '\x7b' => readBounds
  | _ => return none

/-- Reads the mark after a repetition that tells how eager it is. -/
def readEagerness : Read Eagerness := do
  match ← peek with
  | some '?' =>
    advance 1
    return .lazy
  | some '+' =>
    advance 1
    return .possessive
  | _ => return .greedy

/-- Repeats the last of several parts. The mark is at `start`. -/
def repeatLast (start : Nat) (bounds : Nat × Option Nat) (parts : List Pattern) : Read (List Pattern) := do
  match parts.reverse with
  | [] => failAt .nothingToRepeat start
  | .anchor _ :: _ => failAt .nothingToRepeat start
  | .repeated .. :: _ => failAt .repeatedTwice start
  | last :: before =>
    let eagerness ← readEagerness
    return before.reverse ++ [.repeated bounds.1 bounds.2 eagerness last]

def isSkipped (c : Char) : Bool :=
  c == ' ' || c == '\t' || c == '\n' || c == '\r' || c == '\x0b' || c == '\x0c'

def isRepetitionMark (c : Char) : Bool :=
  c == '?' || c == '*' || c == '+' || c == '\x7b'

mutual

def readAlternatives : (limit : Nat) → Read Pattern
  | 0 => return .empty
  | limit + 1 => do
    let first ← readParts limit []
    if ← accept '|' then return .alt first (← readAlternatives limit)
    else return first

/-- Reads parts that follow each other, after those that are read. -/
def readParts : (limit : Nat) → List Pattern → Read Pattern
  | 0, parts => return ofList parts
  | limit + 1, parts => do
    let start ← here
    let next ← peek
    if next == some '|' || next == some ')' then return ofList parts
    match ← token with
    | none => return ofList parts
    | some ['\\', c] => readParts limit (parts ++ [← readEscape start c])
    | some ['['] =>
      let inside := !(← accept '^')
      let items ← readClass start limit []
      readParts limit (parts ++ [.oneOf inside items])
    | some ['('] =>
      match ← readOpening start with
      | .comment => readParts limit parts
      | opening =>
        let inner ← readAlternatives limit
        if !(← accept ')') then failAt .unclosedGroup start
        opening.close
        readParts limit (parts ++ [opening.around inner])
    | some ['.'] => readParts limit (parts ++ [.any])
    | some ['^'] => readParts limit (parts ++ [.anchor .textStart])
    | some ['$'] => readParts limit (parts ++ [.anchor .lastLineEnd])
    | some ['#'] =>
      let _ ← charsOf (· != '\n')
      let _ ← accept '\n'
      readParts limit parts
    | some (c :: _) =>
      if isSkipped c then readParts limit parts
      else if isRepetitionMark c then
        match ← readRepetition c with
        | some bounds => readParts limit (← repeatLast start bounds parts)
        | none => readParts limit (parts ++ [char c])
      else readParts limit (parts ++ [char c])
    | some [] => return ofList parts

end

end PolicyFormat.Pattern

namespace PolicyFormat

open Pattern in
def Expression.read (written : String) : Except PatternError Expression := do
  let cs := written.toList
  let (pattern, s) ← (readAlternatives (2 * cs.length + 2)).run { rest := cs }
  if s.rest.isEmpty then return { pattern, names := s.names }
  else throw ⟨.unopenedGroup, s.position⟩

end PolicyFormat
