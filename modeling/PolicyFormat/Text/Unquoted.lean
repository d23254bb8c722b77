/-!
Reading a text in quotes. A backslash starts an escape, three marks in a row open a text that ends with
three, several quoted texts side by side are joined, and a number sign starts a comment.
-/
namespace PolicyFormat.Text

def hexDigit? (c : Char) : Option Nat :=
  if '0' ≤ c && c ≤ '9' then some (c.toNat - '0'.toNat)
  else if 'a' ≤ c && c ≤ 'f' then some (c.toNat - 'a'.toNat + 10)
  else if 'A' ≤ c && c ≤ 'F' then some (c.toNat - 'A'.toNat + 10)
  else none

def digitsValue (base : Nat) (digits : List Nat) : Nat :=
  digits.foldl (fun n d => base * n + d) 0

/-- Reads exactly `count` hexadecimal digits. -/
def hexChar? (count : Nat) (cs : List Char) : Option Char :=
  let digits := (cs.take count).filterMap hexDigit?
  if digits.length == count && digitsValue 16 digits < 0x110000 then
    some (Char.ofNat (digitsValue 16 digits))
  else none

def escapeLetter? : Char → Option (List Char)
  | '\n' => some []
  | '\\' => some ['\\']
  | '\'' => some ['\'']
  | '"' => some ['"']
  | 'a' => some ['\x07']
  | 'b' => some ['\x08']
  | 'f' => some ['\x0c']
  | 'n' => some ['\n']
  | 'r' => some ['\r']
  | 't' => some ['\t']
  | 'v' => some ['\x0b']
  | _ => none

/-- The number of digits after the letter of an escape by code. -/
def escapeWidth? : Char → Option Nat
  | 'x' => some 2
  | 'u' => some 4
  | 'U' => some 8
  | _ => none

/-- What an escape stands for, and how many characters after the backslash it takes. A backslash before
any other character stands for itself. -/
def escape? : List Char → Option (List Char × Nat)
  | [] => none
  | c :: rest =>
    match escapeLetter? c, escapeWidth? c with
    | some out, _ => some (out, 1)
    | none, some width => (hexChar? width rest).map (fun d => ([d], width + 1))
    | none, none =>
      let octal := ((c :: rest).take 3).takeWhile (fun d => '0' ≤ d && d ≤ '7')
      if octal.isEmpty then
        if c == 'N' then none else some (['\\', c], 1)
      else
        let code := digitsValue 8 (octal.map (fun d => d.toNat - '0'.toNat))
        some ([Char.ofNat code], octal.length)

/-- Reads up to a closing mark. The result is the text and what is left after the mark. `skip` counts the
characters that belong to an escape that was read. -/
def quotedBody? (mark : List Char) : Nat → List Char → List Char → Option (List Char × List Char)
  | _, _, [] => none
  | skip + 1, out, _ :: rest => quotedBody? mark skip out rest
  | 0, out, c :: rest =>
    if mark.isPrefixOf (c :: rest) then some (out, (c :: rest).drop mark.length)
    else if c == '\\' then
      (escape? rest).bind (fun (new, taken) => quotedBody? mark taken (out ++ new) rest)
    else if c == '\n' && mark.length == 1 then none
    else quotedBody? mark 0 (out ++ [c]) rest

def quotedText? (cs : List Char) : Option (List Char × List Char) :=
  match cs with
  | a :: rest =>
    if a == '\'' || a == '"' then
      if [a, a, a].isPrefixOf cs then quotedBody? [a, a, a] 0 [] (cs.drop 3)
      else quotedBody? [a] 0 [] rest
    else none
  | [] => none

def quotedTexts? : Nat → List Char → Option (List Char)
  | 0, _ => none
  | fuel + 1, cs =>
    (quotedText? cs).bind fun (text, rest) =>
      match rest.dropWhile (fun c => c == ' ' || c == '\t') with
      | [] => some text
      | '#' :: _ => some text
      | rest => (quotedTexts? fuel rest).map (text ++ ·)

/-- The text that stands in quotes, or nothing if the whole is not in quotes. -/
def unquote? (s : String) : Option String :=
  (quotedTexts? (s.length + 1) s.toList).map String.ofList

end PolicyFormat.Text
