import PolicyFormat.Scanner.Scan
import PolicyFormat.Text.Blank

/-!
Listing the tokens of a text.
-/
namespace PolicyFormat.Scanner

/-- Where a text to scan may come from. -/
structure TextSources where
  given : String := ""
  file : Option String := none
  input : String := ""

/-- The text to scan and what is announced before it is read. A given text counts if it is not empty, then a
file, whose line ends are made line feeds, and last the input. -/
def TextSources.text (s : TextSources) : String × String :=
  if !s.given.isEmpty then ("", s.given)
  else match s.file with
    | some text => ("", String.ofList (Text.unifyLineEnds text.toList))
    | none => ("Reading from standard input (type EOF to end):\n", s.input)

def Scanned.listed (t : Scanned) : String :=
  "(" ++ t.kind.plain ++ "," ++ t.value.shown ++ "," ++ toString t.line ++ "," ++ toString t.position ++ ")\n"

def listing (scanner : Scanner) (sources : TextSources) : String × Option ScanFault :=
  let (announced, text) := sources.text
  let found := scanner.run text
  (announced ++ String.join (found.tokens.map (fun t => t.token.listed)), found.fault)

end PolicyFormat.Scanner
