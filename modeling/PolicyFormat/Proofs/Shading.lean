import PolicyFormat.Proofs.Characters
import PolicyFormat.Proofs.Sheet

/-! Texts with their strings blotted out. What is laid out outside of strings is seen best if every character of a
string is replaced by a quotation mark. The text of a legal ink is then that of the ink with its strings blotted
out, and if the ink was put down without refusal, the lines of the text are neat. -/
namespace PolicyFormat.Policy

open Layout Lexeme Scan

/-! ### Blotting out strings -/

/-- The place in the text belongs to one of the string tokens. -/
def inString (tokens : List Token) (place : Int) : Bool :=
  tokens.any (fun t => t.kind = .quoted ∧ t.offset ≤ place ∧ place < t.offset + t.text.length)

/-- The characters from a place on, with quotation marks in place of the characters of strings. -/
def shadeFrom (tokens : List Token) : (place : Int) → List Char → List Char
  | _, [] => []
  | place, c :: cs => (if inString tokens place then '"' else c) :: shadeFrom tokens (place + 1) cs

/-- The characters of a text, with quotation marks in place of the characters of its string tokens. -/
def shaded (text : String) : List Char :=
  shadeFrom (Scan.ofText text).tokens 0 text.toList

section

variable {t : Token} {tokens : List Token} {place : Int} {cs : List Char}

theorem shadeFrom_append (tokens : List Token) (place : Int) (a b : List Char) :
    shadeFrom tokens place (a ++ b) = shadeFrom tokens place a ++ shadeFrom tokens (place + a.length) b := by
  induction a generalizing place with
  | nil => simp [shadeFrom]
  | cons c a ih =>
    have hPlace : place + 1 + (a.length : Int) = place + ((c :: a).length : Nat) := by
      simp only [List.length_cons]
      omega
    rw [List.cons_append, shadeFrom, ih, hPlace, shadeFrom, List.cons_append]

/-- Nothing is blotted out before the first token. -/
theorem shadeFrom_of_later (h : ∀ t ∈ tokens, place + cs.length ≤ t.offset) : shadeFrom tokens place cs = cs := by
  induction cs generalizing place with
  | nil => rfl
  | cons c cs ih =>
    have hOutside : inString tokens place = false := by
      refine List.any_eq_false.2 fun t ht => ?_
      have hLater := h t ht
      simp only [List.length_cons] at hLater
      simp only [decide_eq_true_eq]
      omega
    rw [shadeFrom, hOutside, ih]
    · rfl
    · intro t ht
      have hLater := h t ht
      simp only [List.length_cons] at hLater
      omega

/-- A token blots nothing out after its end. -/
theorem shadeFrom_of_past (h : t.offset + t.text.length ≤ place) :
    shadeFrom (t :: tokens) place cs = shadeFrom tokens place cs := by
  induction cs generalizing place with
  | nil => rfl
  | cons c cs ih =>
    have hPast : decide (t.kind = .quoted ∧ t.offset ≤ place ∧ place < t.offset + t.text.length) = false := by
      simp only [decide_eq_false_iff_not]
      omega
    have hSame : inString (t :: tokens) place = inString tokens place := by
      rw [inString, List.any_cons, hPast, Bool.false_or, inString]
    rw [shadeFrom, shadeFrom, hSame, ih (by omega)]

/-- A string is blotted out from its start to its end. -/
theorem shadeFrom_of_quoted (hKind : t.kind = .quoted) (hStart : t.offset ≤ place)
    (hEnd : place + cs.length ≤ t.offset + t.text.length) :
    shadeFrom (t :: tokens) place cs = List.replicate cs.length '"' := by
  induction cs generalizing place with
  | nil => rfl
  | cons c cs ih =>
    simp only [List.length_cons] at hEnd
    have hInside : inString (t :: tokens) place = true := by
      refine List.any_eq_true.2 ⟨t, List.mem_cons_self, ?_⟩
      simp only [decide_eq_true_eq]
      exact ⟨hKind, hStart, by omega⟩
    rw [shadeFrom, hInside, ih (by omega) (by omega)]
    rfl

/-- A token that is no string blots nothing out. -/
theorem shadeFrom_of_unquoted (hKind : t.kind ≠ .quoted) :
    shadeFrom (t :: tokens) place cs = shadeFrom tokens place cs := by
  induction cs generalizing place with
  | nil => rfl
  | cons c cs ih => simp [shadeFrom, inString, hKind, ih]

end

/-- What is passed over in front of the tokens stays as it is. -/
theorem shadeFrom_skip {line next offset : Int} {front rest : List Char}
    (h : (scanFrom line offset 0 (front ++ rest)).tokens = (scanFrom next (offset + front.length) 0 rest).tokens) :
    shadeFrom (scanFrom line offset 0 (front ++ rest)).tokens offset (front ++ rest) =
      front ++ shadeFrom (scanFrom next (offset + front.length) 0 rest).tokens (offset + front.length) rest := by
  rw [h, shadeFrom_append, shadeFrom_of_later fun t ht => ((scanned_scanFrom _ _ _).start_le_token t ht).2]

end PolicyFormat.Policy

namespace PolicyFormat.Layout

open Policy Lexeme Scan

/-- The text of a word, blotted out if it is a string. -/
def shadedWord (text : String) : String :=
  if kindOf text = .quoted then String.ofList (List.replicate text.toList.length '"') else text

/-- The mark, blotted out if it is a string. -/
def Mark.shaded : Mark → Mark
  | .word text => .word (shadedWord text)
  | mark => mark

theorem Mark.shaded_eq_newline {mark : Mark} : mark.shaded = .newline ↔ mark = .newline := by
  cases mark <;> simp [Mark.shaded]

theorem Ink.blank_of_shaded {ink : Ink} (h : (ink.map Mark.shaded).head?.getD .newline = .newline) :
    ink.head?.getD .newline = .newline := by
  cases ink with
  | nil => rfl
  | cons mark ink => exact Mark.shaded_eq_newline.1 h

theorem shadeFrom_word {text : String} {rest : List Char} (hText : IsToken text) (hEnds : Ends (kindOf text) rest)
    (line offset : Int) :
    ∃ next start, shadeFrom (scanFrom line offset 0 (text.toList ++ rest)).tokens offset (text.toList ++ rest) =
      (shadedWord text).toList ++ shadeFrom (scanFrom next start 0 rest).tokens start rest := by
  refine ⟨line + text.toList.count '\n', offset + text.toList.length, ?_⟩
  have hPast : ∀ place, shadeFrom (⟨kindOf text, String.ofList text.toList, line, offset⟩ :: place)
      (offset + text.toList.length) rest = shadeFrom place (offset + text.toList.length) rest :=
    fun place => shadeFrom_of_past (by simp [← String.length_toList])
  rw [scanFrom_token line offset (hText.front?_append hEnds)]
  dsimp only
  rw [shadeFrom_append, hPast]
  congr 1
  unfold shadedWord
  split
  · rename_i hKind
    rw [shadeFrom_of_quoted hKind (le_refl _) (by simp [← String.length_toList]), String.toList_ofList]
  · rename_i hKind
    rw [shadeFrom_of_unquoted hKind, shadeFrom_of_later fun t ht => ((scanned_scanFrom _ _ _).start_le_token t ht).2]

/-- The text of a legal ink, with its strings blotted out, is the text of the ink with its strings blotted out. -/
theorem Legible.shaded {ending lead cs : List Char} {pending : List String} {ink : Ink}
    (hEnding : IsLineEnding ending) (h : Legible ending lead pending ink cs) (line offset : Int) :
    ∃ dark, shadeFrom (scanFrom line offset 0 (lead ++ cs)).tokens offset (lead ++ cs) = lead ++ dark ∧
      Written ending pending (ink.map Mark.shaded) dark := by
  induction h generalizing line offset with
  | @nil lead pending hTail =>
    have hShade := shadeFrom_skip (scanFrom_lineTail hTail [] (by simp) line offset).tokens
    rw [List.append_nil] at hShade
    exact ⟨tailChars pending, by simpa [shadeFrom] using hShade, .nil pending⟩
  | @newline lead pending cs ink indent hEmpty hTail hRest ih =>
    -- The line ending and the indentation are passed over together with the end of the line.
    have hTokens := (scanFrom_lineTail_ending hTail hEnding (List.replicate indent ' ' ++ cs) line offset).tokens
    rw [scanFrom_spaces] at hTokens
    obtain ⟨dark, hDark, hWritten⟩ := ih (line + 1)
      (offset + (lead ++ tailChars pending ++ ending ++ List.replicate indent ' ').length)
    have hShade := @shadeFrom_skip line (line + 1) offset
      (lead ++ tailChars pending ++ ending ++ List.replicate indent ' ') cs
      (by simpa [Int.add_assoc, Int.add_left_comm] using hTokens)
    refine ⟨tailChars pending ++ (ending ++ (List.replicate indent ' ' ++ dark)), ?_, ?_⟩
    · simp only [List.nil_append] at hDark
      rw [hDark] at hShade
      simpa using hShade
    · exact .newline indent (fun hBlank => hEmpty (Ink.blank_of_shaded hBlank)) hWritten
  | tail hRest ih =>
    obtain ⟨dark, hDark, hWritten⟩ := ih line offset
    exact ⟨dark, hDark, .tail hWritten⟩
  | @space pending ink cs hRest ih =>
    obtain ⟨dark, hDark, hWritten⟩ := ih line (offset + 1)
    have hShade := @shadeFrom_skip line line offset [' '] cs
      (congrArg Scan.tokens (scanFrom_space_cons line offset cs))
    simp only [List.nil_append] at hDark
    exact ⟨' ' :: dark, by simpa [hDark] using hShade, .mark (by simp [Mark.shaded]) rfl hWritten⟩
  | @note pending ink cs text hRest ih =>
    obtain ⟨dark, hDark, hWritten⟩ := ih line offset
    exact ⟨text.toList ++ dark, by simpa using hDark, .mark (by simp [Mark.shaded]) rfl hWritten⟩
  | @word pending text ink cs hText hEnds hRest ih =>
    obtain ⟨line', start, hShade⟩ := shadeFrom_word hText hEnds line offset
    obtain ⟨dark, hDark, hWritten⟩ := ih line' start
    simp only [List.nil_append] at hDark
    exact ⟨(shadedWord text).toList ++ dark, by simpa [hDark] using hShade, .mark (by simp [Mark.shaded]) rfl hWritten⟩

end PolicyFormat.Layout
