import Mathlib.Algebra.GroupWithZero.Nat
import PolicyFormat.Layout.Policy
import PolicyFormat.Proofs.Ink
import PolicyFormat.Proofs.Spelling

/-! Reading laid out text again. An ink is legal if no word runs into its neighbour and nothing
but a line break follows a comment line. The text of a legal ink falls into exactly its words,
whatever the indentation of its lines. -/
namespace PolicyFormat.Layout

open Policy Lexeme

variable {pen next : Pen} {ink : Ink} {cs rest : List Char} {kind : TokenKind}

/-! ### Legal inks -/

/-- Where the pen stands: at a place where anything may follow, after an opening bracket, after a
word, after a class expression or the name of a promise type, or after a comment line. -/
inductive Pen where
  | free
  | bracket
  | word
  | heading
  | note
deriving Repr, DecidableEq

namespace Pen

/-- The punctuation that may stand directly after a word. -/
def mayFollow (kind : TokenKind) : Bool :=
  kind = .openParen || kind = .closeParen || kind = .comma || kind = .semicolon || kind = .closeBrace

/-- Puts a word of the given kind down, where that is legal. -/
def write (pen : Pen) (kind : TokenKind) : Option Pen :=
  if kind = .guard ∨ kind = .promiseType then
    if pen = .free then some .heading else none
  else if mayFollow kind then
    if pen = .heading then none else some (if kind = .openParen then .bracket else .word)
  else if pen = .free ∨ pen = .bracket then some .word
  else none

/-- Puts a mark down, where that is legal. -/
def step : Pen → Mark → Option Pen
  | _, .newline => some .free
  | pen, .tail _ _ => some pen
  | .note, _ => none
  | _, .note _ => some .note
  | _, .space => some .free
  | pen, .word text => pen.write (kindOf text)

end Pen

/-- Puts marks down one after the other. -/
def Ink.run (pen : Pen) (ink : Ink) : Option Pen :=
  ink.foldlM Pen.step pen

namespace Ink

@[simp] theorem run_nil (pen : Pen) : run pen [] = some pen := rfl

@[simp] theorem run_cons (pen : Pen) (mark : Mark) (ink : Ink) :
    run pen (mark :: ink) = (pen.step mark).bind (fun pen => run pen ink) := by
  simp [run, List.foldlM_cons, bind]

theorem run_append (pen : Pen) (a b : Ink) : run pen (a ++ b) = (run pen a).bind (fun pen => run pen b) := by
  simp [run, List.foldlM_append, bind]

end Ink

/-- The text is that of a comment line. -/
def IsNote (text : String) : Prop :=
  ∃ rest, text.toList = '#' :: rest ∧ '\n' ∉ rest

/-- The mark holds what it should: a token, or a comment line. -/
def Mark.Valid : Mark → Prop
  | .word text => IsToken text
  | .note text => IsNote text
  | .tail _ text => IsNote text
  | .space => True
  | .newline => True

/-! ### The text of an ink -/

variable {pending : List String} {text : String} {lines : List Line}

/-- The characters of comments at the end of a line. -/
def tailChars (tails : List String) : List Char :=
  tails.flatMap String.toList

/-- The text `cs` is that of the ink, with any indentation after line breaks, but none on empty
lines. The comments `pending` are still to be put down at the end of the line. -/
inductive Written (ending : List Char) : List String → Ink → List Char → Prop where
  | nil (pending : List String) : Written ending pending [] (tailChars pending)
  | newline {pending : List String} {ink : Ink} {cs : List Char} (indent : Nat)
      (hEmpty : ink.head?.getD .newline = .newline → indent = 0) (hRest : Written ending [] ink cs) :
      Written ending pending (.newline :: ink) (tailChars pending ++ (ending ++ (List.replicate indent ' ' ++ cs)))
  | tail {pending : List String} {spaced : Bool} {text : String} {ink : Ink} {cs : List Char}
      (hRest : Written ending (pending ++ Mark.tails (.tail spaced text)) ink cs) :
      Written ending pending (.tail spaced text :: ink) cs
  | mark {pending : List String} {mark : Mark} {ink : Ink} {cs : List Char}
      (hNewline : mark ≠ .newline) (hTail : mark.tails = [])
      (hRest : Written ending pending ink cs) :
      Written ending pending (mark :: ink) (mark.text.toList ++ cs)

@[simp] theorem tailChars_nil : tailChars [] = [] := rfl

@[simp] theorem tailChars_append (a b : List String) : tailChars (a ++ b) = tailChars a ++ tailChars b :=
  List.flatMap_append

theorem toList_render (l : Line) : ∃ indent, (l.row = ("", []) → indent = 0) ∧ l.render.toList =
      List.replicate indent ' ' ++ (l.text.toList ++ tailChars l.tail) := by
  unfold Line.render
  cases l.indent with
  | none => exact ⟨0, fun _ => rfl, by simp [tailChars]⟩
  | some n =>
    dsimp only
    split
    · exact ⟨0, fun _ => rfl, by simp [tailChars]⟩
    · rename_i hText
      refine ⟨n.toNat, fun h => absurd ?_ hText, by simp [tailChars]⟩
      obtain ⟨hEmpty, hNone⟩ := Prod.mk.inj h
      simp [hEmpty, hNone]

/-- An ink that starts with a line break, or has nothing in it, leaves its first row empty. -/
theorem Ink.row_of_blank {row : Row} {more : List Row} (h : ink.rows = row :: more)
    (hBlank : ink.head?.getD .newline = .newline) : row = ("", []) := by
  cases ink with
  | nil => exact (List.cons.inj h).1.symm
  | cons mark ink =>
    obtain rfl : mark = .newline := hBlank
    exact (List.cons.inj h).1.symm

/-- The text of lines after the first. -/
def restChars (ending : String) (lines : List Line) : List Char :=
  lines.flatMap (fun l => ending.toList ++ l.render.toList)

theorem toList_renderLines (ending : String) (l : Line) (rest : List Line) :
    (renderLines ending (l :: rest)).toList = l.render.toList ++ restChars ending rest := by
  induction rest generalizing l with
  | nil => simp [renderLines, restChars]
  | cons next rest ih =>
    have hStep : renderLines ending (l :: next :: rest) =
        l.render ++ ending ++ renderLines ending (next :: rest) := by
      simp [renderLines, String.intercalate_cons_cons]
    rw [hStep, String.toList_append, String.toList_append, ih]
    simp [restChars]

/-- An ink is written in the text of the lines that it spells. The first line may go on with
`text` and may have comments `pending` before its own. -/
theorem written_of_rows {ending : String} {ink : Ink} {tails : List String} {rest : List Line}
    (h : ink.rows = (text, tails) :: rest.map Line.row) :
    Written ending.toList pending ink (text.toList ++ tailChars (pending ++ tails) ++ restChars ending rest) := by
  induction ink generalizing pending text tails rest with
  | nil =>
    simp only [Ink.rows, List.cons.injEq, Prod.mk.injEq] at h
    obtain ⟨⟨rfl, rfl⟩, hRest⟩ := h
    rw [List.map_eq_nil_iff.1 hRest.symm]
    simpa [restChars] using @Written.nil ending.toList pending
  | cons mark ink ih =>
    by_cases hNewline : mark = .newline
    · subst hNewline
      simp only [Ink.rows, List.cons.injEq, Prod.mk.injEq] at h
      obtain ⟨⟨rfl, rfl⟩, hRest⟩ := h
      cases rest with
      | nil => exact absurd hRest (Ink.rows_ne_nil ink)
      | cons l rest =>
        obtain ⟨indent, hEmpty, hRender⟩ := toList_render l
        have hInk := @Written.newline _ pending _ _ indent
          (fun hBlank => hEmpty (Ink.row_of_blank hRest hBlank)) (@ih [] l.text l.tail rest hRest)
        simpa [restChars, hRender] using hInk
    · rw [Ink.rows_cons_of_ne hNewline] at h
      obtain ⟨⟨text', tails'⟩, more, hRows⟩ := List.exists_cons_of_ne_nil (Ink.rows_ne_nil ink)
      rw [hRows] at h
      simp only [joinRows, List.cons.injEq, Prod.mk.injEq] at h
      obtain ⟨⟨rfl, rfl⟩, rfl⟩ := h
      cases mark with
      | newline => exact absurd rfl hNewline
      | tail spaced text =>
        refine .tail ?_
        simpa [Mark.text] using @ih (pending ++ Mark.tails (.tail spaced text)) _ _ _ hRows
      | word | space | note =>
        simpa [Mark.tails] using Written.mark hNewline rfl (ih hRows)

/-- The text of lines is the text of an ink that spells them. -/
theorem Spells.written {ink : Ink} (h : Spells ink lines) (hLines : lines ≠ []) (ending : String) :
    ∃ indent cs, (renderLines ending lines).toList = List.replicate indent ' ' ++ cs ∧
      (ink.head?.getD .newline = .newline → indent = 0) ∧ Written ending.toList [] ink cs := by
  cases lines with
  | nil => exact absurd rfl hLines
  | cons l rest =>
    obtain ⟨indent, hEmpty, hRender⟩ := toList_render l
    refine ⟨indent, _, ?_, fun hBlank => hEmpty (Ink.row_of_blank h.symm hBlank),
      @written_of_rows [] l.text ending ink l.tail rest h.symm⟩
    rw [toList_renderLines, hRender]
    simp

/-! ### What may follow -/

variable {ending : List Char} {last : Pen}

/-- The text may follow where the pen stands. -/
def Pen.Allows : Pen → List Char → Prop
  | .free, _ => True
  | .bracket, cs => Quiet cs
  | .word, cs => (∀ c ∈ cs.head?, isNameChar c = false ∧ c ≠ ':') ∧ Quiet cs
  | .heading, cs => ∀ c ∈ cs.head?, isGuardChar c = false
  | .note, _ => True

theorem Pen.allows_of_head (pen : Pen) (h : ∀ c ∈ cs.head?, isGuardChar c = false) : pen.Allows cs := by
  have hName : ∀ c ∈ cs.head?, isNameChar c = false ∧ c ≠ ':' := by
    intro c hc
    refine ⟨isNameChar_eq_false (h c hc), ?_⟩
    rintro rfl
    exact absurd (h _ hc) (by decide)
  cases pen with
  | free => trivial
  | bracket => exact quiet_of_head h
  | word => exact ⟨hName, quiet_of_head h⟩
  | heading => exact h
  | note => trivial

theorem Pen.ends_of_write (hWrite : pen.write kind = some next) (hNext : next.Allows cs) : Ends kind cs := by
  cases kind <;> cases pen <;> simp [Pen.write, Pen.mayFollow] at hWrite <;> subst hWrite <;> first
    | exact hNext
    | exact hNext.2
    | trivial

/-- The line ending is one of the two that policy files have. -/
def IsLineEnding (ending : List Char) : Prop :=
  ending = ['\n'] ∨ ending = ['\r', '\n']

/-- The text is what comments at the end of a line come to. -/
def IsTail (text : String) : Prop :=
  ∃ rest, (text.toList = '#' :: rest ∨ text.toList = ' ' :: '#' :: rest) ∧ '\n' ∉ rest

theorem IsNote.isTail {tail : String} {spaced : Bool} (h : IsNote text)
    (hTail : tail ∈ Mark.tails (.tail spaced text)) : IsTail tail := by
  obtain ⟨rest, hRest, hNewline⟩ := h
  simp only [Mark.tails, List.mem_singleton] at hTail
  subst hTail
  refine ⟨rest, ?_, hNewline⟩
  cases spaced
  · exact .inl hRest
  · exact .inr (by simp [hRest])

theorem head?_tailChars_append (hPending : ∀ t ∈ pending, IsTail t) {rest : List Char}
    (hRest : ∀ c ∈ rest.head?, isGuardChar c = false) :
    ∀ c ∈ (tailChars pending ++ rest).head?, isGuardChar c = false := by
  cases pending with
  | nil => simpa using hRest
  | cons tail pending =>
    obtain ⟨more, hTail | hTail, -⟩ := hPending tail (by simp)
    all_goals
      intro c hc
      simp only [tailChars, List.flatMap_cons, hTail, List.cons_append, List.head?_cons,
        Option.mem_def, Option.some.injEq] at hc
      subst hc
      decide

theorem head?_lineEnding_append (h : IsLineEnding ending) (rest : List Char) :
    ∀ c ∈ (ending ++ rest).head?, isGuardChar c = false := by
  rcases h with rfl | rfl
  all_goals
    intro c hc
    cases hc
    decide

theorem Pen.write_word_head {text : List Char} (hWrite : Pen.word.write kind = some next)
    (hText : Spelling kind text) :
    ∀ c ∈ (text ++ rest).head?, isNameChar c = false ∧ c ≠ ':' := by
  cases hText with
  | name hName hChars =>
    unfold identKind at hWrite
    split_ifs at hWrite <;> simp [Pen.write, Pen.mayFollow] at hWrite
  | punctuation hText =>
    rcases punctuation?_cases hText with ⟨rfl, rfl⟩ | ⟨rfl, rfl⟩ | ⟨rfl, rfl⟩ | ⟨rfl, rfl⟩ |
      ⟨rfl, rfl⟩ | ⟨rfl, rfl⟩ | ⟨rfl, rfl⟩ | ⟨rfl, rfl⟩
    all_goals
      intro c hc
      cases hc
      decide
  | quoted | guard | symbol | promiseType | nakedVar =>
    simp [Pen.write, Pen.mayFollow] at hWrite

theorem Pen.allows_of_write {text : List Char} (hWrite : pen.write kind = some next) (hText : Spelling kind text)
    (hRest : Ends kind rest) :
    pen.Allows (text ++ rest) := by
  have hQuiet : pen ≠ .free → Quiet (text ++ rest) := by
    intro hPen
    refine hText.quiet ?_ hRest
    rintro rfl
    simp [Pen.write, hPen] at hWrite
  cases pen with
  | free => trivial
  | bracket => exact hQuiet (by simp)
  | word => exact ⟨Pen.write_word_head hWrite hText, hQuiet (by simp)⟩
  | heading => cases kind <;> simp [Pen.write, Pen.mayFollow] at hWrite
  | note => trivial

/-! ### Scanning piece by piece -/

variable {c : Char}

open Scan

theorem scanFrom_pending (line offset : Int) (piece rest : List Char) :
    scanFrom line offset piece.length (piece ++ rest) = scanFrom line offset 0 rest := by
  induction piece with
  | nil => rfl
  | cons c piece ih => exact ih

theorem scanFrom_space (piece rest : List Char) (line offset : Int)
    (hFront : front? (piece ++ rest) = some (.space, piece)) (hPiece : piece ≠ []) :
    scanFrom line offset 0 (piece ++ rest) = scanFrom (line + piece.count '\n') (offset + piece.length) 0 rest := by
  obtain ⟨c, more, rfl⟩ := List.exists_cons_of_ne_nil hPiece
  rw [List.cons_append] at hFront ⊢
  rw [scanFrom, hFront]
  exact scanFrom_pending _ _ more rest

theorem scanFrom_token {piece : List Char} (line offset : Int)
    (hFront : front? (piece ++ rest) = some (.token kind, piece)) :
    scanFrom line offset 0 (piece ++ rest) =
      let after := scanFrom (line + piece.count '\n') (offset + piece.length) 0 rest
      { after with tokens := ⟨kind, String.ofList piece, line, offset⟩ :: after.tokens } := by
  obtain ⟨c, more, rfl⟩ := List.exists_cons_of_ne_nil (spelling_of_front? hFront).1.ne_nil
  rw [List.cons_append] at hFront ⊢
  rw [scanFrom, hFront]
  simp only [List.length_cons, Nat.add_sub_cancel, scanFrom_pending]

theorem front?_of_space {piece : List Char} (hGuard : isGuardChar c = false) (hQuoted : quoted? (c :: rest) = none)
    (h : space? (c :: rest) = some piece) : front? (c :: rest) = some (.space, piece) := by
  rw [front?_of_mark (isNameChar_eq_false hGuard) hQuoted (quiet_of_head (by simpa using hGuard)), h]
  rfl

theorem front?_blank (hc : (c == ' ' || c == '\t') = true) (rest : List Char) :
    front? (c :: rest) = some (.space, c :: rest.takeWhile (fun c => c == ' ' || c == '\t')) := by
  rw [Bool.or_eq_true, beq_iff_eq, beq_iff_eq] at hc
  rcases hc with rfl | rfl <;> exact front?_of_space (by decide) rfl (by simp [space?])

theorem front?_lineFeed (hc : (c == '\n') = true) (rest : List Char) :
    front? (c :: rest) = some (.space, c :: rest.takeWhile (· == '\n')) := by
  rw [beq_iff_eq.1 hc]
  exact front?_of_space (by decide) rfl (by simp [space?])

theorem front?_comment (rest : List Char) :
    front? ('#' :: rest) = some (.comment, '#' :: rest.takeWhile (· != '\n')) := by
  rw [front?_of_mark (by decide) rfl (quiet_of_head (by simp [isGuardChar, isNameChar]))]
  simp [space?, comment?]

/-- Characters that one piece of white space takes along may as well be scanned by themselves. -/
theorem scanFrom_run {p : Char → Bool} (rest : List Char)
    (hFront : ∀ {c}, p c = true → ∀ more, front? (c :: more) = some (.space, c :: more.takeWhile p))
    (line offset : Int) : scanFrom line offset 0 rest =
      scanFrom (line + (rest.takeWhile p).count '\n') (offset + (rest.takeWhile p).length) 0 (rest.dropWhile p) := by
  cases rest with
  | nil => simp [scanFrom]
  | cons c more =>
    by_cases hc : p c = true
    · have hScan := scanFrom_space (c :: more.takeWhile p) (more.dropWhile p) line offset
        (by simpa using hFront hc more) (by simp)
      simpa [hc] using hScan
    · simp [hc]

theorem scanFrom_blank_cons (hc : (c == ' ' || c == '\t') = true) (line offset : Int) (rest : List Char) :
    scanFrom line offset 0 (c :: rest) = scanFrom line (offset + 1) 0 rest := by
  have hCount : ∀ cs : List Char, (cs.takeWhile (fun c => c == ' ' || c == '\t')).count '\n' = 0 := by
    intro cs
    rw [List.count_eq_zero]
    intro hMem
    exact absurd (List.mem_takeWhile_imp hMem) (by decide)
  rw [scanFrom_run _ front?_blank, scanFrom_run rest front?_blank, hCount, hCount]
  simp only [List.takeWhile_cons, List.dropWhile_cons, hc, if_true, List.length_cons]
  congr 1
  omega

theorem scanFrom_space_cons (line offset : Int) (rest : List Char) :
    scanFrom line offset 0 (' ' :: rest) = scanFrom line (offset + 1) 0 rest :=
  scanFrom_blank_cons rfl line offset rest

theorem scanFrom_lineFeed_cons (line offset : Int) (rest : List Char) :
    scanFrom line offset 0 ('\n' :: rest) = scanFrom (line + 1) (offset + 1) 0 rest := by
  rw [scanFrom_run _ front?_lineFeed, scanFrom_run rest front?_lineFeed]
  simp
  congr 1 <;> omega

theorem scanFrom_carriageReturn_cons (line offset : Int) (rest : List Char) :
    scanFrom line offset 0 ('\r' :: '\n' :: rest) = scanFrom (line + 1) (offset + 2) 0 rest := by
  have hScan := scanFrom_space ('\r' :: '\n' :: rest.takeWhile (· == '\n')) (rest.dropWhile (· == '\n')) line offset
    (front?_of_space (by decide) rfl (by simp [space?])) (by simp)
  rw [scanFrom_run rest front?_lineFeed]
  simp at hScan
  rw [hScan]
  congr 1 <;> omega

theorem scanFrom_spaces (line offset : Int) (indent : Nat) (rest : List Char) :
    scanFrom line offset 0 (List.replicate indent ' ' ++ rest) = scanFrom line (offset + indent) 0 rest := by
  induction indent generalizing offset with
  | zero => simp
  | succ indent ih =>
    rw [List.replicate_succ, List.cons_append, scanFrom_space_cons, ih]
    congr 1
    omega

/-- The text is what may stand between the last word of a line and its end: nothing, or comments. -/
def IsLineTail (cs : List Char) : Prop :=
  '\n' ∉ cs ∧ (cs = [] ∨ ∃ rest, cs = '#' :: rest ∨ cs = ' ' :: '#' :: rest)

/-- Two scans have found the same tokens and end alike. Comments count unless `noted` holds. -/
structure SameTokens (noted : Prop) (a b : Scan) : Prop where
  tokens : a.tokens = b.tokens
  ending : a.ending = b.ending
  comments : ¬ noted → a.comments = b.comments

theorem scanFrom_comment {more : List Char} (hMore : '\n' ∉ more) (hRest : ∀ c ∈ rest.head?, c = '\n')
    (line offset : Int) :
    scanFrom line offset 0 ('#' :: more ++ rest) =
      let after := scanFrom line (offset + ('#' :: more).length) 0 rest
      { after with
        comments := ⟨String.ofList (Text.trimRight ('#' :: more)), line, offset⟩ :: after.comments } := by
  have hFront : front? ('#' :: (more ++ rest)) = some (.comment, '#' :: more) := by
    rw [front?_comment, takeWhile_stop]
    · intro c hc
      simpa using fun hEq : c = '\n' => hMore (hEq ▸ hc)
    · intro c hc
      simp [hRest c hc]
  rw [List.cons_append, scanFrom, hFront]
  simp [scanFrom_pending, List.count_eq_zero.2 hMore]

theorem scanFrom_lineTail (hTail : IsLineTail cs) (more : List Char) (hMore : ∀ c ∈ more.head?, c = '\n')
    (line offset : Int) :
    SameTokens (cs ≠ []) (scanFrom line offset 0 (cs ++ more)) (scanFrom line (offset + cs.length) 0 more) := by
  obtain ⟨hNewline, rfl | ⟨rest, rfl | rfl⟩⟩ := hTail
  · simpa using (⟨rfl, rfl, fun _ => rfl⟩ : SameTokens False _ _)
  · rw [scanFrom_comment (by simpa using hNewline) hMore]
    exact ⟨rfl, rfl, by simp⟩
  · have hLength : offset + ((' ' :: '#' :: rest).length : Nat) = offset + 1 + ('#' :: rest).length := by
      simp only [List.length_cons]
      omega
    rw [List.cons_append, scanFrom_space_cons, hLength, scanFrom_comment (by simpa using hNewline) hMore]
    exact ⟨rfl, rfl, by simp⟩

theorem scanFrom_lineTail_ending (hTail : IsLineTail cs) (hEnding : IsLineEnding ending) (more : List Char)
    (line offset : Int) :
    SameTokens (cs ≠ []) (scanFrom line offset 0 (cs ++ (ending ++ more)))
      (scanFrom (line + 1) (offset + (cs ++ ending).length) 0 more) := by
  rcases hEnding with rfl | rfl
  · have hScan := scanFrom_lineTail hTail (['\n'] ++ more) (by simp) line offset
    rw [List.singleton_append, scanFrom_lineFeed_cons] at hScan
    simpa [Int.add_assoc] using hScan
  · by_cases hCs : cs = []
    · subst hCs
      simpa [scanFrom_carriageReturn_cons] using (⟨rfl, rfl, fun _ => rfl⟩ : SameTokens False _ _)
    · -- The carriage return before the line feed is read as the last character of the comment.
      have hReturn : IsLineTail (cs ++ ['\r']) := by
        obtain ⟨hNewline, h⟩ := hTail
        refine ⟨by simp [hNewline], .inr ?_⟩
        rcases h with rfl | ⟨rest, rfl | rfl⟩
        · exact absurd rfl hCs
        · exact ⟨rest ++ ['\r'], .inl rfl⟩
        · exact ⟨rest ++ ['\r'], .inr rfl⟩
      have hScan := scanFrom_lineTail hReturn ('\n' :: more) (by simp) line offset
      have hLength : offset + ((cs ++ ['\r']).length : Nat) + 1 = offset + (cs ++ ['\r', '\n']).length := by
        simp only [List.length_append, List.length_cons, List.length_nil]
        omega
      rw [List.append_assoc, scanFrom_lineFeed_cons, hLength] at hScan
      exact ⟨hScan.tokens, hScan.ending, fun h => absurd hCs h⟩

/-! ### Reading an ink again -/

variable {noted : Prop} {lead : List Char}

namespace Mark

/-- How many lines further the ink is after the mark. -/
def height : Mark → Nat
  | word text => lineFeeds text
  | newline => 1
  | _ => 0

end Mark

namespace Ink

/-- The line that an ink ends on. -/
def lineAfter (line : Int) (ink : Ink) : Int :=
  line + ((ink.map Mark.height).sum : Nat)

/-- The kinds, texts and lines of the words of an ink that starts on the given line. -/
def tokens (line : Int) : Ink → List (TokenKind × String × Int)
  | [] => []
  | mark :: rest =>
    (mark.word?.map (fun text => (kindOf text, text, line))).toList ++ tokens (line + mark.height) rest

@[simp] theorem lineAfter_nil (line : Int) : lineAfter line [] = line := by
  simp [lineAfter]

@[simp] theorem lineAfter_cons (line : Int) (mark : Mark) (ink : Ink) :
    lineAfter line (mark :: ink) = lineAfter (line + mark.height) ink := by
  simp [lineAfter, Int.add_assoc]

end Ink

/-- The kind, text and line of a token. -/
def keyOf (t : Token) : TokenKind × String × Int :=
  (t.kind, t.text, t.line)

/-- The scan has found the words of the ink and has come to the end. It has found no comments if
there are none. -/
structure Rescanned (scan : Scan) (line : Int) (ink : Ink) (noted : Prop) : Prop where
  tokens : scan.tokens.map keyOf = ink.tokens line
  ending : ∃ offset, scan.ending = .complete (ink.lineAfter line) offset
  comments : ¬ noted → ink.notes = [] → scan.comments = []

theorem SameTokens.rescanned {other : Prop} {a b : Scan} {line : Int} (hSame : SameTokens noted a b)
    (h : Rescanned b line ink other) : Rescanned a line ink (noted ∨ other) := by
  refine ⟨by rw [hSame.tokens, h.tokens], by rw [hSame.ending]; exact h.ending, ?_⟩
  intro hNoted hNotes
  rw [hSame.comments (fun h => hNoted (.inl h))]
  exact h.comments (fun h => hNoted (.inr h)) hNotes

theorem Rescanned.cons {scan : Scan} {line next : Int} {mark : Mark} {other : Prop} (h : Rescanned scan next ink noted)
    (hWord : mark.word? = none) (hNext : line + mark.height = next)
    (hNotes : ¬ other → Ink.notes (mark :: ink) = [] → ¬ noted ∧ ink.notes = []) :
    Rescanned scan line (mark :: ink) other :=
  ⟨by simpa [Ink.tokens, hWord, hNext] using h.tokens, by simpa [hNext] using h.ending, fun hOther hNil =>
    h.comments (hNotes hOther hNil).1 (hNotes hOther hNil).2⟩

/-- The characters that a comment already put down has on the current line. -/
def Pen.Leads (pen : Pen) (lead : List Char) : Prop :=
  '\n' ∉ lead ∧ if pen = .note then ∃ rest, lead = '#' :: rest else lead = []

theorem Pen.leads_nil (h : pen ≠ .note) : pen.Leads [] :=
  ⟨by simp, by simp [h]⟩

theorem IsNote.leads (h : IsNote text) : Pen.note.Leads text.toList := by
  obtain ⟨rest, hText, hNewline⟩ := h
  exact ⟨by simp [hText, hNewline], by simp [hText]⟩

/-- Nothing is put down on the line of a comment but what goes to its end. -/
theorem Pen.ne_note_of_step {mark : Mark} (h : pen.step mark = some next) (hNewline : mark ≠ .newline)
    (hTail : mark.tails = []) : pen ≠ .note := by
  rintro rfl
  cases mark <;> simp [Pen.step, Mark.tails] at h hTail hNewline

theorem Pen.step_of_ne_note (h : pen ≠ .note) :
    pen.step .space = some .free ∧ (∀ text, pen.step (.note text) = some .note) ∧
      ∀ text, pen.step (.word text) = pen.write (kindOf text) := by
  cases pen <;> simp_all [Pen.step]

theorem Pen.ne_note_of_write (h : pen.write kind = some next) : next ≠ .note := by
  rintro rfl
  simp only [Pen.write] at h
  split_ifs at h <;> simp_all

theorem isLineTail_append_tailChars (hLead : pen.Leads lead) (hPending : ∀ t ∈ pending, IsTail t) :
    IsLineTail (lead ++ tailChars pending) := by
  obtain ⟨hNewline, hLead⟩ := hLead
  have hTails : '\n' ∉ tailChars pending := by
    intro hMem
    obtain ⟨t, ht, hMem⟩ := List.mem_flatMap.1 hMem
    obtain ⟨rest, hRest, hNewline⟩ := hPending t ht
    rcases hRest with hRest | hRest <;> simp [hRest, hNewline] at hMem
  refine ⟨by simp [hNewline, hTails], ?_⟩
  split_ifs at hLead
  · obtain ⟨rest, rfl⟩ := hLead
    exact .inr ⟨_, .inl rfl⟩
  · subst hLead
    cases pending with
    | nil => exact .inl rfl
    | cons t pending =>
      obtain ⟨rest, hRest, -⟩ := hPending t (by simp)
      refine .inr ⟨rest ++ tailChars pending, ?_⟩
      rcases hRest with hRest | hRest
      · exact .inl (by simp [tailChars, hRest])
      · exact .inr (by simp [tailChars, hRest])

theorem scanFrom_word (hText : IsToken text) (hEnds : Ends (kindOf text) rest) (line offset : Int)
    (hRest : ∀ offset, Rescanned (scanFrom (line + lineFeeds text) offset 0 rest) (line + lineFeeds text) ink noted) :
    Rescanned (scanFrom line offset 0 (text.toList ++ rest)) line (.word text :: ink) noted := by
  have hFeeds : text.toList.count '\n' = lineFeeds text := rfl
  rw [scanFrom_token line offset (hText.front?_append hEnds), hFeeds]
  obtain ⟨hTokens, hEnding, hComments⟩ := hRest (offset + text.toList.length)
  refine ⟨?_, by simpa [Mark.height] using hEnding, by simpa [Mark.note?] using hComments⟩
  simp only [List.map_cons, Ink.tokens, Mark.word?, Mark.height, ← hTokens]
  simp [keyOf, lineFeeds]

/-- A legal ink as its text is read, behind a comment that the line already has. Where something is put down,
there is no such comment. -/
inductive Legible (ending : List Char) : (lead : List Char) → (pending : List String) → Ink → List Char → Prop where
  | nil {front tails} (hTail : IsLineTail (front ++ tailChars tails)) :
      Legible ending front tails [] (tailChars tails)
  | newline {front tails chars} {marks : Ink} (indent : Nat)
      (hEmpty : marks.head?.getD .newline = .newline → indent = 0) (hTail : IsLineTail (front ++ tailChars tails))
      (hRest : Legible ending [] [] marks chars) :
      Legible ending front tails (.newline :: marks)
        (tailChars tails ++ (ending ++ (List.replicate indent ' ' ++ chars)))
  | tail {front tails spaced note marks chars}
      (hRest : Legible ending front (tails ++ Mark.tails (.tail spaced note)) marks chars) :
      Legible ending front tails (.tail spaced note :: marks) chars
  | space {tails marks chars} (hRest : Legible ending [] tails marks chars) :
      Legible ending [] tails (.space :: marks) (' ' :: chars)
  | note {tails marks chars} {note : String} (hRest : Legible ending note.toList tails marks chars) :
      Legible ending [] tails (.note note :: marks) (note.toList ++ chars)
  | word {tails word marks chars} (hText : IsToken word) (hEnds : Ends (kindOf word) chars)
      (hRest : Legible ending [] tails marks chars) :
      Legible ending [] tails (.word word :: marks) (word.toList ++ chars)

/-- What is written of a legal ink can be read, and may follow where the pen stood. -/
theorem Written.legible (hEnding : IsLineEnding ending) (hWritten : Written ending pending ink cs)
    (hPending : ∀ t ∈ pending, IsTail t) (hValid : ∀ m ∈ ink, m.Valid) (hRun : Ink.run pen ink = some last)
    (hLead : pen.Leads lead) : Legible ending lead pending ink cs ∧ pen.Allows cs := by
  induction hWritten generalizing pen lead with
  | nil pending =>
    refine ⟨.nil (isLineTail_append_tailChars hLead hPending), pen.allows_of_head ?_⟩
    simpa using @head?_tailChars_append pending hPending [] (by simp)
  | newline indent hEmpty hRest ih =>
    refine ⟨.newline indent hEmpty (isLineTail_append_tailChars hLead hPending) ?_,
      pen.allows_of_head (head?_tailChars_append hPending (head?_lineEnding_append hEnding _))⟩
    exact (ih (by simp) (fun m hm => hValid m (by simp [hm])) (by simpa [Pen.step] using hRun)
      (Pen.leads_nil (by simp))).1
  | @tail pending spaced text ink cs hRest ih =>
    have hPending' : ∀ t ∈ pending ++ Mark.tails (.tail spaced text), IsTail t := by
      intro t ht
      rcases List.mem_append.1 ht with ht | ht
      · exact hPending t ht
      · exact IsNote.isTail (hValid (.tail spaced text) (by simp)) ht
    obtain ⟨hLegible, hAllows⟩ := ih hPending' (fun m hm => hValid m (by simp [hm]))
      (by simpa [Pen.step] using hRun) hLead
    exact ⟨.tail hLegible, hAllows⟩
  | @mark pending mark ink cs hNewline hTail hRest ih =>
    rw [Ink.run_cons, Option.bind_eq_some_iff] at hRun
    obtain ⟨next, hStep, hRun⟩ := hRun
    have hPen := Pen.ne_note_of_step hStep hNewline hTail
    obtain ⟨hSpace, hNote, hWord⟩ := Pen.step_of_ne_note hPen
    obtain rfl : lead = [] := by simpa [hPen] using hLead.2
    have hNext := fun front => @ih next front hPending (fun m hm => hValid m (by simp [hm])) hRun
    cases mark with
    | newline => exact absurd rfl hNewline
    | tail spaced text => simp [Mark.tails] at hTail
    | space =>
      obtain rfl : Pen.free = next := Option.some.inj (hSpace.symm.trans hStep)
      exact ⟨.space (hNext [] (Pen.leads_nil (by simp))).1,
        pen.allows_of_head (by simp [Mark.text, isGuardChar, isNameChar])⟩
    | note text =>
      obtain rfl : Pen.note = next := Option.some.inj ((hNote text).symm.trans hStep)
      have hText : IsNote text := hValid (.note text) (by simp)
      refine ⟨.note (hNext _ hText.leads).1, pen.allows_of_head ?_⟩
      obtain ⟨more, hText, -⟩ := hText
      simp [Mark.text, hText, isGuardChar, isNameChar]
    | word text =>
      have hText : IsToken text := hValid (.word text) (by simp)
      have hWrite : pen.write (kindOf text) = some next := (hWord text).symm.trans hStep
      obtain ⟨hLegible, hAllows⟩ := hNext [] (Pen.leads_nil (Pen.ne_note_of_write hWrite))
      have hEnds := Pen.ends_of_write hWrite hAllows
      exact ⟨.word hText hEnds hLegible, Pen.allows_of_write hWrite hText hEnds⟩

/-- A legal ink falls into its words when its text is read. -/
theorem Legible.rescanned (hEnding : IsLineEnding ending) (h : Legible ending lead pending ink cs)
    (line offset : Int) :
    Rescanned (scanFrom line offset 0 (lead ++ cs)) line ink (lead ++ tailChars pending ≠ []) := by
  induction h generalizing line offset with
  | nil hTail =>
    have hScan := scanFrom_lineTail hTail [] (by simp) line offset
    rw [List.append_nil] at hScan
    have hNil : ∀ next, Rescanned (scanFrom line next 0 []) line [] False :=
      fun next => ⟨rfl, ⟨next + 1, by simp [scanFrom]⟩, fun _ _ => rfl⟩
    simpa using hScan.rescanned (hNil _)
  | @newline lead pending cs ink indent hEmpty hTail hRest ih =>
    have hScan := scanFrom_lineTail_ending hTail hEnding (List.replicate indent ' ' ++ cs) line offset
    rw [scanFrom_spaces] at hScan
    rw [← List.append_assoc]
    exact (hScan.rescanned (ih (line + 1) _)).cons rfl rfl (by simp +contextual [Mark.note?])
  | tail hRest ih => exact (ih line offset).cons rfl (by simp [Mark.height]) (by simp [Mark.note?])
  | space hRest ih =>
    rw [List.nil_append, scanFrom_space_cons]
    exact (ih line (offset + 1)).cons rfl (by simp [Mark.height]) (by simp +contextual [Mark.note?])
  | note hRest ih => exact (ih line offset).cons rfl (by simp [Mark.height]) (by simp [Mark.note?])
  | word hText hEnds hRest ih => exact scanFrom_word hText hEnds line offset (ih _)

/-- The text of lines that a legal ink spells falls into the words of the ink. -/
theorem Spells.rescanned {ending : String} (hSpells : Spells ink lines) (hLines : lines ≠ [])
    (hEnding : IsLineEnding ending.toList) (hValid : ∀ m ∈ ink, m.Valid) (hRun : Ink.run .free ink = some last) :
    Rescanned (Scan.ofText (renderLines ending lines)) 1 ink False := by
  obtain ⟨indent, cs, hText, -, hWritten⟩ := hSpells.written hLines ending
  rw [Scan.ofText, hText, scanFrom_spaces]
  simpa using (hWritten.legible hEnding (by simp) hValid hRun (Pen.leads_nil (by simp))).1.rescanned hEnding 1
    (0 + indent)

end PolicyFormat.Layout
