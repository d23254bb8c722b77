import PolicyFormat.Proofs.Preservation
import PolicyFormat.Proofs.Words

/-! The tokens of beautified texts. They are the words of the tree that was laid out, whatever the page width.
Only the comma after the last of several elements in braces depends on the width. -/
namespace PolicyFormat

open Policy Layout Lexeme Abstract

/-! ### Tokens without places -/

namespace Policy

/-- A token without its place. -/
abbrev Sign := TokenKind × String

/-- The kind and the text of a token. -/
def Token.sign (t : Token) : Sign :=
  (t.kind, t.text)

/-- The token that a text is. -/
def signOf (text : String) : Sign :=
  (kindOf text, text)

/-- The tokens that a text falls into. -/
def signsOf (text : String) : List Sign :=
  (Scan.ofText text).tokens.map Token.sign

theorem map_tokens_ink (line : Int) (ink : Ink) :
    (ink.tokens line).map (fun key => (key.1, key.2.1)) = ink.words.map signOf := by
  induction ink generalizing line with
  | nil => rfl
  | cons mark ink ih => cases mark <;> simp [Ink.tokens, Mark.word?, signOf, ih]

end Policy

/-- The lines of a beautified text are made of the words of its tree. If no list in round brackets ends in a
comment, the text falls into just these words. -/
theorem beautify_words {P : Comment → Prop} (hP : ∀ c, P c → c.Legible) {options : Options} {text output : String}
    {s : Specification} (hFormed : Specification.Formed P s) (h : beautify options text = .ok output)
    (hTree : Specification.ofText options.tidying text = .ok s)
    (hEnding : ∀ ending ∈ options.lineEnding, ending = "" ∨ ending = "\n" ∨ ending = "\r\n") :
    ∃ lines ink, beautifiedLines options text = .ok lines ∧ Spells ink lines ∧
      (∀ E, Tolerates P E → E ink.words (s.words true)) ∧
      (s.tally openTally = 0 → signsOf output = ink.words.map signOf ∧
        ∃ line offset, (Scan.ofText output).ending = .complete line offset) := by
  obtain ⟨lines, y, ink, hLines, rfl, hNonempty, hPlain, hInked, hSpells⟩ := lines_of_beautify hTree h
  have hShown := Specification.formed_of_plain hPlain hFormed
  refine ⟨lines, ink, hLines, hSpells, fun E hE => ?_, fun hClosed => ?_⟩
  · have hWords := hInked.words_related hE hShown
    rwa [← Specification.words_plain, hPlain, Specification.words_plain] at hWords
  · have hTally := (Specification.tally_of_plain openTally hPlain).trans hClosed
    obtain ⟨stop, code, hLegal, -⟩ := Specification.legal hP shows_blind hShown hTally hInked
    obtain ⟨hTokens, ⟨offset, hComplete⟩, -⟩ := hSpells.rescanned hNonempty
      (isLineEnding_lineEndingFor text hEnding) hLegal.valid hLegal.run
    refine ⟨?_, _, offset, hComplete⟩
    rw [← map_tokens_ink 1, ← hTokens, List.map_map]
    rfl

/-! ### Leaving out final commas -/

namespace Policy

/-- How far the final commas have been left out: the number of commas in each of the brackets that are open,
innermost first, and the tokens that are kept, last first. -/
structure Sieve where
  commas : List Nat
  kept : List Sign

theorem ne_comma_of_startsElement {word : String} (h : Parser.startsElement (kindOf word) = true) :
    (signOf word).1 ≠ .comma := by
  intro hComma
  simp [show kindOf word = .comma from hComma, Parser.startsElement, Parser.startsCall] at h

namespace Sieve

/-- What is kept in front of a closing brace: all but one comma right before it, if there are others. -/
def beforeBrace (s : Sieve) : List Sign :=
  match s.kept with
  | [] => []
  | last :: rest => if last.1 = .comma ∧ 1 < s.commas.headD 0 then rest else last :: rest

/-- Takes the next token. -/
def step (s : Sieve) (sign : Sign) : Sieve :=
  match sign.1 with
  | .openBrace | .openParen => ⟨0 :: s.commas, sign :: s.kept⟩
  | .comma => ⟨s.commas.modifyHead (· + 1), sign :: s.kept⟩
  | .closeParen => ⟨s.commas.tail, sign :: s.kept⟩
  | .closeBrace => ⟨s.commas.tail, sign :: s.beforeBrace⟩
  | _ => ⟨s.commas, sign :: s.kept⟩

/-- Takes tokens that are given by their texts. -/
def run (s : Sieve) (words : List String) : Sieve :=
  (words.map signOf).foldl step s

@[simp] theorem run_nil (s : Sieve) : s.run [] = s :=
  rfl

@[simp] theorem run_cons (s : Sieve) (word : String) (words : List String) :
    s.run (word :: words) = (s.step (signOf word)).run words :=
  rfl

@[simp] theorem run_append (s : Sieve) (a b : List String) : s.run (a ++ b) = (s.run a).run b := by
  simp [run]

@[simp] theorem step_openBrace (s : Sieve) : s.step (signOf "\x7b") = ⟨0 :: s.commas, signOf "\x7b" :: s.kept⟩ := by
  simp [step, signOf, kindOf_openBrace]

@[simp] theorem step_closeBrace (s : Sieve) :
    s.step (signOf "\x7d") = ⟨s.commas.tail, signOf "\x7d" :: s.beforeBrace⟩ := by
  simp [step, signOf, kindOf_closeBrace]

@[simp] theorem step_openParen (s : Sieve) : s.step (signOf "(") = ⟨0 :: s.commas, signOf "(" :: s.kept⟩ := by
  simp [step, signOf, kindOf_openParen]

@[simp] theorem step_closeParen (s : Sieve) : s.step (signOf ")") = ⟨s.commas.tail, signOf ")" :: s.kept⟩ := by
  simp [step, signOf, kindOf_closeParen]

@[simp] theorem step_comma (s : Sieve) :
    s.step (signOf ",") = ⟨s.commas.modifyHead (· + 1), signOf "," :: s.kept⟩ := by
  simp [step, signOf, kindOf_comma]

theorem step_startsElement (s : Sieve) {word : String} (h : Parser.startsElement (kindOf word) = true) :
    s.step (signOf word) = ⟨s.commas, signOf word :: s.kept⟩ := by
  unfold step signOf
  cases hKind : kindOf word <;> simp_all [Parser.startsElement, Parser.startsCall]

/-- Only commas are left out. -/
theorem filter_step {p : Sign → Bool} (hp : ∀ sign, p sign = true → sign.1 ≠ .comma) (s : Sieve) (sign : Sign) :
    (s.step sign).kept.filter p = (sign :: s.kept).filter p := by
  have hBrace : s.beforeBrace.filter p = s.kept.filter p := by
    unfold beforeBrace
    split
    · simp [*]
    · next last rest hKept =>
        split
        · next hLast =>
            have hp' : p last = false := Bool.eq_false_iff.2 fun h => hp last h hLast.1
            simp [hKept, hp']
        · rw [hKept]
  unfold step
  split <;> simp [List.filter_cons, hBrace]

end Sieve

/-- The tokens without the comma after the last of two or more elements in braces. -/
def withoutFinalCommas (signs : List Sign) : List Sign :=
  (signs.foldl Sieve.step ⟨[], []⟩).kept.reverse

theorem filter_withoutFinalCommas {p : Sign → Bool} (hp : ∀ sign, p sign = true → sign.1 ≠ .comma)
    (signs : List Sign) : (withoutFinalCommas signs).filter p = signs.filter p := by
  have hRun : ∀ s : Sieve, (signs.foldl Sieve.step s).kept.filter p = (signs.reverse ++ s.kept).filter p := by
    induction signs with
    | nil => simp
    | cons sign signs ih =>
      intro s
      rw [List.foldl_cons, ih, List.filter_append, s.filter_step hp, ← List.filter_append]
      simp
  rw [withoutFinalCommas, List.filter_reverse, hRun]
  simp

/-- The words make no difference to where the final commas are, and do not end in a comma. -/
def Enclosed (words : List String) : Prop :=
  ∀ s : Sieve, ∃ last more, last.1 ≠ .comma ∧ s.run words = ⟨s.commas, last :: more⟩

variable {α : Type} {f : α → List String} {entries : List (Entry α)}

theorem Sieve.run_entryWords (s : Sieve) (hItems : ∀ c, .comment c ∉ entries) (hEntries : entries ≠ [])
    (hEnclosed : ∀ x, .item x ∈ entries → Enclosed (f x)) :
    ∃ last more, last.1 ≠ .comma ∧ s.run (entryWords [","] [] f entries) =
      ⟨s.commas.modifyHead (· + (entries.length - 1)), last :: more⟩ := by
  induction entries generalizing s with
  | nil => exact absurd rfl hEntries
  | cons entry rest ih =>
    cases entry with
    | comment c => exact absurd List.mem_cons_self (hItems c)
    | item x =>
      obtain ⟨last, more, hLast, hRun⟩ := hEnclosed x List.mem_cons_self s
      cases rest with
      | nil => exact ⟨last, more, hLast, by cases hCommas : s.commas <;> simp [entryWords, hRun, hCommas]⟩
      | cons next rest =>
        obtain ⟨last', more', hLast', hRun'⟩ := ih ((s.run (f x)).step (signOf ","))
          (fun c hc => hItems c (List.mem_cons_of_mem _ hc)) (by simp)
          (fun x hx => hEnclosed x (List.mem_cons_of_mem _ hx))
        refine ⟨last', more', hLast', ?_⟩
        rw [entryWords, Sieve.run_append, Sieve.run_append]
        refine hRun'.trans ?_
        cases hCommas : s.commas with
        | nil => simp [hRun, hCommas]
        | cons count outer =>
          simp [hRun, hCommas]
          omega

/-- Brackets with arguments are enclosed, unless they are left out. -/
theorem enclosed_bracketWords (bare : Bool) (hItems : ∀ c, .comment c ∉ entries)
    (hEnclosed : ∀ x, .item x ∈ entries → Enclosed (f x)) :
    bracketWords f bare entries = [] ∨ Enclosed (bracketWords f bare entries) := by
  rcases eq_or_ne entries [] with rfl | hEntries
  · cases bare with
    | true => exact .inl rfl
    | false =>
      refine .inr fun s => ⟨signOf ")", signOf "(" :: s.kept, by simp [signOf, kindOf_closeParen], ?_⟩
      simp [bracketWords]
  · refine .inr fun s => ?_
    obtain ⟨last, more, -, hRun⟩ := (s.step (signOf "(")).run_entryWords hItems hEntries hEnclosed
    rw [Sieve.step_openParen] at hRun
    refine ⟨signOf ")", last :: more, by simp [signOf, kindOf_closeParen], ?_⟩
    simp [bracketWords, hEntries, entryWords_eq_append [","] [")"] f hItems hEntries, hRun]

theorem Element.Formed.enclosed {keepsBlank bare : Bool} {e : Element}
    (h : e.Formed (fun _ => False) keepsBlank) : Enclosed (e.words bare bare) := by
  induction e using Element.induction generalizing keepsBlank with
  | leaf word =>
    cases h with
    | leaf hWord =>
      intro s
      refine ⟨_, s.kept, ne_comma_of_startsElement hWord.2, ?_⟩
      rw [Element.words, Sieve.run_cons, s.step_startsElement hWord.2, Sieve.run_nil]
  | call traits name arguments ih =>
    cases h with
    | call hHolds hKeeps hName hNameSilent hSilent hItems hComments hBrackets =>
      intro s
      have hStarts : Parser.startsElement (kindOf name.text) = true := by
        simp [Parser.startsElement, hName.2]
      rw [Element.words_call, Sieve.run_append, Sieve.run_cons, s.step_startsElement hStarts, Sieve.run_nil]
      rcases enclosed_bracketWords bare (fun c hc => hComments c hc) fun e he =>
          ih e (ItemList.mem_items.2 he) (hItems e he) with hNone | hSome
      · exact ⟨_, s.kept, ne_comma_of_startsElement hStarts, by rw [hNone, Sieve.run_nil]⟩
      · exact hSome _

/-- The words are the same, apart from final commas. -/
def SameButFinalCommas (a b : List String) : Prop :=
  ∀ s : Sieve, s.run a = s.run b

theorem tolerates_finalCommas : Tolerates (fun _ => False) SameButFinalCommas where
  refl _ _ := rfl
  append hab hcd s := by rw [Sieve.run_append, Sieve.run_append, hab, hcd]
  trans hab hbc s := (hab s).trans (hbc s)
  finalComma := by
    intro bare entries hItems hLength hFormed s
    have hEntries : entries ≠ [] := by
      rintro rfl
      simp at hLength
    have hEnclosed : ∀ e, .item e ∈ entries → Enclosed (Element.words bare bare e) :=
      fun e he => (hFormed e he).enclosed
    obtain ⟨last, more, hLast, hRun⟩ := (s.step (signOf "\x7b")).run_entryWords hItems hEntries hEnclosed
    rw [Sieve.step_openBrace] at hRun
    -- There is no comma to leave out on the left, and there are as many as elements on the right.
    have hCount : entries.length - 1 + 1 = entries.length := by omega
    have hComma : (signOf ",").1 = .comma := kindOf_comma
    simp [entryWords_eq_append [","] [","] _ hItems hEntries, hRun, Sieve.beforeBrace, hLast, hComma, hCount, hLength]

end Policy

/-- A body with a list that fits on one line of a wide page only. -/
def listPolicy : String :=
  "body a b\x7bc => \x7b \"d\", f(\"g\n\", h) \x7d;\x7d"

end PolicyFormat
