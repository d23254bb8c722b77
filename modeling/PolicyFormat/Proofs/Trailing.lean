import PolicyFormat.Proofs.Scanned
import Mathlib.Order.Monotone.Basic

/-! Blanks at the ends of lines. A text with spaces and tabs put before its line breaks, and with lines
that hold nothing else put after its end, falls into the same tokens and comments as before, on the same
lines. Only the offsets grow. -/
namespace PolicyFormat.Policy

open Lexeme Layout

variable {rest cs piece : List Char} {kind : TokenKind}

/-! ### White space -/

namespace Scan

/-- White space is passed over. -/
theorem scanFrom_white (h : White cs) (rest : List Char) (line offset : Int) : scanFrom line offset 0 (cs ++ rest) =
      scanFrom (line + cs.count '\n') (offset + cs.length) 0 rest := by
  induction h generalizing line offset with
  | nil => simp
  | @blank c more hc h ih =>
    have hCount : (c :: more).count '\n' = more.count '\n' := by
      rcases hc with rfl | rfl <;> simp
    rw [List.cons_append, scanFrom_blank_cons (by rcases hc with rfl | rfl <;> rfl), ih, hCount]
    simp only [List.length_cons]
    congr 1
    omega
  | @lineFeed more h ih =>
    rw [List.cons_append, scanFrom_lineFeed_cons, ih]
    simp only [List.length_cons, List.count_cons_self]
    congr 1 <;> omega
  | @carriageReturn more h ih =>
    rw [List.cons_append, List.cons_append, scanFrom_carriageReturn_cons, ih]
    have hCount : ('\r' :: '\n' :: more).count '\n' = more.count '\n' + 1 := by simp
    rw [hCount]
    simp only [List.length_cons]
    congr 1 <;> omega

end Scan

/-! ### Ends of lines -/

theorem trimRight_append (front : List Char) {back : List Char} (h : ∀ c ∈ back, Text.isBlank c = true) :
    Text.trimRight (front ++ back) = Text.trimRight front := by
  rw [Text.trimRight, Text.trimRight, List.reverse_append, List.dropWhile_append_of_pos]
  simpa using h

/-- White space up to the end of a line: spaces and tabs, and the carriage return of a line break. -/
inductive Trails : List Char → List Char → Prop where
  | done {rest : List Char} (h : ∀ c ∈ rest.head?, c = '\n') : Trails [] rest
  | carriageReturn {rest : List Char} : Trails ['\r'] ('\n' :: rest)
  | blank {c : Char} {gap rest : List Char} (hc : c = ' ' ∨ c = '\t') (h : Trails gap rest) : Trails (c :: gap) rest

namespace Trails

variable {gap rest : List Char}

theorem of_isBlankRun (hGap : IsBlankRun gap) (hRest : ∀ c ∈ rest.head?, c = '\n') : Trails gap rest := by
  induction gap with
  | nil => exact .done hRest
  | cons c gap ih => exact .blank (hGap c (by simp)) (ih fun d hd => hGap d (by simp [hd]))

theorem head (h : Trails gap rest) : ∀ c ∈ rest.head?, c = '\n' := by
  induction h with
  | done h => exact h
  | carriageReturn => simp
  | blank _ _ ih => exact ih

theorem isBlank (h : Trails gap rest) : ∀ c ∈ gap, c ≠ '\n' ∧ Text.isBlank c = true := by
  induction h with
  | done => simp
  | carriageReturn => exact List.forall_mem_singleton.2 (by decide)
  | blank hc _ ih =>
    rw [List.forall_mem_cons]
    refine ⟨?_, ih⟩
    rcases hc with rfl | rfl <;> decide

theorem scanFrom (h : Trails gap rest) (line offset : Int) :
    Scan.scanFrom line offset 0 (gap ++ rest) = Scan.scanFrom line (offset + gap.length) 0 rest := by
  induction h generalizing offset with
  | done => simp
  | carriageReturn =>
    rw [List.singleton_append, scanFrom_carriageReturn_cons, scanFrom_lineFeed_cons, List.length_singleton]
    congr 1
    omega
  | blank hc _ ih =>
    rw [List.cons_append, scanFrom_blank_cons (by rcases hc with rfl | rfl <;> rfl), ih, List.length_cons]
    congr 1
    omega

end Trails

theorem White.head (h : White cs) : ∀ c ∈ cs.head?, ¬ IsSolid c := by
  cases h with
  | nil => simp
  | blank hc => rcases hc with rfl | rfl <;> simp [IsSolid]
  | lineFeed => simp [IsSolid]
  | carriageReturn => simp [IsSolid]

theorem White.trails (h : White cs) : ∃ gap rest, cs = gap ++ rest ∧ Trails gap rest := by
  induction h with
  | nil => exact ⟨[], [], rfl, .done (by simp)⟩
  | blank hc _ ih =>
    obtain ⟨gap, rest, rfl, hTrails⟩ := ih
    exact ⟨_ :: gap, rest, rfl, .blank hc hTrails⟩
  | lineFeed => exact ⟨[], _, rfl, .done (by simp)⟩
  | carriageReturn => exact ⟨['\r'], _, rfl, .carriageReturn⟩

/-! ### Tokens before other white space -/

namespace Lexeme

/-- Two texts are the same up to the start or end of white space in both. -/
inductive SameRun : List Char → List Char → Prop where
  | stop {a b : List Char} (ha : ∀ c ∈ a.head?, ¬ IsSolid c) (hb : ∀ c ∈ b.head?, ¬ IsSolid c) : SameRun a b
  | cons (c : Char) {a b : List Char} (h : SameRun a b) : SameRun (c :: a) (c :: b)

namespace SameRun

variable {a b : List Char}

theorem append (piece : List Char) (h : SameRun a b) : SameRun (piece ++ a) (piece ++ b) := by
  induction piece with
  | nil => exact h
  | cons c piece ih => exact .cons c ih

section

variable {p : Char → Bool} (hp : ∀ c, p c = true → IsSolid c)
include hp

theorem takeWhile_of_head (ha : ∀ c ∈ a.head?, ¬ IsSolid c) : a.takeWhile p = [] ∧ a.dropWhile p = a := by
  cases a with
  | nil => simp
  | cons c a =>
    have hc : p c = false := by
      simpa using fun h => ha c rfl (hp c h)
    simp [hc]

theorem takeWhile (h : SameRun a b) : a.takeWhile p = b.takeWhile p := by
  induction h with
  | stop ha hb => rw [(takeWhile_of_head hp ha).1, (takeWhile_of_head hp hb).1]
  | cons c _ ih => simp only [List.takeWhile_cons, ih]

theorem dropWhile (h : SameRun a b) : SameRun (a.dropWhile p) (b.dropWhile p) := by
  induction h with
  | stop ha hb =>
    rw [(takeWhile_of_head hp ha).2, (takeWhile_of_head hp hb).2]
    exact .stop ha hb
  | @cons c a b h ih =>
    simp only [List.dropWhile_cons]
    split
    · exact ih
    · exact .cons c h

end

theorem guard? (h : SameRun a b) : guard? a = guard? b := by
  rw [Lexeme.guard?, Lexeme.guard?, h.takeWhile fun _ => isSolid_of_isGuardChar]

theorem isSolid_of_isNameChar {c : Char} (h : isNameChar c = true) : IsSolid c :=
  isSolid_of_isGuardChar (isGuardChar_of_isNameChar h)

theorem ident? (h : SameRun a b) : ident? a = ident? b := by
  rw [Lexeme.ident?, Lexeme.ident?, h.takeWhile fun _ => isSolid_of_isNameChar]

/-- Neither text starts with the given solid character, or both do. -/
theorem head {d : Char} (hd : IsSolid d) (h : SameRun a b) :
    (∃ x y, a = d :: x ∧ b = d :: y ∧ SameRun x y) ∨ (∀ x, a ≠ d :: x) ∧ ∀ y, b ≠ d :: y := by
  cases h with
  | stop ha hb =>
    refine .inr ⟨?_, ?_⟩
    · rintro x rfl
      exact ha d rfl hd
    · rintro y rfl
      exact hb d rfl hd
  | @cons c a b h =>
    by_cases hc : c = d
    · subst hc
      exact .inl ⟨a, b, rfl, rfl, h⟩
    · exact .inr ⟨by simp [hc], by simp [hc]⟩

theorem symbol? (h : SameRun a b) : symbol? a = symbol? b := by
  have hName := fun (c : Char) => isSolid_of_isNameChar (c := c)
  simp only [Lexeme.symbol?, h.takeWhile hName]
  rcases (h.dropWhile hName).head (d := ':') (by decide) with ⟨x, y, hx, hy, hxy⟩ | ⟨hx, hy⟩
  · simp only [hx, hy, hxy.takeWhile hName]
  · split
    · next rest hRest => exact absurd hRest (hx rest)
    · rfl

theorem promiseType? (h : SameRun a b) : promiseType? a = promiseType? b := by
  have hHeading : ∀ c : Char, (c.isAlpha || c == '_') = true → IsSolid c :=
    fun c hc => isSolid_of_isNameChar (isNameChar_of_heading hc)
  simp only [Lexeme.promiseType?, h.takeWhile hHeading]
  rcases (h.dropWhile hHeading).head (d := ':') (by decide) with ⟨x, y, hx, hy, -⟩ | ⟨hx, hy⟩
  · simp only [hx, hy]
  · split
    · next rest hRest => exact absurd hRest (hx rest)
    · rfl

theorem nakedVar?_eq_none (h : ∀ c ∈ a.head?, ¬ IsSolid c) (sigil : Char) :
    Lexeme.nakedVar? a = none ∧ Lexeme.nakedVar? (sigil :: a) = none := by
  cases a with
  | nil => exact ⟨rfl, rfl⟩
  | cons c a =>
    have hc : ¬ IsSolid c := h c rfl
    refine ⟨nakedVar?_of_head fun hMem => hc ?_, ?_⟩
    · simp only [List.mem_cons, List.not_mem_nil, or_false] at hMem
      rcases hMem with rfl | rfl <;> decide
    · have hOpening : (c == '(' || c == '{') = false := by
        rw [Bool.or_eq_false_iff, beq_eq_false_iff_ne, beq_eq_false_iff_ne]
        constructor <;> rintro rfl <;> exact hc (by decide)
      simp [Lexeme.nakedVar?, hOpening]

theorem nakedVar? (h : SameRun a b) : nakedVar? a = nakedVar? b := by
  cases h with
  | stop ha hb => rw [(nakedVar?_eq_none ha ' ').1, (nakedVar?_eq_none hb ' ').1]
  | cons sigil h =>
    cases h with
    | stop ha hb => rw [(nakedVar?_eq_none ha sigil).2, (nakedVar?_eq_none hb sigil).2]
    | @cons opening a b h =>
      have hVariable := fun (c : Char) => isSolid_of_isVariableChar (c := c)
      have hClosing : IsSolid (if opening == '(' then ')' else '}') := by
        split <;> decide
      have hDrop := (h.dropWhile hVariable).head hClosing
      simp only [Lexeme.nakedVar?, h.takeWhile hVariable]
      generalize a.dropWhile isVariableChar = x, b.dropWhile isVariableChar = y at hDrop ⊢
      rcases hDrop with ⟨x, y, rfl, rfl, -⟩ | ⟨hx, hy⟩
      · rfl
      · cases x <;> cases y <;> simp_all

theorem punctuation? (h : SameRun a b) : punctuation? a = punctuation? b := by
  have hNone : ∀ {cs : List Char}, (∀ c ∈ cs.head?, ¬ IsSolid c) → Lexeme.punctuation? cs = none := by
    intro cs h
    unfold Lexeme.punctuation?
    split <;> first | rfl | exact absurd (by decide) (h _ rfl)
  cases h with
  | stop ha hb => rw [hNone ha, hNone hb]
  | cons c h =>
    rcases h.head (d := '>') (by decide) with ⟨x, y, rfl, rfl, -⟩ | ⟨hx, hy⟩
    · unfold Lexeme.punctuation?
      split <;> simp_all
    · unfold Lexeme.punctuation?
      split <;> simp_all

end SameRun

theorem Spelling.quoted?_eq_none (h : Spelling kind piece) (hKind : kind ≠ .quoted) (rest : List Char) :
    quoted? (piece ++ rest) = none := by
  have hChars : ∀ {name more : List Char}, name ≠ [] → (∀ c ∈ name, isGuardChar c = true) →
      quoted? (name ++ more) = none := by
    intro name more hName hChars
    obtain ⟨c, name, rfl⟩ := List.exists_cons_of_ne_nil hName
    exact quoted?_of_isGuardChar (hChars c (by simp))
  have hNames : ∀ {name : List Char}, (∀ c ∈ name, isNameChar c = true) → ∀ c ∈ name, isGuardChar c = true :=
    fun h c hc => isGuardChar_of_isNameChar (h c hc)
  have hNonempty := h.ne_nil
  cases h with
  | quoted hText => exact absurd rfl hKind
  | guard hGuard hText => exact hChars hNonempty hGuard
  | symbol hFirst hSecond hFirstChars hSecondChars =>
    rw [List.append_assoc]
    exact hChars hFirst (hNames hFirstChars)
  | promiseType hName hHeading =>
    rw [List.append_assoc]
    exact hChars hName (hNames fun c hc => isNameChar_of_heading (hHeading c hc))
  | name hName hName' => exact hChars hName (hNames hName')
  | nakedVar hText =>
    obtain ⟨c, hc, more, rfl⟩ := nakedVar?_head hText
    simp only [List.mem_cons, List.not_mem_nil, or_false] at hc
    rcases hc with rfl | rfl <;> rfl
  | punctuation hText =>
    rcases punctuation?_cases hText with h | h | h | h | h | h | h | h <;>
      · obtain ⟨-, rfl⟩ := h
        rfl

/-- A token is found again before other white space. -/
theorem SameRun.front? {a b : List Char} (h : SameRun a b)
    (hFront : front? (piece ++ a) = some (.token kind, piece)) :
    Lexeme.front? (piece ++ b) = some (.token kind, piece) := by
  obtain ⟨hPiece, -⟩ := spelling_of_front? hFront
  by_cases hKind : kind = .quoted
  · subst hKind
    exact hPiece.front?_append trivial
  · obtain ⟨c, more, rfl⟩ := List.exists_cons_of_ne_nil hPiece.ne_nil
    have hSolid : IsSolid c := hPiece.solid hKind c (by simp)
    have hHash : c ≠ '#' := by
      rintro rfl
      rw [List.cons_append, front?_comment] at hFront
      cases hFront
    have hSpace : ∀ cs, space? (c :: more ++ cs) = none := by
      intro cs
      unfold space?
      split
      · next rest heq =>
          obtain ⟨rfl, -⟩ := List.cons.inj heq
          exact absurd hSolid (by decide)
      · next rest heq =>
          obtain ⟨rfl, -⟩ := List.cons.inj heq
          exact absurd hSolid (by decide)
      · simp [hSolid.1, hSolid.2.1]
    have hComment : ∀ cs, comment? (c :: more ++ cs) = none := by
      intro cs
      unfold comment?
      split <;> simp_all
    have hSame := h.append (c :: more)
    rw [← hFront]
    simp only [Lexeme.front?, hPiece.quoted?_eq_none hKind, hSame.guard?, hSame.symbol?, hSame.promiseType?,
      hSame.ident?, hSame.nakedVar?, hSame.punctuation?, hSpace, hComment]

end Lexeme

/-! ### Texts with trailing blanks -/

/-- A line break starts at a place of a text: a carriage return with a line feed after it, or a line feed
without a carriage return before it. -/
def BreaksAt (text : List Char) (place : Nat) : Prop :=
  ['\r', '\n'] <+: text.drop place ∨ ['\n'] <+: text.drop place ∧ (text.take place).getLast? ≠ some '\r'

instance (text : List Char) (place : Nat) : Decidable (BreaksAt text place) :=
  inferInstanceAs (Decidable (_ ∨ _))

/-- Spaces and tabs to be put before line breaks or at the end of a text, not inside its strings, and white
space to be put after it. -/
structure Trailing (text : String) where
  before : Nat → List Char
  blank : ∀ place, IsBlankRun (before place)
  atBreak : ∀ place, before place ≠ [] → place = text.length ∨ BreaksAt text.toList place
  outside : ∀ place, before place ≠ [] → ∀ t ∈ (Scan.ofText text).tokens, t.kind = .quoted →
    ¬ (t.offset < place ∧ place < t.stop)
  more : List Char
  white : White more

namespace Trailing

variable {text : String} (t : Trailing text)

/-- The characters from a place on with the blanks before them. -/
def along (place : Nat) : List Char → List Char
  | [] => []
  | c :: rest => t.before place ++ c :: along (place + 1) rest

/-- What follows the last character. -/
def finish : List Char :=
  t.before text.length ++ t.more

/-- The text with the blanks. -/
def apply : String :=
  String.ofList (t.along 0 text.toList ++ t.finish)

/-- How many characters stand before a place once the blanks are put in. -/
def moved : Nat → Nat
  | 0 => 0
  | place + 1 => moved place + (t.before place).length + 1

theorem white_finish : White t.finish :=
  .of_isBlankRun (t.blank _) t.white

theorem along_append (place : Nat) (a b : List Char) :
    t.along place (a ++ b) = t.along place a ++ t.along (place + a.length) b := by
  induction a generalizing place with
  | nil => rfl
  | cons c a ih =>
    have hNext : place + (c :: a).length = place + 1 + a.length := by
      simp only [List.length_cons]
      omega
    simp only [List.cons_append, along, ih, List.append_assoc, hNext]

theorem moved_add (place : Nat) (cs : List Char) :
    t.moved (place + cs.length) = t.moved place + (t.along place cs).length := by
  induction cs generalizing place with
  | nil => rfl
  | cons c cs ih =>
    have hNext : place + (c :: cs).length = place + 1 + cs.length := by
      simp only [List.length_cons]
      omega
    rw [hNext, ih, moved, along, List.length_append, List.length_cons]
    omega

theorem le_moved (place n : Nat) : t.moved place + n ≤ t.moved (place + n) := by
  induction n with
  | zero => exact Nat.le_refl _
  | succ n ih =>
    rw [← Nat.add_assoc place n 1, moved]
    omega

/-- Where a stretch of text stays together, so does the front of it. -/
theorem moved_of_le {place n k : Nat} (h : t.moved (place + n) = t.moved place + n) (hk : k ≤ n) :
    t.moved (place + k) = t.moved place + k := by
  have hFront := t.le_moved place k
  have hBack := t.le_moved (place + k) (n - k)
  rw [Nat.add_assoc, Nat.add_sub_cancel' hk, h] at hBack
  omega

theorem count_before (place : Nat) : (t.before place).count '\n' = 0 := by
  rw [List.count_eq_zero]
  intro hMem
  rcases t.blank place _ hMem with h | h <;> exact absurd h (by decide)

theorem count_along (place : Nat) (cs : List Char) : (t.along place cs).count '\n' = cs.count '\n' := by
  induction cs generalizing place with
  | nil => rfl
  | cons c cs ih => simp [along, List.count_cons, t.count_before, ih]

theorem along_eq_self {place : Nat} (h : ∀ i < cs.length, t.before (place + i) = []) : t.along place cs = cs := by
  induction cs generalizing place with
  | nil => rfl
  | cons c cs ih =>
    have hHere : t.before place = [] := h 0 (by simp)
    rw [along, hHere, List.nil_append, ih]
    intro i hi
    have := h (i + 1) (by simpa using hi)
    rwa [Nat.add_assoc, Nat.add_comm 1 i]

/-! ### Places without blanks -/

section

variable {place : Nat}

theorem before_eq_nil {c : Char} (hText : text.toList.drop place = c :: rest) (hc : c ≠ '\n')
    (hReturn : c = '\r' → rest.head? ≠ some '\n') : t.before place = [] := by
  by_contra hBefore
  rcases t.atBreak place hBefore with rfl | hBreak
  · rw [← String.length_toList, List.drop_length] at hText
    cases hText
  · rw [BreaksAt, hText] at hBreak
    rcases hBreak with h | ⟨h, -⟩
    · obtain ⟨more, hMore⟩ := h
      obtain ⟨rfl, rfl⟩ := List.cons.inj hMore
      exact hReturn rfl rfl
    · obtain ⟨more, hMore⟩ := h
      exact hc (List.cons.inj hMore).1.symm

theorem before_of_solid {c : Char} (hText : text.toList.drop place = c :: rest) (hc : IsSolid c) :
    t.before place = [] :=
  t.before_eq_nil hText hc.2.2.1 fun h => absurd h hc.2.2.2

theorem drop_next {c : Char} (hText : text.toList.drop place = c :: rest) : text.toList.drop (place + 1) = rest := by
  rw [← List.drop_drop, hText]
  rfl

theorem drop_after (hText : text.toList.drop place = piece ++ rest) :
    text.toList.drop (place + piece.length) = rest := by
  rw [← List.drop_drop, hText, List.drop_left]

/-- Nothing is put between a carriage return and its line feed. -/
theorem before_lineFeed (hText : text.toList.drop place = '\r' :: '\n' :: rest) : t.before (place + 1) = [] := by
  by_contra hBefore
  have hNext := drop_next hText
  rcases t.atBreak _ hBefore with hEnd | hBreak
  · rw [hEnd, ← String.length_toList, List.drop_length] at hNext
    cases hNext
  · rw [BreaksAt, hNext] at hBreak
    rcases hBreak with h | ⟨-, h⟩
    · obtain ⟨more, hMore⟩ := h
      simp at hMore
    · refine h ?_
      rw [List.take_add, hText]
      simp

theorem white_along (h : White cs) (hText : text.toList.drop place = cs ++ rest) : White (t.along place cs) := by
  induction h generalizing place with
  | nil => exact .nil
  | blank hc h ih => exact .of_isBlankRun (t.blank _) (.blank hc (ih (drop_next hText)))
  | lineFeed h ih => exact .of_isBlankRun (t.blank _) (.lineFeed (ih (drop_next hText)))
  | carriageReturn h ih =>
    rw [along, along, t.before_lineFeed hText]
    exact .of_isBlankRun (t.blank _) (.carriageReturn (ih (drop_next (drop_next hText))))

/-- Only at the end of its line does a comment get blanks, and these are trimmed off. -/
theorem along_comment (hcs : '\n' ∉ cs) (hText : text.toList.drop place = cs ++ rest) :
    ∃ front back more, cs = front ++ back ∧ t.along place front = front ∧ t.along place cs = front ++ more ∧
      (∀ c ∈ back, Text.isBlank c = true) ∧ ∀ c ∈ more, Text.isBlank c = true := by
  induction cs generalizing place with
  | nil => exact ⟨[], [], [], rfl, rfl, rfl, by simp, by simp⟩
  | cons c cs ih =>
    have hc : c ≠ '\n' := fun h => hcs (by simp [h])
    by_cases hReturn : c = '\r' ∧ (cs ++ rest).head? = some '\n'
    · obtain ⟨rfl, hHead⟩ := hReturn
      obtain rfl : cs = [] := by
        cases cs with
        | nil => rfl
        | cons d cs =>
          obtain rfl : d = '\n' := by simpa using hHead
          exact absurd (by simp) hcs
      refine ⟨[], ['\r'], t.before place ++ ['\r'], rfl, rfl, rfl, List.forall_mem_singleton.2 rfl, ?_⟩
      intro d hd
      rcases List.mem_append.1 hd with hd | hd
      · rcases t.blank place d hd with rfl | rfl <;> decide
      · rw [List.mem_singleton.1 hd]
        decide
    · have hBefore := t.before_eq_nil hText hc fun h hHead => hReturn ⟨h, hHead⟩
      obtain ⟨front, back, more, rfl, hFront, hAlong, hBlank⟩ :=
        ih (fun h => hcs (List.mem_cons_of_mem c h)) (drop_next hText)
      refine ⟨c :: front, back, more, rfl, ?_, ?_, hBlank⟩
      · rw [along, hBefore, hFront, List.nil_append]
      · rw [along, hBefore, hAlong]
        rfl

theorem sameRun_along (hText : text.toList.drop place = cs) : SameRun cs (t.along place cs ++ t.finish) := by
  induction cs generalizing place with
  | nil => exact .stop (by simp) t.white_finish.head
  | cons c cs ih =>
    by_cases hc : IsSolid c
    · rw [along, t.before_of_solid hText hc]
      exact .cons c (ih (drop_next hText))
    · refine .stop (by simpa using hc) ?_
      rw [along, List.append_assoc]
      cases hBefore : t.before place with
      | nil => simpa using hc
      | cons d ds =>
        have hd : d = ' ' ∨ d = '\t' := t.blank place d (by simp [hBefore])
        rcases hd with rfl | rfl <;> simp [IsSolid]

/-- Nothing is put into a token. -/
theorem along_token {line : Int} (hPiece : Spelling kind piece) (hText : text.toList.drop place = piece ++ rest)
    (hMem : ⟨kind, String.ofList piece, line, place⟩ ∈ (Scan.ofText text).tokens) :
    t.along place piece = piece := by
  refine t.along_eq_self fun i hi => ?_
  have hHere : text.toList.drop (place + i) = piece[i] :: (piece.drop (i + 1) ++ rest) := by
    rw [← List.drop_drop, hText, List.drop_append_of_le_length (Nat.le_of_lt hi), List.drop_eq_getElem_cons hi]
    rfl
  by_cases hKind : kind = .quoted
  · rcases Nat.eq_zero_or_pos i with rfl | hPos
    · exact t.before_of_solid hHere (hPiece.head_solid _ (List.head?_eq_getElem? ▸ List.getElem?_eq_getElem hi))
    · by_contra hBefore
      refine t.outside _ hBefore _ hMem hKind ⟨?_, ?_⟩
      · simp only
        omega
      · simp only [Token.stop, String.length_ofList]
        omega
  · exact t.before_of_solid hHere (hPiece.solid hKind _ (List.getElem_mem hi))

/-- What follows a comment ends the line. -/
theorem trails_along (hText : text.toList.drop place = rest) (hRest : ∀ c ∈ rest.head?, c = '\n') :
    ∃ gap after, t.along place rest ++ t.finish = gap ++ after ∧ Trails gap after := by
  cases rest with
  | nil => exact t.white_finish.trails
  | cons c rest =>
    obtain rfl := hRest c rfl
    refine ⟨t.before place, '\n' :: (t.along (place + 1) rest ++ t.finish), ?_, ?_⟩
    · rw [along, List.append_assoc]
      rfl
    · exact .of_isBlankRun (t.blank place) (by simp)

/-- A comment is found again, with the blanks up to the end of its line trimmed off. -/
theorem scanFrom_along_comment {more : List Char} (hMore : '\n' ∉ more) (hRest : ∀ c ∈ rest.head?, c = '\n')
    (hText : text.toList.drop place = '#' :: more ++ rest) (line : Int) :
    Scan.scanFrom line (t.moved place) 0 (t.along place ('#' :: more ++ rest) ++ t.finish) =
      let next := place + ('#' :: more).length
      let after := Scan.scanFrom line (t.moved next) 0 (t.along next rest ++ t.finish)
      { after with
        comments := ⟨String.ofList (Text.trimRight ('#' :: more)), line, t.moved place⟩ :: after.comments } := by
  obtain ⟨gap, tail, hGap, hTrails⟩ := t.trails_along (drop_after hText) hRest
  obtain ⟨front, back, blanks, hFront, -, hAlong, hBack, hBlanks⟩ :=
    t.along_comment (by simpa using hMore : '\n' ∉ '#' :: more) hText
  have hCons : t.along place ('#' :: more) = '#' :: t.along (place + 1) more := by
    rw [along, t.before_of_solid (c := '#') hText (by decide), List.nil_append]
  have hLine : '\n' ∉ t.along (place + 1) more ++ gap := by
    rw [← List.count_eq_zero, List.count_append, t.count_along, List.count_eq_zero.2 hMore, Nat.zero_add,
      List.count_eq_zero]
    exact fun h => (hTrails.isBlank _ h).1 rfl
  have hTrim : Text.trimRight ('#' :: (t.along (place + 1) more ++ gap)) = Text.trimRight ('#' :: more) := by
    rw [← List.cons_append, ← hCons, hAlong, hFront, List.append_assoc, trimRight_append front hBack,
      trimRight_append]
    exact List.forall_mem_append.2 ⟨hBlanks, fun c hc => (hTrails.isBlank c hc).2⟩
  have hSplit : t.along place ('#' :: more ++ rest) ++ t.finish =
      '#' :: (t.along (place + 1) more ++ gap) ++ tail := by
    rw [along_append, List.append_assoc, hGap, hCons]
    simp
  have hOffset : (t.moved place : Int) + (('#' :: (t.along (place + 1) more ++ gap)).length : Nat) =
      (t.moved (place + ('#' :: more).length) : Nat) + gap.length := by
    rw [t.moved_add, hCons]
    simp only [List.length_append, List.length_cons]
    omega
  rw [hSplit, scanFrom_comment hLine hTrails.head, hTrim, hOffset]
  simp only [hGap, hTrails.scanFrom]

end

/-! ### The scan of a text with trailing blanks -/

/-- The offset of what stood at a place. -/
def offset (o : Int) : Int :=
  if o < 0 then o else t.moved o.toNat

@[simp] theorem offset_natCast (place : Nat) : t.offset place = t.moved place := by
  simp [offset]

/-- A token with its new offset. -/
def token (x : Token) : Token :=
  { x with offset := t.offset x.offset }

/-- A comment with its new offset. -/
def comment (c : CommentToken) : CommentToken :=
  { c with offset := t.offset c.offset }

/-- The second scan finds what the first finds, at the new offsets, and ends some lines later. -/
structure Moves (a b : Scan) : Prop where
  tokens : b.tokens = a.tokens.map t.token
  comments : b.comments = a.comments.map t.comment
  tokenStops : ∀ x ∈ a.tokens, (t.token x).stop = t.offset x.stop
  commentStops : ∀ c ∈ a.comments, (t.comment c).stop = t.offset c.stop
  ending : ∃ offset, b.ending = .complete (a.lastLine + t.more.count '\n') offset

theorem offset_add {place n : Nat} (h : t.moved (place + n) = t.moved place + n) :
    t.offset place + n = t.offset (place + n) := by
  have hCast : ((place : Int) + n) = ((place + n : Nat) : Int) := by omega
  rw [hCast, offset_natCast, offset_natCast, h]
  omega

theorem stop_token (hSelf : t.along place piece = piece) (line : Int) :
    (t.token ⟨kind, String.ofList piece, line, place⟩).stop =
      t.offset (Token.stop ⟨kind, String.ofList piece, line, place⟩) := by
  simp only [Token.stop, token, String.length_ofList]
  exact t.offset_add (by rw [moved_add, hSelf])

theorem stop_comment {more : List Char} (hMore : '\n' ∉ more)
    (hText : text.toList.drop place = '#' :: more ++ rest) (line : Int) :
    (t.comment ⟨String.ofList (Text.trimRight ('#' :: more)), line, place⟩).stop =
      t.offset (CommentToken.stop ⟨String.ofList (Text.trimRight ('#' :: more)), line, place⟩) := by
  obtain ⟨front, back, blanks, hFront, hSelf, -, hBack, -⟩ :=
    t.along_comment (by simpa using hMore : '\n' ∉ '#' :: more) hText
  simp only [CommentToken.stop, comment, String.length_ofList]
  refine t.offset_add (t.moved_of_le (n := front.length) (by rw [moved_add, hSelf]) ?_)
  rw [hFront, trimRight_append front hBack, Text.trimRight, List.length_reverse]
  exact (List.length_dropWhile_le _ _).trans (by simp)

theorem scanFrom_along {line offset : Int} {scan : Scan} (hScan : Scanned line offset cs scan) (place : Nat)
    (hPlace : offset = place) (hText : text.toList.drop place = cs)
    (hTokens : ∀ x ∈ scan.tokens, x ∈ (Scan.ofText text).tokens)
    (hEnding : ∃ last offset, scan.ending = .complete last offset) :
    t.Moves scan (Scan.scanFrom line (t.moved place) 0 (t.along place cs ++ t.finish)) := by
  induction hScan generalizing place with
  | @done line offset =>
    have hEnd := Scan.scanFrom_white t.white_finish [] line (t.moved place)
    rw [List.append_nil] at hEnd
    rw [along, List.nil_append, hEnd, finish, List.count_append, t.count_before, Nat.zero_add]
    exact ⟨rfl, rfl, by simp, by simp, _, rfl⟩
  | stuck =>
    obtain ⟨last, offset, h⟩ := hEnding
    cases h
  | @space line offset piece rest after hPiece hAfter ih =>
    subst hPlace
    have hNext := ih (place + piece.length) (by simp) (drop_after hText) hTokens hEnding
    rw [t.moved_add] at hNext
    push_cast at hNext
    rwa [along_append, List.append_assoc, Scan.scanFrom_white (t.white_along hPiece hText), t.count_along]
  | @comment line offset more rest after hMore hRest hAfter ih =>
    subst hPlace
    obtain ⟨hTokens', hComments, hTokenStops, hCommentStops, hEnd⟩ :=
      ih (place + ('#' :: more).length) (by simp) (drop_after hText) hTokens hEnding
    rw [t.scanFrom_along_comment hMore hRest hText]
    refine ⟨hTokens', ?_, hTokenStops, ?_, hEnd⟩
    · simp only [hComments, comment, List.map_cons, offset_natCast]
    · exact List.forall_mem_cons.2 ⟨t.stop_comment hMore hText line, hCommentStops⟩
  | @token line offset kind piece rest after hFront hAfter ih =>
    subst hPlace
    have hPiece := (spelling_of_front? hFront).1
    have hAfterText := drop_after hText
    have hSelf := t.along_token hPiece hText (hTokens _ List.mem_cons_self)
    have hNext := ih (place + piece.length) (by simp) hAfterText (fun x hx => hTokens x (by simp [hx])) hEnding
    rw [t.moved_add, hSelf] at hNext
    push_cast at hNext
    obtain ⟨hTokens', hComments, hTokenStops, hCommentStops, hEnd⟩ := hNext
    rw [along_append, hSelf, List.append_assoc, scanFrom_token _ _ ((t.sameRun_along hAfterText).front? hFront)]
    refine ⟨?_, hComments, ?_, hCommentStops, hEnd⟩
    · simp only [hTokens', token, List.map_cons, offset_natCast]
    · exact List.forall_mem_cons.2 ⟨t.stop_token hSelf line, hTokenStops⟩

/-- The tokens and comments of a text with trailing blanks. -/
theorem moves_ofText {last offset : Int} (h : (Scan.ofText text).ending = .complete last offset) :
    t.Moves (Scan.ofText text) (Scan.ofText t.apply) := by
  have hMoves := t.scanFrom_along scanned_ofText 0 rfl rfl (fun _ hx => hx) ⟨last, offset, h⟩
  rwa [← String.toList_ofList (l := t.along 0 text.toList ++ t.finish)] at hMoves

theorem moved_strictMono : StrictMono t.moved :=
  strictMono_nat_of_lt_succ fun place => by
    rw [moved]
    omega

theorem offset_lt_offset {a b : Int} (hab : a < b) : t.offset a < t.offset b := by
  rw [offset, offset]
  split
  · split
    · exact hab
    · omega
  · rw [if_neg (by omega)]
    exact_mod_cast t.moved_strictMono (by omega)

end Trailing

end PolicyFormat.Policy
