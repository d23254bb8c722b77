import PolicyFormat.Proofs.ListLayout
import PolicyFormat.Proofs.Sentence

/-! The code of an ink: its words and line breaks. Comments are legal where a word may stand, and
leave only line breaks in the code. Lists are legal if their elements are. -/
namespace PolicyFormat.Layout

open Policy Policy.Lexeme Abstract

variable {pen : Pen}

/-! ### The code of an ink -/

/-- The word or line break that a mark is. -/
def Mark.sign? : Mark → Option (Option String)
  | .word text => some (some text)
  | .newline => some none
  | _ => none

/-- The words and line breaks of an ink. -/
def Ink.code (ink : Ink) : Code :=
  ink.filterMap Mark.sign?

@[simp] theorem Ink.code_append (a b : Ink) : Ink.code (a ++ b) = a.code ++ b.code := by
  simp [Ink.code]

theorem Ink.tokens_eq_code (line : Int) (ink : Ink) : ink.tokens line = ink.code.tokens line := by
  induction ink generalizing line with
  | nil => rfl
  | cons mark ink ih =>
    cases mark <;> simp [Ink.tokens, Ink.code, Mark.word?, Mark.height, Mark.sign?, Code.tokens, ih,
      List.filterMap_cons]

/-- From the first pen the ink is legal and leaves the second. It has the given code. -/
structure Ink.Legal (start : Pen) (ink : Ink) (stop : Pen) (code : Code) : Prop where
  run : Ink.run start ink = some stop
  valid : ∀ m ∈ ink, m.Valid
  code_eq : ink.code = code

namespace Ink.Legal

variable {start middle stop : Pen} {a b : Ink} {c d : Code}

theorem nil (pen : Pen) : Legal pen [] pen [] :=
  ⟨rfl, by simp, rfl⟩

theorem append (ha : Legal start a middle c) (hb : Legal middle b stop d) : Legal start (a ++ b) stop (c ++ d) := by
  refine ⟨?_, ?_, by rw [Ink.code_append, ha.code_eq, hb.code_eq]⟩
  · rw [Ink.run_append, ha.run, Option.bind_some, hb.run]
  · intro m hm
    rcases List.mem_append.1 hm with h | h
    · exact ha.valid m h
    · exact hb.valid m h

theorem newline (pen : Pen) : Legal pen [.newline] .free (Code.breaks 1) := by
  refine ⟨?_, by simp [Mark.Valid], rfl⟩
  cases pen <;> rfl

theorem newlines (pen : Pen) (count : Nat) :
    Legal pen (List.replicate (count + 1) .newline) .free (Code.breaks (count + 1)) := by
  induction count generalizing pen with
  | zero => exact newline pen
  | succ count ih => exact (newline pen).append (ih .free)

theorem space {pen : Pen} (hPen : pen ≠ .note) : Legal pen [.space] .free [] := by
  refine ⟨?_, by simp [Mark.Valid], rfl⟩
  cases pen <;> first | rfl | exact absurd rfl hPen

theorem gap (hPen : pen ≠ .note) {mark : Mark} (hMark : mark = .space ∨ mark = .newline) :
    ∃ count, Legal pen [mark] .free (Code.breaks count) := by
  rcases hMark with rfl | rfl
  · exact ⟨0, space hPen⟩
  · exact ⟨1, newline pen⟩

variable {text : String}

theorem word {pen : Pen} (hPen : pen ≠ .note) (hToken : IsToken text)
    (hWrite : pen.write (kindOf text) = some stop) : Legal pen [.word text] stop [some text] := by
  refine ⟨?_, by simpa [Mark.Valid] using hToken, rfl⟩
  cases pen <;> first | simpa [Pen.step] using hWrite | exact absurd rfl hPen

theorem fixed (kind : TokenKind) (hText : front? text.toList = some (.token kind, text.toList))
    (hPen : pen ≠ .note) (hWrite : pen.write kind = some stop) : Legal pen [.word text] stop [some text] := by
  have hSpelling := (spelling_of_front? hText).1
  exact word hPen hSpelling.isToken (by rwa [hSpelling.kindOf_eq])

theorem comma : Legal .word [.word ","] .word [some ","] :=
  fixed .comma (by decide) (by decide) rfl

theorem openParen : Legal .word [.word "("] .bracket [some "("] :=
  fixed .openParen (by decide) (by decide) rfl

theorem closeParen (hPen : pen = .word ∨ pen = .bracket) : Legal pen [.word ")"] .word [some ")"] := by
  rcases hPen with rfl | rfl <;> exact fixed .closeParen (by decide) (by decide) rfl

theorem openBrace : Legal .free [.word "\x7b"] .word [some "\x7b"] :=
  fixed .openBrace (by decide) (by decide) rfl

theorem closeBrace (hPen : pen = .word ∨ pen = .free) : Legal pen [.word "\x7d"] .word [some "\x7d"] := by
  rcases hPen with rfl | rfl <;> exact fixed .closeBrace (by decide) (by decide) rfl

theorem semicolon (hPen : pen = .word ∨ pen = .free) : Legal pen [.word ";"] .word [some ";"] := by
  rcases hPen with rfl | rfl <;> exact fixed .semicolon (by decide) (by decide) rfl

theorem assign : Legal .free [.word "=>"] .word [some "=>"] :=
  fixed .assign (by decide) (by decide) rfl

theorem arrow : Legal .free [.word "->"] .word [some "->"] :=
  fixed .arrow (by decide) (by decide) rfl

theorem bundle : Legal .free [.word "bundle"] .word [some "bundle"] :=
  fixed .bundle (by decide) (by decide) rfl

theorem body : Legal .free [.word "body"] .word [some "body"] :=
  fixed .body (by decide) (by decide) rfl

theorem note (hPen : pen ≠ .note) (hText : IsNote text) : Legal pen [.note text] .note [] := by
  refine ⟨?_, by simpa [Mark.Valid] using hText, rfl⟩
  cases pen <;> first | rfl | exact absurd rfl hPen

theorem tail (pen : Pen) (spaced : Bool) (hText : IsNote text) : Legal pen [.tail spaced text] pen [] := by
  refine ⟨?_, by simpa [Mark.Valid] using hText, rfl⟩
  cases pen <;> rfl

end Ink.Legal

/-! ### Comments -/

variable {c : Comment} {S : Pen → Prop}

theorem legal_aboveInk (h : c.Legible) (hPen : pen ≠ .note) :
    Ink.Legal pen c.aboveInk .free (Code.breaks c.lines.length) := by
  obtain ⟨hNonempty, hLines⟩ := h
  unfold Comment.aboveInk
  generalize c.lines = lines at hNonempty hLines
  induction lines generalizing pen with
  | nil => exact absurd rfl hNonempty
  | cons line lines ih =>
    have hLine := (Ink.Legal.note hPen (isNote_normalNote (hLines line (by simp)))).append (Ink.Legal.newline .note)
    rw [List.nil_append] at hLine
    rw [List.flatMap_cons, List.length_cons, Nat.add_comm, Code.breaks_add]
    rcases lines with - | ⟨next, lines⟩
    · exact hLine.append (Ink.Legal.nil .free)
    · exact hLine.append (ih (by decide) (by simp) fun l hl => hLines l (by simp [hl]))

theorem legal_ownInk (h : c.Legible) (hPen : pen ≠ .note) :
    ∃ count, Ink.Legal pen c.ownInk .note (Code.breaks count) := by
  obtain ⟨hNonempty, hLines⟩ := h
  unfold Comment.ownInk
  generalize c.lines = lines at hNonempty hLines
  induction lines generalizing pen with
  | nil => exact absurd rfl hNonempty
  | cons line lines ih =>
    have hLine := Ink.Legal.note hPen (isNote_normalNote (hLines line (by simp)))
    rcases lines with - | ⟨next, lines⟩
    · exact ⟨0, hLine⟩
    · obtain ⟨count, hRest⟩ :=
        ih (by decide : Pen.free ≠ .note) (by simp) fun l hl => hLines l (by simp [hl])
      refine ⟨1 + count, ?_⟩
      rw [Code.breaks_add]
      exact hLine.append ((Ink.Legal.newline .note).append hRest)

theorem legal_tailInk (h : c.Legible) (pen : Pen) : Ink.Legal pen c.tailInk pen [] := by
  obtain ⟨-, hLines⟩ := h
  unfold Comment.tailInk
  generalize c.lines = lines at hLines
  cases lines with
  | nil => exact Ink.Legal.nil pen
  | cons line lines =>
    have hRest : Ink.Legal pen (lines.map fun line => Mark.tail false (normalNote line)) pen [] := by
      have hRest : ∀ l ∈ lines, IsNote l := fun l hl => hLines l (by simp [hl])
      clear hLines
      induction lines with
      | nil => exact Ink.Legal.nil pen
      | cons line lines ih =>
        exact (Ink.Legal.tail pen false (isNote_normalNote (hRest line (by simp)))).append
          (ih fun l hl => hRest l (by simp [hl]))
    exact (Ink.Legal.tail pen true (isNote_normalNote (hLines line (by simp)))).append hRest

theorem legal_blankInk (kept : Bool) (S : Pen → Prop) (hFree : S .free) (hPen : S pen) :
    ∃ next, S next ∧ Ink.Legal pen (blankInk kept) next (Code.breaks kept.toNat) := by
  cases kept with
  | false => exact ⟨pen, hPen, Ink.Legal.nil pen⟩
  | true => exact ⟨.free, hFree, Ink.Legal.newline pen⟩

theorem legal_noted (h : c.Legible) (keeps : Option Bool) (hPen : pen ≠ .note) :
    ∃ count, Ink.Legal pen (c.noted keeps) .note (Code.breaks count) := by
  obtain ⟨next, hNext, hBlank⟩ :=
    legal_blankInk (c.afterBlank && keeps.getD c.keepsBlank) (· ≠ .note) (by decide) hPen
  obtain ⟨count, hOwn⟩ := legal_ownInk h hNext
  refine ⟨(c.afterBlank && keeps.getD c.keepsBlank).toNat + count, ?_⟩
  rw [Code.breaks_add]
  exact hBlank.append hOwn

theorem legal_leading {comments : List Comment} (h : ∀ c ∈ comments, c.Legible) (hNote : ¬ S .note)
    (hFree : S .free) (hPen : S pen) :
    ∃ next, S next ∧ Ink.Legal pen (comments.flatMap Comment.aboveInk) next
      (Code.breaks (comments.map (·.lines.length)).sum) := by
  induction comments generalizing pen with
  | nil => exact ⟨pen, hPen, Ink.Legal.nil pen⟩
  | cons c comments ih =>
    have hFirst := legal_aboveInk (h c (by simp)) (fun hSame => hNote (hSame ▸ hPen))
    obtain ⟨next, hNext, hRest⟩ := ih (fun d hd => h d (by simp [hd])) hFree
    refine ⟨next, hNext, ?_⟩
    rw [List.flatMap_cons, List.map_cons, List.sum_cons, Code.breaks_add]
    exact hFirst.append hRest

/-- A node with its comments is legal if it is legal without them. Line breaks come before it, and
without comments it is only that of the blank line. -/
theorem legal_node {t : Traits} (hHolds : t.Holds Comment.Legible) (keeps : Option Bool) {own : Ink} {code : Code}
    {stop : Pen} (hNote : ¬ S .note) (hFree : S .free) (hOwn : ∀ pen, S pen → Ink.Legal pen own stop code)
    (hPen : S pen) :
    ∃ count, Ink.Legal pen (t.noted keeps own) stop (Code.breaks count ++ code) ∧
      (t.comments = [] → count = (t.afterBlank && keeps.getD t.keepsBlank).toNat) := by
  obtain ⟨first, hFirst, hBlank⟩ :=
    legal_blankInk (t.afterBlank && keeps.getD t.keepsBlank) S hFree hPen
  obtain ⟨second, hSecond, hAbove⟩ :=
    legal_leading (fun c hc => (hHolds c (mem_of_mem_leading hc)).1) hNote hFree hFirst
  have hTail : Ink.Legal stop (t.tail?.elim [] (·.2.tailInk)) stop [] := by
    cases hFound : t.tail? with
    | none => exact Ink.Legal.nil stop
    | some found => exact legal_tailInk (hHolds _ (mem_of_tail? hFound)).1 stop
  refine ⟨(t.afterBlank && keeps.getD t.keepsBlank).toNat + (t.leading.map (·.lines.length)).sum, ?_, ?_⟩
  · rw [Code.breaks_add, ← List.append_nil (_ ++ code)]
    exact ((hBlank.append hAbove).append (hOwn second hSecond)).append hTail
  · intro hComments
    simp [leading_of_comments_nil hComments]

/-! ### Lists -/

/-- The marks of a style between entries and after the last one are legal: after an entry that
leaves one of the pens `Stops`, they give the separator or the end of the list, and line breaks. -/
structure LegalStyle (style : InkStyle) (Stops Final : Pen → Prop) (separator last : Code)
    (spaces trailing : Nat) : Prop where
  mark : ∀ pen, Stops pen → Ink.Legal pen (style.mark ++ style.after ++ style.between) .free
    (separator ++ Code.breaks spaces)
  lastMark : ∀ pen, Stops pen → ∃ stop, Final stop ∧
    Ink.Legal pen (style.lastMark ++ style.after) stop (last ++ Code.breaks trailing)

/-- After a comment, the marks of the style between entries start a new line. -/
def StartsLine (style : InkStyle) (spaces : Nat) : Prop :=
  0 < spaces ∧ style.after ++ style.between = List.replicate spaces .newline

section

variable {α β μ : Type} {P : Comment → Prop} {style : InkStyle} {R : Option Bool → α → Ink → Prop}
  {C : β → Code → Prop} {traits : α → Traits} {meaning : α → β} {v : View μ} {gap : μ → Nat → Prop}
  {separator last : Code} {Starts Stops Final : Pen → Prop} {spaces trailing : Nat}

/-- What stands after the last element of a list. -/
def endCode (separator last : Code) (entries : List (Entry α)) : Code :=
  match entries.getLast? with
  | some (.comment _) => separator
  | _ => last

/-- From the pens `Starts` an element of a list is legal, and its code is that of its meaning after
line breaks. If it has no comments, it is one at most, for the blank line before the element. -/
def ItemLegal (bare : Prop) (R : Option Bool → α → Ink → Prop) (C : β → Code → Prop)
    (traits : α → Traits) (meaning : α → β) (Starts Stops : Pen → Prop) (x : α) : Prop :=
  ∀ keeps own, R keeps x own → ∀ pen, Starts pen → ∃ stop count code, Stops stop ∧
    Ink.Legal pen own stop (Code.breaks count ++ code) ∧ C (meaning x) code ∧
    (bare → count = ((traits x).afterBlank && keeps.getD (traits x).keepsBlank).toNat)

theorem ItemLegal.mono {p q : Prop} {x : α} (hImp : q → p) (h : ItemLegal p R C traits meaning Starts Stops x) :
    ItemLegal q R C traits meaning Starts Stops x := by
  intro keeps own hOwn pen hPen
  obtain ⟨stop, count, code, hStop, hLegal, hCode, hCount⟩ := h keeps own hOwn pen hPen
  exact ⟨stop, count, code, hStop, hLegal, hCode, fun hq => hCount (hImp hq)⟩

/-- The line breaks before an element that follows another agree with its mark. -/
def GapsAgree (P : Comment → Prop) (style : InkStyle) (spaces : Nat) (v : View μ)
    (gap : μ → Nat → Prop) (t : Traits) : Prop :=
  ∀ previous count, ((∀ c, ¬ P c) →
    count = spaces + (t.afterBlank && (style.keepsBlank false).getD t.keepsBlank).toNat) →
    gap (v.next previous t) count

/-- The code of entries of a list. -/
inductive EntriesCoded (P : Comment → Prop) (style : InkStyle) (C : β → Code → Prop)
    (traits : α → Traits) (meaning : α → β) (v : View μ) (gap : μ → Nat → Prop)
    (separator last : Code) (trailing : Nat) (isFirst : Bool) (entries : List (Entry α)) :
    Code → Prop where
  | blank {count : Nat} (hItems : entries.filterMap Entry.item? = []) :
      EntriesCoded P style C traits meaning v gap separator last trailing isFirst entries (Code.breaks count)
  | filled {x : α} {xs : List α} {lead count : Nat} {own more : Code}
      (hItems : entries.filterMap Entry.item? = x :: xs)
      (hLead : (∀ c, ¬ P c) → lead =
        ((traits x).afterBlank && (style.keepsBlank isFirst).getD (traits x).keepsBlank).toNat)
      (hOwn : C (meaning x) own)
      (hMore : Rest separator gap C (v.after traits meaning (traits x) xs) more)
      (hCount : (∀ c, entries.getLast? ≠ some (.comment c)) → count = trailing) :
      EntriesCoded P style C traits meaning v gap separator last trailing isFirst entries
        (Code.breaks lead ++ own ++ more ++ endCode separator last entries ++ Code.breaks count)

variable {entries : List (Entry α)}

theorem endCode_cons (separator last : Code) (entry : Entry α) (hEntries : entries ≠ []) :
    endCode separator last (entry :: entries) = endCode separator last entries := by
  obtain ⟨next, rest, rfl⟩ := List.exists_cons_of_ne_nil hEntries
  simp [endCode]

theorem endCode_of_ends (separator last : Code) (h : ∀ c, entries.getLast? ≠ some (.comment c)) :
    endCode separator last entries = last := by
  unfold endCode
  split
  · next c hLast => exact absurd hLast (h c)
  · rfl

theorem exists_comment_of_items_nil (hEntries : entries ≠ []) (hItems : entries.filterMap Entry.item? = []) :
    ∃ c, entries.getLast? = some (.comment c) := by
  obtain ⟨init, entry, rfl⟩ := (List.eq_nil_or_concat entries).resolve_left hEntries
  cases entry with
  | item x => simp [Entry.item?] at hItems
  | comment c => exact ⟨c, by simp⟩

theorem endCode_of_items_nil (separator last : Code) (hEntries : entries ≠ [])
    (hItems : entries.filterMap Entry.item? = []) : endCode separator last entries = separator := by
  obtain ⟨c, hLast⟩ := exists_comment_of_items_nil hEntries hItems
  simp [endCode, hLast]

variable {isFirst : Bool} {code : Code}

/-- An element comes before entries with the separator and line breaks. These are the gap to the next element, or
are followed by comments only. -/
theorem EntriesCoded.item {x : α} {lead : Nat} {own : Code} (hEntries : entries ≠ [])
    (hLead : (∀ c, ¬ P c) → lead =
      ((traits x).afterBlank && (style.keepsBlank isFirst).getD (traits x).keepsBlank).toNat)
    (hOwn : C (meaning x) own) (hGap : ∀ y, .item y ∈ entries → GapsAgree P style spaces v gap (traits y))
    (h : EntriesCoded P style C traits meaning v gap separator last trailing false entries code) :
    EntriesCoded P style C traits meaning v gap separator last trailing isFirst (.item x :: entries)
      (Code.breaks lead ++ own ++ (separator ++ Code.breaks spaces) ++ code) := by
  have hSame : (.item x :: entries).getLast? = entries.getLast? := List.getLast?_cons_of_ne_nil hEntries
  have hEnd := endCode_cons separator last (.item x) hEntries
  cases h with
  | @blank count hItems =>
    obtain ⟨c, hc⟩ := exists_comment_of_items_nil hEntries hItems
    have hOne : (.item x :: entries).filterMap Entry.item? = [x] := by simp [Entry.item?, hItems]
    have hCode : Code.breaks lead ++ own ++ (separator ++ Code.breaks spaces) ++ Code.breaks count =
        Code.breaks lead ++ own ++ [] ++ endCode separator last (.item x :: entries) ++
          Code.breaks (spaces + count) := by
      simp [hEnd, endCode_of_items_nil _ _ hEntries hItems, Code.breaks_add]
    rw [hCode]
    exact .filled hOne hLead hOwn .nil fun hEnds => absurd (hSame.trans hc) (hEnds c)
  | @filled y ys next count own' more hItems hNext hOwn' hMore hCount =>
    have hMark : gap (v.next (traits x) (traits y)) (spaces + next) := by
      have hMem : .item y ∈ entries := Entry.mem_items.1 (by simp [hItems])
      exact hGap y hMem _ _ fun hNone => by rw [hNext hNone]
    have hAll : (.item x :: entries).filterMap Entry.item? = x :: y :: ys := by simp [Entry.item?, hItems]
    have hRest : Rest separator gap C (v.after traits meaning (traits x) (y :: ys))
        (separator ++ Code.breaks (spaces + next) ++ own' ++ more) :=
      .cons hMark hOwn' hMore
    have hCode : Code.breaks lead ++ own ++ (separator ++ Code.breaks spaces) ++ (Code.breaks next ++ own' ++ more ++
          endCode separator last entries ++ Code.breaks count) =
        Code.breaks lead ++ own ++ (separator ++ Code.breaks (spaces + next) ++ own' ++ more) ++
          endCode separator last (.item x :: entries) ++ Code.breaks count := by
      simp [hEnd, Code.breaks_add]
    rw [hCode]
    exact .filled hAll hLead hOwn hRest fun hEnds => hCount fun c hc => hEnds c (hSame.trans hc)

/-- A comment leaves nothing but line breaks before the entries that follow it. -/
theorem EntriesCoded.comment {c : Comment} (hEntries : entries ≠ []) (hc : P c) (count : Nat)
    (h : EntriesCoded P style C traits meaning v gap separator last trailing false entries code) :
    EntriesCoded P style C traits meaning v gap separator last trailing isFirst (.comment c :: entries)
      (Code.breaks count ++ code) := by
  have hSame : (.comment c :: entries).getLast? = entries.getLast? := List.getLast?_cons_of_ne_nil hEntries
  cases h with
  | @blank more hItems =>
    rw [← Code.breaks_add]
    exact .blank hItems
  | @filled y ys next more own rest hItems hNext hOwn hRest hMore =>
    have hCode : Code.breaks count ++ (Code.breaks next ++ own ++ rest ++ endCode separator last entries ++
          Code.breaks more) =
        Code.breaks (count + next) ++ own ++ rest ++ endCode separator last (.comment c :: entries) ++
          Code.breaks more := by
      simp [endCode_cons separator last (.comment c) hEntries, Code.breaks_add]
    rw [hCode]
    exact .filled hItems (fun hNone => absurd hc (hNone c)) hOwn hRest fun hEnds =>
      hMore fun d hd => hEnds d (hSame.trans hd)

/-- The entries of a list are legal and have the code of its elements. -/
theorem legal_entries (hStyle : LegalStyle style Stops Final separator last spaces trailing)
    (hP : ∀ c, P c → c.Legible) (hNote : ¬ Starts .note) (hFree : Starts .free) {ink : Ink}
    (h : EntriesInked style R isFirst entries ink)
    (hItem : ∀ x, .item x ∈ entries → ItemLegal (∀ c, ¬ P c) R C traits meaning Starts Stops x)
    (hGap : ∀ x, .item x ∈ entries → GapsAgree P style spaces v gap (traits x))
    (hComment : ∀ c, .comment c ∈ entries → P c ∧ StartsLine style spaces)
    (hLast : ∀ c, entries.getLast? = some (.comment c) →
      ∃ stop count, Final stop ∧ Ink.Legal .note style.after stop (Code.breaks count)) (hPen : Starts pen) :
    ∃ stop code, Final stop ∧ Ink.Legal pen ink stop code ∧
      EntriesCoded P style C traits meaning v gap separator last trailing isFirst entries code := by
  induction h generalizing pen with
  | @lastItem isFirst x own hOwn =>
    obtain ⟨middle, lead, code, hMiddle, hLegal, hCode, hLead⟩ :=
      hItem x (by simp) _ _ hOwn pen hPen
    obtain ⟨stop, hStop, hEnd⟩ := hStyle.lastMark middle hMiddle
    have hCoded : EntriesCoded P style C traits meaning v gap separator last trailing isFirst [.item x]
        (Code.breaks lead ++ code ++ [] ++ last ++ Code.breaks trailing) :=
      .filled rfl hLead hCode .nil fun _ => rfl
    refine ⟨stop, _, hStop, ?_, hCoded⟩
    simpa using hLegal.append hEnd
  | @lastComment isFirst c =>
    obtain ⟨hc, hLine⟩ := hComment c (by simp)
    obtain ⟨count, hOwn⟩ := legal_noted (hP c hc) (style.keepsBlank isFirst) (fun hSame => hNote (hSame ▸ hPen))
    obtain ⟨stop, more, hStop, hEnd⟩ := hLast c rfl
    refine ⟨stop, Code.breaks (count + more), hStop, ?_, .blank rfl⟩
    rw [Code.breaks_add]
    exact hOwn.append hEnd
  | @item isFirst x rest own more hOwn hMore ih =>
    have hSame : (.item x :: rest).getLast? = rest.getLast? :=
      List.getLast?_cons_of_ne_nil hMore.ne_nil
    obtain ⟨middle, lead, code, hMiddle, hLegal, hCode, hLead⟩ :=
      hItem x (by simp) _ _ hOwn pen hPen
    obtain ⟨stop, rest', hStop, hLegalRest, hCoded⟩ := ih (fun y hy => hItem y (by simp [hy]))
      (fun y hy => hGap y (by simp [hy])) (fun c hc => hComment c (by simp [hc]))
      (fun c hc => hLast c (hSame.trans hc)) hFree
    have hAll := (hLegal.append (hStyle.mark middle hMiddle)).append hLegalRest
    exact ⟨stop, _, hStop, by simpa using hAll,
      hCoded.item hMore.ne_nil hLead hCode fun y hy => hGap y (by simp [hy])⟩
  | @comment isFirst c rest more hMore ih =>
    have hSame : (.comment c :: rest).getLast? = rest.getLast? :=
      List.getLast?_cons_of_ne_nil hMore.ne_nil
    obtain ⟨hc, hPositive, hLine⟩ := hComment c (by simp)
    obtain ⟨first, hOwn⟩ := legal_noted (hP c hc) (style.keepsBlank isFirst) (fun hSame => hNote (hSame ▸ hPen))
    have hBreaks : Ink.Legal .note (style.after ++ style.between) .free (Code.breaks spaces) := by
      obtain ⟨count, rfl⟩ := Nat.exists_eq_add_one_of_ne_zero hPositive.ne'
      rw [hLine]
      exact Ink.Legal.newlines .note count
    obtain ⟨stop, rest', hStop, hLegalRest, hCoded⟩ := ih (fun y hy => hItem y (by simp [hy]))
      (fun y hy => hGap y (by simp [hy])) (fun c hc => hComment c (by simp [hc]))
      (fun c hc => hLast c (hSame.trans hc)) hFree
    have hAll := (hOwn.append hBreaks).append hLegalRest
    rw [← Code.breaks_add] at hAll
    exact ⟨stop, _, hStop, by simpa using hAll, hCoded.comment hMore.ne_nil hc (first + spaces)⟩

/-- The code of a list is that of its elements, of what stands after the last one and of line
breaks. -/
theorem EntriesCoded.run
    (h : EntriesCoded P style C traits meaning v gap separator last trailing isFirst entries code) (before : Nat) :
    ∃ body tail count, Code.breaks before ++ code = body ++ tail ++ Code.breaks count ∧
      Run separator gap C v.first (v.along traits meaning (entries.filterMap Entry.item?)) body ∧
      (tail = [] ∨ tail = endCode separator last entries ∧ entries.filterMap Entry.item? ≠ []) := by
  cases h with
  | @blank count hItems =>
    refine ⟨[], [], before + count, by simp [Code.breaks_add], ?_, .inl rfl⟩
    rw [hItems]
    exact .nil
  | @filled x xs lead count own more hItems hLead hOwn hMore hCount =>
    refine ⟨Code.breaks (before + lead) ++ own ++ more, _, count, by simp [Code.breaks_add], ?_,
      .inr ⟨rfl, by simp [hItems]⟩⟩
    rw [hItems]
    exact .cons hOwn hMore

/-- The code of a list with nothing but line breaks between its elements. -/
theorem EntriesCoded.run_plain
    (h : EntriesCoded P style C traits meaning v gap [] [] trailing isFirst entries code) (before : Nat) :
    ∃ body count, Code.breaks before ++ code = body ++ Code.breaks count ∧
      Run [] gap C v.first (v.along traits meaning (entries.filterMap Entry.item?)) body := by
  obtain ⟨body, tail, count, hCode, hRun, hTail⟩ := h.run before
  have hNone : tail = [] := by
    refine hTail.elim id fun hEnd => hEnd.1.trans ?_
    unfold endCode
    split <;> rfl
  rw [hNone, List.append_nil] at hCode
  exact ⟨body, count, hCode, hRun⟩

/-- The code of a list that ends in an element. -/
theorem EntriesCoded.run_ended
    (h : EntriesCoded P style C traits meaning v gap separator last trailing isFirst entries code)
    (hEntries : entries ≠ []) (hEnds : ∀ c, entries.getLast? ≠ some (.comment c)) (before : Nat) :
    ∃ body, Code.breaks before ++ code = body ++ last ++ Code.breaks trailing ∧
      Run separator gap C v.first (v.along traits meaning (entries.filterMap Entry.item?)) body := by
  cases h with
  | @blank count hItems =>
    obtain ⟨c, hc⟩ := exists_comment_of_items_nil hEntries hItems
    exact absurd hc (hEnds c)
  | @filled x xs lead count own more hItems hLead hOwn hMore hCount =>
    refine ⟨Code.breaks (before + lead) ++ own ++ more, ?_, ?_⟩
    · rw [endCode_of_ends _ _ hEnds, hCount hEnds]
      simp [Code.breaks_add]
    · rw [hItems]
      exact .cons hOwn hMore

end

end PolicyFormat.Layout
