import PolicyFormat.Proofs.ListLayout
import PolicyFormat.Proofs.Thinning

/-! The layout of values. Every value as it should be is laid out, in one of its inks. Where a list in
braces goes on one line, the inks are those of the list without its blank lines. These lines do not
change which layouts fit. -/
namespace PolicyFormat.Layout

open Policy

variable {f : Frame} {keepsBlank : Bool} {e : Element}

/-! ### Arguments -/

theorem draws_inline (first last : List Line) (empty : List Line) (keepsBlank : Bool → Option Bool) : ListStyle.Draws
      { between := [{ text := " " }], mark := ",", empty, opening := first, closing := last, keepsBlank }
      (inlineInk keepsBlank) where
  mark := Spells.word "," none
  lastMark := Spells.blank none
  between := rfl
  after := Spells.nil
  keepsBlank := rfl
  level _ _ _ _ _ _ _ := rfl

theorem argumentsLined_draws (f : Frame) : (argumentsLined f).Draws argumentsInk where
  mark := Spells.word "," none
  lastMark := Spells.word ")" none
  between := Spells.newline none none
  after := Spells.nil
  keepsBlank := rfl
  level _ _ _ _ _ _ _ := rfl

/-- Which styles are tried. A list with comments is never tried on one line. -/
theorem inlineOrLined_cases (inlined lined : ListStyle) (pieces : List Piece) :
    inlineOrLined inlined lined pieces = [lined] ∨ (∀ p ∈ pieces, p.hasComments = false ∧ p.role ≠ .comment) ∧
        (inlineOrLined inlined lined pieces = [inlined, lined] ∨ inlineOrLined inlined lined pieces = [inlined]) := by
  unfold inlineOrLined
  split
  · exact .inl rfl
  · rename_i hQuiet
    refine .inr ⟨by simpa using hQuiet, ?_⟩
    split
    · exact .inl rfl
    · exact .inr rfl

section

variable {α : Type} {piece : α → Piece} {R : Option Bool → α → Ink → Prop} {entries : List (Entry α)}

theorem comment_not_mem_of_role (h : ∀ p ∈ entries.map (entryPiece piece), p.hasComments = false ∧ p.role ≠ .comment)
    (c : Comment) : .comment c ∉ entries := by
  intro hc
  exact (h (entryPiece piece (.comment c)) (List.mem_map_of_mem hc)).2 rfl

theorem arguments_inked {t : Traits} (hSilent : t.Silent) (opening closing : Option Leaf)
    (hf : f.keepsBlank = none) (hRole : ∀ x, (piece x).role ≠ .comment)
    (hItems : ∀ x, .item x ∈ entries → ∀ frame : Frame, frame.allowsBraceless = f.allowsBraceless →
      Inked ((piece x).lines frame) (R frame.keepsBlank x)) (hComments : ∀ c, .comment c ∈ entries → c.Legible) :
    Inked (listLines .arguments t opening closing (entries.map (entryPiece piece)) f)
      (ArgumentsInked f.allowsBraceless R entries) := by
  apply withComments_silent_inked hSilent hf
  change Inked (firstThatFits f ((inlineOrLined (argumentsInline f) (argumentsLined f)
    (entries.map (entryPiece piece))).map (fun style => style.format (entries.map (entryPiece piece))))) _
  by_cases hEntries : entries = []
  · subst hEntries
    apply firstThatFits_one_inked
    change Inked (.ok (emptyArguments f)) _
    unfold emptyArguments
    split
    · exact ⟨_, rfl, by simp, [], .none ‹_›, Spells.blank none⟩
    · rename_i hBraces
      exact ⟨_, rfl, by simp, _, .empty (by simpa using hBraces), rfl⟩
  · have hLined : Inked ((argumentsLined f).format (entries.map (entryPiece piece)) f)
        (ArgumentsInked f.allowsBraceless R entries) := by
      refine ((argumentsLined_draws f).format_inked hRole (Spells.word "(" none) Spells.nil hEntries
        (fun x hx depth isFirst => hItems x hx _ rfl) hComments).mono ?_
      rintro ink ⟨inner, hInner, rfl⟩
      rw [List.append_nil]
      exact .lined hInner
    rcases inlineOrLined_cases (argumentsInline f) (argumentsLined f) (entries.map (entryPiece piece))
      with hStyles | ⟨hQuiet, hStyles⟩
    · rw [hStyles]
      exact firstThatFits_one_inked hLined
    · have hInline : Inked ((argumentsInline f).format (entries.map (entryPiece piece)) f)
          (ArgumentsInked f.allowsBraceless R entries) := by
        refine ((draws_inline _ _ _ _).format_inked hRole (Spells.word "(" none) (Spells.word ")" none)
          hEntries (fun x hx depth isFirst => hItems x hx _ rfl) hComments).mono ?_
        rintro ink ⟨inner, hInner, rfl⟩
        exact .inline (comment_not_mem_of_role hQuiet) hInner
      rcases hStyles with hStyles | hStyles
      · rw [hStyles]
        exact (firstThatFits_two_inked hInline hLined).mono (fun _ h => h.elim id id)
      · rw [hStyles]
        exact firstThatFits_one_inked hInline

end

/-! ### Words and calls -/

/-- A word or a call as a piece of a list. -/
def elementPiece (e : Element) : Piece :=
  Piece.ofItem .other e.traits (fun f => elementLines e f)

theorem elementPiece_role (e : Element) : (elementPiece e).role ≠ .comment := by
  simp [elementPiece, Piece.ofItem]

theorem elementPieces_eq (entries : List (Entry Element)) :
    elementPieces entries = entries.map (entryPiece elementPiece) := by
  induction entries with
  | nil => rfl
  | cons entry rest ih => cases entry <;> simp [elementPieces, entryPiece, elementPiece, ih]

theorem elementLines_call (traits : Traits) {name : Leaf} (hName : name.traits.Silent)
    (arguments : ItemList Element) (f : Frame) :
    elementLines (.call traits name arguments) f = withComments traits (fun f => do
        let brackets ← listLines .arguments arguments.traits arguments.opening arguments.closing
          (arguments.entries.map (entryPiece elementPiece)) (f.child (name.text.length + 0))
        return joinLines [[⟨name.text, some 0, []⟩], brackets]) f := by
  obtain ⟨argTraits, opening, entries, closing⟩ := arguments
  rw [elementLines]
  congr 1
  funext f
  rw [leafLines_silent hName rfl, elementPieces_eq]
  rfl

variable {P : Comment → Prop}

theorem elementLines_inked (hP : ∀ c, P c → c.Legible) (e : Element) (h : e.Formed P keepsBlank) (f : Frame) :
    Inked (elementLines e f) (e.Inked f.allowsBraceless f.keepsBlank) := by
  induction e using Element.induction generalizing keepsBlank f with
  | leaf word =>
    cases h with
    | leaf hWord hHolds hKeeps =>
      rw [elementLines]
      refine (leafLines_inked (Traits.Holds.legible hP hHolds) f).mono ?_
      rintro ink rfl
      exact .leaf
  | call traits name arguments ih =>
    cases h with
    | call hHolds hKeeps hName hNameSilent hSilent hItems hComments =>
      rw [elementLines_call traits hNameSilent]
      have hEach : ∀ x, .item x ∈ arguments.entries → ∀ frame : Frame, frame.allowsBraceless = f.allowsBraceless →
          Inked ((elementPiece x).lines frame) (Element.Inked f.allowsBraceless frame.keepsBlank x) := by
        intro x hx frame hFrame
        have hMem : x ∈ arguments.items := ItemList.mem_items.2 hx
        exact hFrame ▸ ih x hMem (hItems x hx) frame
      have hBrackets : Inked _ (ArgumentsInked f.allowsBraceless _ arguments.entries) :=
        arguments_inked hSilent arguments.opening arguments.closing
          (f := f.child (name.text.length + 0)) rfl elementPiece_role hEach
          (fun c hc => hP c (hComments c hc))
      apply withComments_inked (Traits.Holds.legible hP hHolds)
      refine hBrackets.bind fun lines hLines brackets hInk hSpells => ?_
      exact inked_ok (joinLines_ne_nil ⟨_, List.mem_cons_self, by simp⟩) (.call hInk)
        ((Spells.word name.text (some 0)).joinTwo hSpells)

/-! ### Blank lines in lists -/

variable {t : Traits} {own : Frame → Lines} {lines : List Line} {pieces : List Piece} {g : ItemList Element}

/-- The lines start at the place where they are put. -/
def Flush (lines : List Line) : Prop :=
  ∃ l rest, lines = l :: rest ∧ l.indent = some 0

theorem Flush.joinTwo {first : List Line} (h : Flush first) (second : List Line) : Flush (joinTwo first second) := by
  obtain ⟨l, rest, rfl, hIndent⟩ := h
  by_cases hRest : rest = []
  · subst hRest
    cases second with
    | nil => exact ⟨l, [], rfl, hIndent⟩
    | cons m second =>
      refine ⟨l.join m, second, rfl, ?_⟩
      rw [Line.join, hIndent]
      rfl
  · exact ⟨l, _, joinTwo_cons hRest l second, hIndent⟩

/-- The lines of a node with comments start at their place if its own lines do. -/
theorem framed_flush (hHolds : t.Holds Comment.Legible) (hOwn : own f = .ok lines) (hFlush : Flush lines) :
    ∃ result, framed t own f = .ok result ∧ Flush result := by
  by_cases hComments : t.comments = []
  · exact ⟨lines, by rw [framed, if_pos hComments, hOwn], hFlush⟩
  · obtain ⟨tail, hTail, -⟩ := tailing_eq hHolds f
    have hAbove := above_eq (fun c hc => hHolds c (mem_of_mem_leading hc)) f
    refine ⟨_, by rw [framed, if_neg hComments, hTail, hAbove, hOwn]; rfl, ?_⟩
    cases hNotes : aboveLines t.leading with
    | nil => exact hFlush.joinTwo _
    | cons l rest =>
      have hMem : l ∈ aboveLines t.leading := by simp [hNotes]
      exact ⟨l, _, rfl, indent_of_mem_aboveLines hMem⟩

/-- The lines of a word or a call without its comments. -/
def elementOwn : Element → Frame → Lines
  | .leaf word, _ => .ok [⟨word.text, some 0, []⟩]
  | .call _ name arguments, f => do
    let brackets ← listLines .arguments arguments.traits arguments.opening arguments.closing
      (arguments.entries.map (entryPiece elementPiece)) (f.child (name.text.length + 0))
    return joinLines [[⟨name.text, some 0, []⟩], brackets]

theorem elementLines_eq (h : e.Formed P keepsBlank) (f : Frame) :
    elementLines e f = withComments e.traits (elementOwn e) f := by
  cases h with
  | leaf hWord hHolds hKeeps =>
    rw [elementLines]
    rfl
  | call hHolds hKeeps hName hNameSilent => exact elementLines_call _ hNameSilent _ f

theorem traits_unmarked (e : Element) : e.unmarked.traits = { e.traits with afterBlank := false, yields := some 1 } :=
  Element.traits_withTraits _ e

theorem traits_lined (e : Element) : e.lined.traits = { e.traits with yields := none } :=
  Element.traits_withTraits _ e

theorem elementOwn_withTraits (change : Traits → Traits) (e : Element) :
    elementOwn (e.withTraits change) = elementOwn e := by
  cases e <;> rfl

theorem elementOwn_unmarked (e : Element) : elementOwn e.unmarked = elementOwn e :=
  elementOwn_withTraits _ e

theorem framed_unmarked (t : Traits) (own : Frame → Lines) (f : Frame) :
    framed { t with afterBlank := false, yields := some 1 } own f = framed t own f :=
  rfl

/-- Ranks do not matter to the lines of an element. -/
theorem elementLines_lined (h : e.Formed P keepsBlank) (f : Frame) : elementLines e.lined f = elementLines e f := by
  rw [elementLines_eq h, elementLines_eq (Element.formed_lined.2 h), traits_lined, withComments_eq, withComments_eq]
  unfold Element.lined
  rw [elementOwn_withTraits]
  rfl

/-- Where no blank line is kept, the mark of one does not matter. -/
theorem elementLines_unmarked (h : e.Formed P keepsBlank) (hf : f.keepsBlank = some false) :
    elementLines e.unmarked f = elementLines e f := by
  rw [elementLines_eq h, elementLines_eq (Element.formed_unmarked.2 h), traits_unmarked,
    elementOwn_unmarked, withComments_eq, withComments_eq, framed_unmarked]
  simp [blankBefore, hf]

theorem elementOwn_flush (hP : ∀ c, P c → c.Legible) (h : e.Formed P keepsBlank) (f : Frame) :
    ∃ lines, elementOwn e f = .ok lines ∧ Flush lines := by
  cases h with
  | leaf => exact ⟨_, rfl, _, _, rfl, rfl⟩
  | @call _ traits name arguments hHolds hKeeps hName hNameSilent hSilent hItems hComments =>
    have hBrackets : Inked _ (ArgumentsInked f.allowsBraceless _ arguments.entries) :=
      arguments_inked hSilent arguments.opening arguments.closing
        (f := f.child (name.text.length + 0)) rfl elementPiece_role
        (fun x hx frame hFrame => hFrame ▸ elementLines_inked hP x (hItems x hx) frame)
        (fun c hc => hP c (hComments c hc))
    obtain ⟨brackets, hLines, -⟩ := hBrackets
    refine ⟨_, by rw [elementOwn, hLines]; rfl, ?_⟩
    exact Flush.joinTwo ⟨_, _, rfl, rfl⟩ brackets

/-- The lines of an element on lines of its own, without the line break at their end. -/
def linedRun (mark : String) (lines : List Line) : List Line :=
  joinTwo (joinTwo (joinTwo [{ text := "", indent := some 0 }] lines) [{ text := mark }]) [{ text := "" }]

theorem linedRun_flush (mark : String) (h : Flush lines) : Flush (linedRun mark lines) := by
  obtain ⟨l, rest, rfl, hIndent⟩ := h
  exact Flush.joinTwo (Flush.joinTwo ⟨_, rest, rfl, rfl⟩ _) _

theorem linedRun_blank (mark : String) {l : Line} (hIndent : l.indent = some 0) (rest : List Line) :
    linedRun mark ({ text := "" } :: l :: rest) =
      { text := "", indent := some 0 } :: linedRun mark (l :: rest) := by
  have hFirst : Line.join { text := "", indent := some 0 } { text := "" } =
      { text := "", indent := some 0 } := by
    simp [Line.join]
  have hSecond : Line.join { text := "", indent := some 0 } l = l := by
    obtain ⟨text, indent, tail⟩ := l
    simpa [Line.join] using hIndent.symm
  have hNonempty (second : List Line) : joinTwo (l :: rest) second ≠ [] := joinTwo_ne_nil (by simp) second
  simp only [linedRun]
  rw [joinTwo, joinTwo, hFirst, hSecond, joinTwo_cons (by simp), joinTwo_cons (hNonempty _)]

theorem entryLines_lined (p : Piece) (last i : Nat) (h : p.lines (f.child 0 (some (!(i == 0)))) = .ok lines) :
    bracedLined.entryLines (fun _ _ => 0) last f (p, i) =
      .ok (linedRun (if p.role = .comment then "" else ",") lines ++ [{ text := "" }]) := by
  have hRun (mark : String) : joinLines [[{ text := "", indent := some 0 }], lines, [{ text := mark }], lineBreak] =
        linedRun mark lines ++ [{ text := "" }] := by
    exact joinTwo_append _ (List.cons_ne_nil { text := "" } []) [{ text := "" }]
  rw [← hRun]
  simp only [ListStyle.entryLines, bracedLined, ite_self, h]
  rfl

/-- Where blank lines are kept, the lines of a list with the mark of one before an element are those
without it and a blank row. -/
theorem entryLines_padded (hP : ∀ c, P c → c.Legible) (h : e.Formed P true) (last i : Nat) (f : Frame) :
    ∃ x y, bracedLined.entryLines (fun _ _ => 0) last f (elementPiece e.unmarked, i) = .ok (x ++ [{ text := "" }]) ∧
      bracedLined.entryLines (fun _ _ => 0) last f (elementPiece e, i) = .ok (y ++ [{ text := "" }]) ∧
      Padded x y := by
  obtain ⟨own, hOwn, hOwnFlush⟩ := elementOwn_flush hP h (f.child 0 (some (!(i == 0))))
  have hHolds : e.traits.Holds Comment.Legible := h.holds.legible hP
  obtain ⟨_, hFramed, l, rest, rfl, hIndent⟩ := framed_flush hHolds hOwn hOwnFlush
  have hUnmarked : elementLines e.unmarked (f.child 0 (some (!(i == 0)))) =
      .ok ((f.child 0 (some (!(i == 0)))).indentRest (l :: rest)) := by
    rw [elementLines_eq (Element.formed_unmarked.2 h), traits_unmarked, elementOwn_unmarked,
      withComments_eq, framed_unmarked, hFramed]
    rfl
  have hLines : elementLines e (f.child 0 (some (!(i == 0)))) = .ok ((f.child 0 (some (!(i == 0)))).indentRest
        (blankBefore (f.child 0 (some (!(i == 0)))) e.traits.afterBlank e.traits.keepsBlank ++ l :: rest)) := by
    rw [elementLines_eq h, withComments_eq, hFramed]
    rfl
  refine ⟨_, _, entryLines_lined (elementPiece e.unmarked) last i hUnmarked,
    entryLines_lined (elementPiece e) last i hLines, ?_⟩
  rw [if_neg (elementPiece_role e.unmarked), if_neg (elementPiece_role e)]
  unfold blankBefore
  split
  · have hShift : (f.child 0 (some (!(i == 0)))).indentRest ([{ text := "" }] ++ l :: rest) =
        { text := "" } :: (f.child 0 (some (!(i == 0)))).indentRest (l :: rest) := by
      obtain ⟨text, indent, tail⟩ := l
      obtain rfl : indent = some 0 := hIndent
      simp [Frame.indentRest, Frame.child]
    rw [hShift, Frame.indentRest, linedRun_blank _ hIndent]
    obtain ⟨m, more, hRun, hFirst⟩ := linedRun_flush "," ⟨l, _, rfl, hIndent⟩
    rw [hRun]
    exact .blank hFirst (.refl more)
  · exact .refl _

/-- The lines of a list on several lines. -/
theorem bracedLined_eq (hPieces : pieces ≠ []) {runs : List (List Line)}
    (hRuns : pieces.zipIdx.mapM (bracedLined.entryLines (fun _ _ => 0) (pieces.length - 1) f) =
      .ok (runs.map (· ++ [{ text := "" }]))) (hNonempty : runs ≠ []) :
    bracedLined.format pieces f = .ok ({ text := "\x7b" } :: (runs.flatten ++ [{ text := "\x7d" }])) := by
  have hBody : joinLines ((runs.map (· ++ [{ text := "" }])).intersperse bracedLined.between) =
      runs.flatten ++ [{ text := "" }] := by
    rw [← joinLines_broken hNonempty]
    exact joinLines_intersperse_nil _
  have hOpening : joinTwo bracedLined.opening (runs.flatten ++ [{ text := "" }]) =
      ({ text := "\x7b" } :: runs.flatten) ++ [{ text := "" }] :=
    joinTwo_broken [{ text := "\x7b" }] (by simp)
  have hAll : joinLines [bracedLined.opening, runs.flatten ++ [{ text := "" }], bracedLined.closing] =
      { text := "\x7b" } :: (runs.flatten ++ [{ text := "\x7d" }]) := by
    change joinTwo (joinTwo bracedLined.opening (runs.flatten ++ [{ text := "" }])) bracedLined.closing = _
    rw [hOpening]
    exact joinTwo_broken _ (by simp [bracedLined])
  have hDepth : bracedLined.depth pieces = fun _ _ => 0 := rfl
  rw [bracedLined.format_eq hPieces, hDepth, hRuns, ← hAll, ← hBody]
  rfl

theorem lined_runs_padded (hP : ∀ c, P c → c.Legible) {entries : List (Entry Element)}
    (hItems : ∀ e, .item e ∈ entries → e.Formed P true) (hComments : ∀ c, .comment c ∈ entries → P c)
    (f : Frame) (last i : Nat) :
    ∃ xs ys, ((entries.map (fun entry => entryPiece elementPiece (mapEntry Element.unmarked entry))).zipIdx i).mapM
        (bracedLined.entryLines (fun _ _ => 0) last f) = .ok (xs.map (· ++ [{ text := "" }])) ∧
      ((entries.map (entryPiece elementPiece)).zipIdx i).mapM
        (bracedLined.entryLines (fun _ _ => 0) last f) = .ok (ys.map (· ++ [{ text := "" }])) ∧
      List.Forall₂ Padded xs ys ∧ xs.length = entries.length := by
  induction entries generalizing i with
  | nil => exact ⟨[], [], rfl, rfl, .nil, rfl⟩
  | cons entry rest ih =>
    obtain ⟨xs, ys, hxs, hys, hPadded, hLength⟩ :=
      ih (fun e he => hItems e (List.mem_cons_of_mem _ he))
        (fun c hc => hComments c (List.mem_cons_of_mem _ hc)) (i + 1)
    cases entry with
    | item e =>
      obtain ⟨x, y, hx, hy, hHead⟩ := entryLines_padded hP (hItems e List.mem_cons_self) last i f
      exact ⟨x :: xs, y :: ys, mapM_cons_ok hx hxs, mapM_cons_ok hy hys, .cons hHead hPadded, by simp [hLength]⟩
    | comment c =>
      obtain ⟨lines, hLines, -⟩ := commentLines_inked (hP c (hComments c List.mem_cons_self))
        (f.child 0 (some (!(i == 0))))
      have hRun := entryLines_lined (Piece.ofComment c) last i hLines
      exact ⟨_ :: xs, _ :: ys, mapM_cons_ok hRun hxs, mapM_cons_ok hRun hys,
        .cons (.refl _) hPadded, by simp [hLength]⟩

theorem bracedLined_thinner (hP : ∀ c, P c → c.Legible) (h : g.Formed P (Element.Formed P true))
    (hEntries : g.entries ≠ []) (f : Frame) :
    ∃ x y, bracedLined.format
        (g.entries.map (fun entry => entryPiece elementPiece (mapEntry Element.unmarked entry))) f = .ok x ∧
      bracedLined.format (g.entries.map (entryPiece elementPiece)) f = .ok y ∧ Thinner x y := by
  obtain ⟨xs, ys, hxs, hys, hPadded, hLength⟩ :=
    lined_runs_padded hP h.items h.comments f (g.entries.length - 1) 0
  have hPos := List.length_pos_iff.2 hEntries
  have hxsNonempty : xs ≠ [] := List.length_pos_iff.1 (by omega)
  have hysNonempty : ys ≠ [] := List.length_pos_iff.1 (by rw [← hPadded.length_eq]; omega)
  refine ⟨_, _, bracedLined_eq (by simpa using hEntries) (by simpa using hxs) hxsNonempty,
    bracedLined_eq (by simpa using hEntries) (by simpa using hys) hysNonempty, ?_⟩
  exact .cons _ ((Padded.flatten hPadded).append (.refl _))

/-! ### Layouts that differ in blank rows -/

variable {c d : Frame → Lines}

/-- Both layouts succeed, and the first lacks some of the blank rows of the second. -/
def Slimmer (a b : Lines) : Prop :=
  ∃ x y, a = .ok x ∧ b = .ok y ∧ x ≠ [] ∧ Thinner x y

theorem Inked.slimmer {lines : Lines} {R : Ink → Prop} (h : Inked lines R) : Slimmer lines lines := by
  obtain ⟨x, hx, hNonempty, -⟩ := h
  exact ⟨x, x, hx, hx, hNonempty, .refl x⟩

theorem Thinner.fits_eq {a b : List Line} (h : Thinner a b) (f : Frame) : fits f a = fits f b := by
  rw [fits, fits, h.widest?_eq]

theorem firstThatFits_one_slimmer (h : Slimmer (c f) (d f)) :
    Slimmer (firstThatFits f [c]) (firstThatFits f [d]) := by
  obtain ⟨x, y, hx, hy, hNonempty, hThinner⟩ := h
  have hy' : y ≠ [] := fun hNil => hNonempty (hThinner.eq_nil_iff.2 hNil)
  exact ⟨x, y, firstThatFits_last hx hNonempty, firstThatFits_last hy hy', hNonempty, hThinner⟩

theorem firstThatFits_two_slimmer {c' d' : Frame → Lines} (h : Slimmer (c f) (d f)) (h' : Slimmer (c' f) (d' f)) :
    Slimmer (firstThatFits f [c, c']) (firstThatFits f [d, d']) := by
  obtain ⟨x, y, hx, hy, hNonempty, hThinner⟩ := h
  obtain ⟨x', y', hx', hy', hNonempty', hThinner'⟩ := h'
  have hyNonempty : y ≠ [] := fun hNil => hNonempty (hThinner.eq_nil_iff.2 hNil)
  have hyNonempty' : y' ≠ [] := fun hNil => hNonempty' (hThinner'.eq_nil_iff.2 hNil)
  have hSame := hThinner.fits_eq f
  cases hFits : fits f y with
  | true =>
    exact ⟨x, y, firstThatFits_first hx (hSame.trans hFits), firstThatFits_first hy hFits, hNonempty, hThinner⟩
  | false =>
    exact ⟨x', y', firstThatFits_second hx hNonempty (hSame.trans hFits) hx' hNonempty',
      firstThatFits_second hy hyNonempty hFits hy' hyNonempty', hNonempty', hThinner'⟩

theorem withComments_slimmer (hHolds : t.Holds Comment.Legible) {other : Frame → Lines}
    (h : Slimmer (own f) (other f)) : Slimmer (withComments t own f) (withComments t other f) := by
  obtain ⟨x, y, hx, hy, hNonempty, hThinner⟩ := h
  have hFramed : Slimmer (framed t own f) (framed t other f) := by
    by_cases hComments : t.comments = []
    · exact ⟨x, y, by rw [framed, if_pos hComments, hx], by rw [framed, if_pos hComments, hy], hNonempty, hThinner⟩
    · obtain ⟨tail, hTail, -⟩ := tailing_eq hHolds f
      have hAbove := above_eq (fun c hc => hHolds c (mem_of_mem_leading hc)) f
      refine ⟨_, _, by rw [framed, if_neg hComments, hTail, hAbove, hx]; rfl,
        by rw [framed, if_neg hComments, hTail, hAbove, hy]; rfl, ?_, ?_⟩
      · have hLast : joinLines [x, [{ text := "", tail := tail.map (·.text) }]] ≠ [] :=
          joinLines_ne_nil ⟨x, by simp, hNonempty⟩
        simp [hLast]
      · exact Thinner.append_left (hThinner.joinTwo (.refl _)) _
  obtain ⟨x, y, hx, hy, hNonempty, hThinner⟩ := hFramed
  exact ⟨_, _, by rw [withComments_eq, hx]; rfl, by rw [withComments_eq, hy]; rfl,
    indentRest_ne_nil f (by simp [hNonempty]), (hThinner.append_left _).indentRest f⟩

/-! ### Values -/

variable {α : Type}

theorem bracedInline_draws : bracedInline.Draws (inlineInk fun _ => some false) :=
  draws_inline _ _ _ _

theorem bracedLined_draws : bracedLined.Draws bracedInk where
  mark := Spells.word "," none
  lastMark := Spells.word "," none
  between := Spells.nil
  after := Spells.newline none none
  keepsBlank := rfl
  level _ _ _ _ _ _ _ := rfl

section

variable (hP : ∀ c, P c → c.Legible) {g : ItemList Element} (h : g.Formed P (Element.Formed P true))
  (hEntries : g.entries ≠ [])

include hP h hEntries

theorem bracedInline_inked (f : Frame) :
    Inked (bracedInline.format (g.entries.map (entryPiece elementPiece)) f) (fun own => ∃ inner,
      EntriesInked (inlineInk fun _ => some false) (Element.Inked f.allowsBraceless) true g.entries inner ∧
        own = [.word "\x7b", .space] ++ inner ++ [.space, .word "\x7d"]) :=
  bracedInline_draws.format_inked elementPiece_role (by rfl) (by rfl) hEntries
    (fun x hx depth isFirst => elementLines_inked hP x (h.items x hx) _)
    (fun c hc => hP c (h.comments c hc))

theorem bracedLined_inked (f : Frame) :
    Inked (bracedLined.format (g.entries.map (entryPiece elementPiece)) f) (fun own => ∃ inner,
      EntriesInked bracedInk (Element.Inked f.allowsBraceless) true g.entries inner ∧
        own = [.word "\x7b", .newline] ++ inner ++ [.word "\x7d"]) :=
  bracedLined_draws.format_inked elementPiece_role (by rfl) (by rfl) hEntries
    (fun x hx depth isFirst => elementLines_inked hP x (h.items x hx) _)
    (fun c hc => hP c (h.comments c hc))

end

/-- The lines of a list in braces without its comments. -/
def bracedLines (pieces : List Piece) (f : Frame) : Lines :=
  firstThatFits f ((inlineOrLined bracedInline bracedLined pieces).map (fun style => style.format pieces))

/-- The elements of a list as pieces. -/
def elementsOf (g : ItemList Element) : List Piece :=
  g.entries.map (entryPiece elementPiece)

theorem valueLines_list (g : ItemList Element) (f : Frame) :
    valueLines (.list g) f = withComments g.traits (bracedLines (elementsOf g)) f := by
  rw [valueLines, groupLines_eq]
  rfl

/-- A list of one element without comments has one style. -/
theorem mayBreak_of_styles (h : bracedLined ∈ inlineOrLined bracedInline bracedLined (elementsOf g)) :
    g.mayBreak = true := by
  have hAny : (elementsOf g).any (fun p => p.hasComments || p.role = .comment) = g.entries.any Element.commented := by
    rw [elementsOf, List.any_map]
    congr 1
    funext entry
    cases entry <;> simp [entryPiece, elementPiece, Piece.ofItem, Piece.ofComment, Element.commented]
  have hLength : (elementsOf g).length = g.entries.length := by simp [elementsOf]
  rw [inlineOrLined, hAny, hLength] at h
  rw [ItemList.mayBreak, Bool.or_eq_true]
  split at h
  · rename_i hComments
    exact .inr hComments
  · split at h
    · rename_i hMany
      exact .inl (by simpa using hMany)
    · have hMark := congrArg ListStyle.lastMark (List.mem_singleton.1 h)
      exact absurd hMark (by decide)

theorem inlineOrLined_congr (inlined lined : ListStyle) {others : List Piece}
    (h : pieces.map Piece.outline = others.map Piece.outline) :
    inlineOrLined inlined lined pieces = inlineOrLined inlined lined others := by
  have hAny (pieces : List Piece) : pieces.any (fun p => p.hasComments || p.role = .comment) =
      (pieces.map Piece.outline).any (fun o => o.2.2 || o.1 = .comment) := by
    rw [List.any_map]
    rfl
  have hLength : pieces.length = others.length := by simpa using congrArg List.length h
  simp only [inlineOrLined, hAny, h, hLength]

theorem unmarked_unmarked (e : Element) : e.unmarked.unmarked = e.unmarked := by
  cases e <;> rfl

theorem mapItems_mapItems (f g : α → α) (l : ItemList α) :
    (l.mapItems g).mapItems f = l.mapItems (fun x => f (g x)) := by
  simp only [ItemList.mapItems, List.map_map]
  congr 1
  apply List.map_congr_left
  intro entry _
  cases entry <;> rfl

theorem mapItems_unmarked_unmarked (g : ItemList Element) :
    (g.mapItems Element.unmarked).mapItems Element.unmarked = g.mapItems Element.unmarked := by
  simp only [mapItems_mapItems, unmarked_unmarked]

section

variable {g : ItemList Element} (h : g.Formed P (Element.Formed P true))

include h

/-- Lists that differ only in their blank lines cannot be told apart on one line. -/
theorem elementsOf_alike_of_plain {l : ItemList Element}
    (hPlain : l.mapItems Element.unmarked = g.mapItems Element.unmarked) (f : Frame) :
    List.Forall₂ (bracedInline.Alike f) (elementsOf l) (elementsOf g) := by
  have hl : l.Formed P (Element.Formed P true) := by
    have hFormed : (g.mapItems Element.unmarked).Formed P (Element.Formed P true) := by
      simpa [ItemList.formed_mapItems, Element.formed_unmarked] using h
    rw [← hPlain] at hFormed
    simpa [ItemList.formed_mapItems, Element.formed_unmarked] using hFormed
  have hEntries := congrArg ItemList.entries hPlain
  rw [entries_mapItems, entries_mapItems] at hEntries
  rw [elementsOf, elementsOf, List.forall₂_map_left_iff, List.forall₂_map_right_iff]
  refine forall₂_of_map_eq hEntries ?_
  rintro (e | c) he (d | c') hd hSame
  · have hUnmarked : e.unmarked = d.unmarked := Entry.item.inj hSame
    have hComments := congrArg (fun e => e.traits.comments) hUnmarked
    simp only [traits_unmarked] at hComments
    refine ⟨by simp [entryPiece, elementPiece, Piece.ofItem, Piece.outline, hComments], fun depth isFirst => ?_⟩
    change elementLines e _ = elementLines d _
    rw [← elementLines_unmarked (hl.items e he) rfl, hUnmarked, elementLines_unmarked (h.items d hd) rfl]
  · cases hSame
  · cases hSame
  · cases hSame
    exact ⟨rfl, fun _ _ => rfl⟩

theorem bracedLines_slimmer (hP : ∀ c, P c → c.Legible) (f : Frame) :
    Slimmer (bracedLines (elementsOf (g.mapItems Element.unmarked)) f) (bracedLines (elementsOf g) f) := by
  have hAlike := elementsOf_alike_of_plain h (mapItems_unmarked_unmarked g) f
  have hInline := bracedInline_draws.format_congr hAlike
  rw [bracedLines, bracedLines, inlineOrLined_congr _ _ (outline_of_forall₂ hAlike)]
  by_cases hEntries : g.entries = []
  · have hNil : elementsOf g = [] := by simp [elementsOf, hEntries]
    have hEmpty : Slimmer (bracedInline.format (elementsOf (g.mapItems Element.unmarked)) f)
        (bracedInline.format (elementsOf g) f) := by
      rw [hInline, hNil]
      exact ⟨_, _, rfl, rfl, by simp [bracedInline], .refl _⟩
    have hStyles : inlineOrLined bracedInline bracedLined (elementsOf g) = [bracedInline] := by
      rw [hNil]
      rfl
    rw [hStyles]
    exact firstThatFits_one_slimmer hEmpty
  · have hInlineSlimmer : Slimmer (bracedInline.format (elementsOf (g.mapItems Element.unmarked)) f)
        (bracedInline.format (elementsOf g) f) := by
      rw [hInline]
      exact (bracedInline_inked hP h hEntries f).slimmer
    have hLinedSlimmer : Slimmer (bracedLined.format (elementsOf (g.mapItems Element.unmarked)) f)
        (bracedLined.format (elementsOf g) f) := by
      obtain ⟨x, y, hx, hy, hThinner⟩ := bracedLined_thinner hP h hEntries f
      obtain ⟨y', hy', hNonempty, -⟩ := bracedLined_inked hP h hEntries f
      obtain rfl : y = y' := Except.ok.inj (hy.symm.trans hy')
      refine ⟨x, y, ?_, hy, fun hNil => hNonempty (hThinner.eq_nil_iff.1 hNil), hThinner⟩
      rw [elementsOf, entries_mapItems, List.map_map]
      exact hx
    rcases inlineOrLined_cases bracedInline bracedLined (elementsOf g) with hStyles | ⟨-, hStyles | hStyles⟩
    · rw [hStyles]
      exact firstThatFits_one_slimmer hLinedSlimmer
    · rw [hStyles]
      exact firstThatFits_two_slimmer hInlineSlimmer hLinedSlimmer
    · rw [hStyles]
      exact firstThatFits_one_slimmer hInlineSlimmer

end

/-- The blank lines of a list do not change which layouts fit. -/
theorem valueLines_slimmer (hP : ∀ c, P c → c.Legible) {v : Value} (h : v.Formed P) (f : Frame) :
    Slimmer (valueLines v.plain f) (valueLines v f) := by
  cases v with
  | single e => exact (elementLines_inked hP e h.1 f).slimmer
  | list g =>
    have hHolds : g.traits.Holds Comment.Legible := by simp [Traits.Holds, h.silent.1]
    rw [Value.plain, valueLines_list, valueLines_list]
    exact withComments_slimmer hHolds (bracedLines_slimmer h.toFormed hP f)

end PolicyFormat.Layout
