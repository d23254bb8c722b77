import PolicyFormat.Proofs.Beautified
import PolicyFormat.Proofs.Shifted
import PolicyFormat.Proofs.Trailing

/-! Blanks at the ends of lines, and lines after the end of a text, do not change the beautified text. Its
tokens and comments only move, every comment keeps its column and stays behind the code that it followed, and
no line before the end of the text becomes blank or stops to be so. -/
namespace PolicyFormat.Policy

variable {line offset last stop : Int} {cs : List Char} {scan : Scan}

/-- A scan that reads all of its text ends on the last line of it. -/
theorem Scanned.last_eq (hScan : Scanned line offset cs scan) (h : scan.ending = .complete last stop) :
    last = line + cs.count '\n' := by
  induction hScan with
  | done =>
    cases h
    simp
  | stuck => cases h
  | space _ _ ih | token _ _ ih =>
    rw [ih h, List.count_append]
    omega
  | comment hMore _ _ ih => simp [ih h, List.count_append, List.count_eq_zero.2 hMore]

/-- Neither tokens nor comments reach below the last line. -/
theorem Scanned.le_last (hScan : Scanned line offset cs scan) (h : scan.ending = .complete last stop) :
    (∀ t ∈ scan.tokens, t.endLine ≤ last) ∧ ∀ c ∈ scan.comments, c.line ≤ last := by
  have hLast := hScan.last_eq h
  refine ⟨fun t ht => ?_, fun c hc => ?_⟩
  · obtain ⟨-, before, rest, hText, hLine, -⟩ := hScan.token_located t ht
    rw [hText, List.count_append, List.count_append] at hLast
    simp only [Token.endLine, lineFeeds]
    omega
  · obtain ⟨before, more, rest, hText, -, -, hLine, -⟩ := hScan.comment_located c hc
    rw [hText, List.count_append] at hLast
    omega

variable {text : String}

theorem groupsOf_line_le (h : (Scan.ofText text).ending = .complete last stop) :
    ∀ c ∈ groupsOf text, c.span.startLine ≤ last ∧ c.span.endLine ≤ last := by
  intro c hc
  obtain ⟨first, hFirst, final, hFinal, hStart, -, hEnd⟩ :=
    ((grouped_groupsOf text).ordered scanned_ofText.comments_ordered).2 c hc
  rw [hStart, hEnd]
  exact ⟨(scanned_ofText.le_last h).2 first hFirst, (scanned_ofText.le_last h).2 final hFinal⟩

theorem commentsOf_below (h : (Scan.ofText text).ending = .complete last stop) (count : Nat) :
    (commentsOf text).map (Shift.below last count).comment = commentsOf text := by
  refine (List.map_congr_left fun c hc => ?_).trans (List.map_id _)
  obtain ⟨d, hd, hSpan, -⟩ := mem_groupsOf text hc
  obtain ⟨hStart, hEnd⟩ := hSpan ▸ groupsOf_line_le h d hd
  exact congrArg (fun span => { c with span }) (Shift.span_below hStart hEnd count)

theorem Comment.endLine_addBefore? {c d : Comment} {line : String} {startLine start : Int}
    (h : c.addBefore? line startLine start = some d) : d.span.endLine = c.span.endLine := by
  unfold addBefore? at h
  split at h
  · cases h
  · cases h
    rfl

namespace Trailing

variable {text : String} (t : Trailing text)

theorem along_before_comment {front back rest : List Char} (hText : text.toList = front ++ back ++ '#' :: rest)
    (hBack : '\n' ∉ back) : t.along front.length back = back := by
  refine t.along_eq_self fun i hi => ?_
  have hHere : text.toList.drop (front.length + i) = back[i] :: (back.drop (i + 1) ++ '#' :: rest) := by
    rw [hText, List.append_assoc, ← List.drop_drop, List.drop_left,
      List.drop_append_of_le_length (Nat.le_of_lt hi), List.drop_eq_getElem_cons hi]
    rfl
  refine t.before_eq_nil hHere (fun h => hBack (h ▸ List.getElem_mem hi)) fun _ hNext => ?_
  cases hMore : back.drop (i + 1) with
  | nil => simp [hMore] at hNext
  | cons d more =>
    obtain rfl : d = '\n' := by simpa [hMore] using hNext
    exact hBack (List.mem_of_mem_drop (hMore ▸ List.mem_cons_self))

/-- What stood at a place is moved along. -/
def shift : Shift where
  __ := Shift.still
  offset := t.offset
  offset_lt_offset := t.offset_lt_offset

theorem addBefore?_shift (c : Comment) (line : String) (startLine start : Int) :
    (t.shift.comment c).addBefore? line startLine (t.offset start) =
      (c.addBefore? line startLine start).map t.shift.comment := by
  have hEnd : (t.shift.comment c).isEndOfLine = c.isEndOfLine := rfl
  rw [Comment.addBefore?, Comment.addBefore?, hEnd]
  split <;> rfl

variable {c : CommentToken}

/-- The text before a comment, and the text before it with the blanks put in. -/
theorem comment_line (hc : c ∈ (Scan.ofText text).comments) :
    ∃ front moved back rest more, text.toList = front ++ back ++ rest ∧ t.apply.toList = moved ++ back ++ more ∧
      (∀ z ∈ front.getLast?, z = '\n') ∧ (∀ z ∈ moved.getLast?, z = '\n') ∧ '\n' ∉ back ∧
      c.offset = (front ++ back).length ∧ (t.comment c).offset = (moved ++ back).length := by
  obtain ⟨before, note, after, hText, -, -, -, hOffset⟩ := scanned_ofText.comment_located c hc
  generalize note ++ after = rest at hText
  obtain ⟨front, back, rfl, hFront, hBack⟩ := exists_lines before
  have hSelf := t.along_before_comment hText hBack
  have hAlong : t.along 0 (front ++ back) = t.along 0 front ++ back := by
    rw [along_append, Nat.zero_add, hSelf]
  refine ⟨front, t.along 0 front, back, '#' :: rest, t.along (front ++ back).length ('#' :: rest) ++ t.finish,
    hText, ?_, hFront, ?_, hBack, by simpa using hOffset, ?_⟩
  · rw [apply, String.toList_ofList, hText, along_append, hAlong, Nat.zero_add, List.append_assoc]
  · rcases List.eq_nil_or_concat front with rfl | ⟨more, z, rfl⟩
    · simp [along]
    · obtain rfl : z = '\n' := hFront z (by simp)
      simp [along_append, along]
  · have hMoved := t.moved_add 0 (front ++ back)
    rw [Nat.zero_add, hAlong, moved, Nat.zero_add] at hMoved
    rw [comment, hOffset, zero_add, offset_natCast, hMoved]

theorem column_comment (hc : c ∈ (Scan.ofText text).comments) :
    (t.comment c).column t.apply.toList = c.column text.toList := by
  obtain ⟨front, moved, back, rest, more, hText, hApply, hFront, hMoved, hBack, hOffset, hNew⟩ := t.comment_line hc
  rw [hText, hApply, CommentToken.column_eq hFront hBack hOffset, CommentToken.column_eq hMoved hBack hNew]

theorem followsCode_comment (hc : c ∈ (Scan.ofText text).comments) :
    (t.comment c).followsCode t.apply.toList = c.followsCode text.toList := by
  obtain ⟨front, moved, back, rest, more, hText, hApply, hFront, hMoved, hBack, hOffset, hNew⟩ := t.comment_line hc
  rw [hText, hApply, CommentToken.followsCode_eq hFront hBack hOffset, CommentToken.followsCode_eq hMoved hBack hNew]

/-! ### Blank lines -/

/-- Lines after the end of a text. -/
def linesAfter (last : Int) (count : Nat) : List Int :=
  (List.range count).map fun i : Nat => last + 1 + i

theorem linesAfter_succ (last : Int) (count : Nat) :
    linesAfter last (count + 1) = (last + 1) :: linesAfter (last + 1) count := by
  rw [linesAfter, List.range_succ_eq_map, List.map_cons, List.map_map]
  refine congrArg₂ List.cons (by simp) (List.map_congr_left fun i _ => ?_)
  simp only [Function.comp_apply]
  omega

theorem emptyLines_lineFeed (line : Int) (blank : Bool) (cs : List Char) :
    emptyLines.go line blank ('\n' :: cs) = emptyLines.go line blank [] ++ emptyLines.go (line + 1) true cs := by
  cases blank <;> rfl

theorem emptyLines_white {cs : List Char} (h : White cs) (line : Int) (blank : Bool) :
    emptyLines.go line blank cs = emptyLines.go line blank [] ++ linesAfter line (cs.count '\n') := by
  induction h generalizing line blank with
  | nil => simp [linesAfter]
  | @blank c cs hc h ih =>
    rcases hc with rfl | rfl <;> simpa [emptyLines.go] using ih line blank
  | @lineFeed cs h ih =>
    rw [emptyLines_lineFeed, ih, List.count_cons_self, linesAfter_succ]
    rfl
  | @carriageReturn cs h ih =>
    have hReturn : emptyLines.go line blank ('\r' :: '\n' :: cs) = emptyLines.go line blank ('\n' :: cs) := by
      simp [emptyLines.go]
    rw [hReturn, emptyLines_lineFeed, ih, List.count_cons_of_ne (by decide), List.count_cons_self, linesAfter_succ]
    rfl

theorem emptyLines_along (cs : List Char) (place : Nat) (line : Int) (blank : Bool) :
    emptyLines.go line blank (t.along place cs ++ t.finish) =
      emptyLines.go line blank cs ++ linesAfter (line + cs.count '\n') (t.more.count '\n') := by
  have hBlanks : ∀ place line blank rest, emptyLines.go line blank (t.before place ++ rest) =
      emptyLines.go line blank rest := by
    intro place line blank rest
    have hRun := t.blank place
    generalize t.before place = run at hRun
    induction run with
    | nil => rfl
    | cons d run ih =>
      have hRest := ih fun c hc => hRun c (List.mem_cons_of_mem d hc)
      rcases hRun d List.mem_cons_self with rfl | rfl <;> simpa [emptyLines.go] using hRest
  induction cs generalizing place line blank with
  | nil =>
    rw [along, List.nil_append, emptyLines_white t.white_finish, finish, List.count_append, t.count_before]
    simp
  | cons c cs ih =>
    rw [along, List.append_assoc, hBlanks]
    by_cases hc : c = '\n'
    · subst hc
      have hCount : line + ((('\n' :: cs).count '\n' : Nat) : Int) = line + 1 + (cs.count '\n' : Nat) := by
        rw [List.count_cons_self]
        push_cast
        omega
      rw [List.cons_append, emptyLines_lineFeed, emptyLines_lineFeed, ih, hCount, List.append_assoc]
    · have hStep : ∀ rest, emptyLines.go line blank (c :: rest) =
          emptyLines.go line (blank && (c == ' ' || c == '\t' || c == '\r')) rest := by
        intro rest
        simp [emptyLines.go, hc]
      rw [List.cons_append, hStep, hStep, ih, List.count_cons_of_ne hc]

theorem emptyLines_apply :
    emptyLines t.apply = emptyLines text ++ linesAfter (1 + text.toList.count '\n') (t.more.count '\n') := by
  rw [emptyLines, apply, String.toList_ofList]
  exact t.emptyLines_along text.toList 0 1 true

section

variable {last stop : Int} (hEnding : (Scan.ofText text).ending = .complete last stop)
include hEnding

theorem contains_emptyLines_apply {line : Int} (hLine : line ≤ last) :
    (emptyLines t.apply).contains line = (emptyLines text).contains line := by
  have hLast := scanned_ofText.last_eq hEnding
  have hAfter : line ∉ linesAfter (1 + text.toList.count '\n') (t.more.count '\n') := by
    intro hMem
    obtain ⟨i, -, hi⟩ := List.mem_map.1 hMem
    omega
  rw [emptyLines_apply, Bool.eq_iff_iff, List.contains_iff_mem, List.contains_iff_mem, List.mem_append]
  exact or_iff_left hAfter

/-- A run of comments at the end of the text stands by itself before and after. -/
theorem concluded_apply (c : Comment) (hc : c.span.endLine ≤ last) :
    (t.shift.comment c).concluded (emptyLines t.apply).contains (last + t.more.count '\n') =
      t.shift.comment (c.concluded (emptyLines text).contains last) := by
  have hLast := scanned_ofText.last_eq hEnding
  have hSame : ((emptyLines t.apply).contains (c.span.endLine + 1) || c.span.endLine == last + t.more.count '\n') =
      ((emptyLines text).contains (c.span.endLine + 1) || c.span.endLine == last) := by
    rcases Int.lt_or_eq_of_le hc with hBefore | hAtEnd
    · rw [t.contains_emptyLines_apply hEnding (by omega)]
      have hOld : (c.span.endLine == last) = false := by simpa using by omega
      have hNew : (c.span.endLine == last + t.more.count '\n') = false := by simpa using by omega
      rw [hOld, hNew]
    · rw [hAtEnd, beq_self_eq_true, Bool.or_true]
      cases hCount : t.more.count '\n' with
      | zero => simp
      | succ n =>
        rw [Bool.or_eq_true, emptyLines_apply, hCount, linesAfter_succ, ← hLast]
        exact .inl (by simp)
  have hEnd : (t.shift.comment c).span.endLine = c.span.endLine := rfl
  rw [Comment.concluded, Comment.concluded, hEnd, hSame]
  split <;> rfl

theorem toComment_comment (hc : c ∈ (Scan.ofText text).comments) (affinity : Option Affinity) :
    (t.comment c).toComment t.apply.toList affinity = t.shift.comment (c.toComment text.toList affinity) := by
  simp only [CommentToken.toComment, t.column_comment hc, (t.moves_ofText hEnding).commentStops c hc]
  rfl

/-- Moved tokens are grouped into moved comments. -/
theorem groupFrom_apply {finish conclude : Comment → Comment}
    (hFinish : ∀ c : Comment, c.span.endLine ≤ last → conclude (t.shift.comment c) = t.shift.comment (finish c))
    (tokens : List CommentToken) (hTokens : ∀ x ∈ tokens, x ∈ (Scan.ofText text).comments)
    (open? : Option Comment) (hOpen : ∀ c ∈ open?, c.span.endLine ≤ last) (done : List Comment) :
    Comment.groupFrom t.apply.toList conclude (open?.map t.shift.comment) (done.map t.shift.comment)
        (tokens.map t.comment) =
      (Comment.groupFrom text.toList finish open? done tokens).map t.shift.comment := by
  have hClose : ∀ {open? : Option Comment}, (∀ c ∈ open?, c.span.endLine ≤ last) →
      ((open?.map t.shift.comment).map conclude).toList = (open?.map finish).toList.map t.shift.comment := by
    intro open? hOpen
    cases open? with
    | none => rfl
    | some c => exact congrArg (List.cons · []) (hFinish c (hOpen c rfl))
  induction tokens generalizing open? done with
  | nil => simp only [List.map_nil, Comment.groupFrom, hClose hOpen, List.map_append]
  | cons x tokens ih =>
    obtain ⟨hx, hRest⟩ := List.forall_mem_cons.1 hTokens
    simp only [List.map_cons, Comment.groupFrom, t.followsCode_comment hx]
    split
    · have hDone : (t.comment x).toComment t.apply.toList (some .endOfLine) :: ((open?.map t.shift.comment).map
            conclude).toList ++ done.map t.shift.comment =
          (x.toComment text.toList (some .endOfLine) :: (open?.map finish).toList ++ done).map t.shift.comment := by
        rw [t.toComment_comment hEnding hx, hClose hOpen, List.map_append, List.map_cons]
      rw [hDone]
      exact ih hRest none (by simp) _
    · -- lines do not move, so the same comments are on consecutive lines
      have hFilter : (open?.map t.shift.comment).filter (fun c => c.span.startLine - 1 == (t.comment x).line) =
          (open?.filter fun c => c.span.startLine - 1 == x.line).map t.shift.comment := by
        cases open? with
        | none => rfl
        | some c =>
          have hStart : ((t.shift.comment c).span.startLine - 1 == (t.comment x).line) =
              (c.span.startLine - 1 == x.line) := rfl
          cases h : c.span.startLine - 1 == x.line <;> simp [Option.filter, hStart, h]
      rw [hFilter]
      cases hFound : open?.filter fun c => c.span.startLine - 1 == x.line with
      | none =>
        have hDone : ((open?.map t.shift.comment).map conclude).toList ++ done.map t.shift.comment =
            ((open?.map finish).toList ++ done).map t.shift.comment := by
          rw [hClose hOpen, List.map_append]
        simp only [Option.map_none, t.toComment_comment hEnding hx, hDone]
        exact ih hRest (some _) (by simpa [CommentToken.toComment] using (scanned_ofText.le_last hEnding).2 x hx) _
      | some c =>
        have hEnd : c.span.endLine ≤ last := hOpen c (Option.filter_eq_some_iff.1 hFound).1
        have hJoined : ((t.shift.comment c).addBefore? (t.comment x).text (t.comment x).line
              (t.comment x).offset).getD (t.shift.comment c) =
            t.shift.comment ((c.addBefore? x.text x.line x.offset).getD c) := by
          rw [comment, addBefore?_shift, Option.getD_map]
        simp only [Option.map_some, hJoined]
        refine ih hRest (some _) ?_ _
        intro d hd
        obtain rfl := Option.some.inj hd
        cases hAdd : c.addBefore? x.text x.line x.offset with
        | none => exact hEnd
        | some d => exact (Comment.endLine_addBefore? hAdd).trans_le hEnd

theorem groupsOf_apply : groupsOf t.apply = (groupsOf text).map t.shift.comment := by
  have hMoves := t.moves_ofText hEnding
  have hLast : (Scan.ofText text).lastLine = last := by
    rw [Scan.lastLine, hEnding]
  have hLastApply : (Scan.ofText t.apply).lastLine = last + t.more.count '\n' := by
    obtain ⟨_, hEnd⟩ := hMoves.ending
    rw [Scan.lastLine, hEnd, hLast]
  have hGroups := t.groupFrom_apply hEnding (t.concluded_apply hEnding) (Scan.ofText text).comments.reverse
    (fun _ hc => List.mem_reverse.1 hc) none (by simp) []
  rw [List.map_reverse, ← hMoves.comments] at hGroups
  rw [groupsOf, groupsOf, hLast, hLastApply]
  exact hGroups

/-- The comments of the changed text are the comments of the text, moved. -/
theorem commentsOf_apply : commentsOf t.apply = (commentsOf text).map t.shift.comment := by
  have hMarks : markAfterBlank (emptyLines t.apply).contains
        (((groupsOf text).map t.shift.comment).map (·.span.startLine)) =
      markAfterBlank (emptyLines text).contains ((groupsOf text).map (·.span.startLine)) := by
    rw [List.map_map]
    refine markAfterBlank_congr (List.forall_mem_map.2 fun c hc => t.contains_emptyLines_apply hEnding ?_)
    exact Int.le_of_lt (Int.sub_one_lt_iff.2 (groupsOf_line_le hEnding c hc).1)
  rw [commentsOf, commentsOf, t.groupsOf_apply hEnding, Comment.markAll, Comment.markAll, hMarks, List.zip_map_left,
    List.map_map, List.map_map]
  refine List.map_congr_left fun pair _ => ?_
  obtain ⟨c, _ | _⟩ := pair <;> rfl

/-! ### The tree of the changed text -/

theorem moves_tokens : ∀ x ∈ (Scan.ofText text).tokens, x.Moves t.shift t.token := by
  intro x hx
  refine ⟨rfl, rfl, ?_⟩
  rw [Token.span, (t.moves_ofText hEnding).tokenStops x hx]
  rfl

/-- The tree that is read from the changed text is the tree of the text, moved. -/
theorem parse_apply {parsed : Specification} (h : (Scan.ofText text).parse = .ok parsed) :
    ∃ blocks span other, parsed = listOf span none blocks none ∧
      (∀ count, blocks.map (Block.relabel (Shift.below last count)) = blocks) ∧
      (Scan.ofText t.apply).parse = .ok (listOf other none (blocks.map (Block.relabel t.shift)) none) := by
  obtain ⟨line, offset, -, hDerived⟩ := Scan.parse_eq_ok.1 h
  obtain @⟨blocks, _, hBlocks⟩ := hDerived
  have hFixed := hBlocks.relabel_below fun x hx => by
    have hEnd := (scanned_ofText.le_last hEnding).1 x hx
    exact ⟨(Token.line_le_endLine x).trans hEnd, hEnd⟩
  have hMoved : Many Block.Derived (blocks.map (Block.relabel t.shift)) ((Scan.ofText text).tokens.map t.token) :=
    Many.move hBlocks (t.moves_tokens hEnding) fun _ _ hOwn hBlock => hBlock.move hOwn
  have hScan := t.moves_ofText hEnding
  rw [← hScan.tokens] at hMoved
  obtain ⟨_, hEnd⟩ := hScan.ending
  exact ⟨blocks, _, _, rfl, hFixed, Scan.parse_eq_ok.2 ⟨_, _, hEnd, .mk hMoved⟩⟩

/-- The finished tree of the changed text is the finished tree of the text, moved. -/
theorem ofText_apply {tidying : Tidying} {s : Specification} (h : Specification.ofText tidying text = .ok s) :
    ∃ other : Traits, other.Silent ∧
      Specification.ofText tidying t.apply = .ok { s.relabel t.shift with traits := other } := by
  rw [Specification.ofText_eq] at h ⊢
  cases hParsed : (Scan.ofText text).parse with
  | error refusal =>
    rw [hParsed] at h
    cases h
  | ok parsed =>
    obtain ⟨blocks, span, other, rfl, hFixed, hMoved⟩ := t.parse_apply hEnding hParsed
    rw [hParsed] at h
    obtain rfl := Except.ok.inj h
    have hPlaced : ∀ count, _ = _ := fun count =>
      Specification.receive_move (Shift.below last count) blocks span span (commentsOf text)
    simp only [hFixed, commentsOf_below hEnding] at hPlaced
    have hShifted := Specification.receive_move t.shift blocks span other (commentsOf text)
    rw [← t.commentsOf_apply hEnding] at hShifted
    refine ⟨{ span := other, yields := some 1 }, ⟨rfl, rfl⟩, ?_⟩
    rw [hMoved]
    simp only [hShifted]
    rw [Specification.markBlankLines_shift _ rfl fun line hLine => ?_, Specification.tidy_relabel t.shift.unseen]
    have hLast := Specification.startLines_le (fun count => (hPlaced count).symm) line hLine
    exact t.contains_emptyLines_apply hEnding (by omega)

end

end Trailing

end PolicyFormat.Policy

namespace PolicyFormat

open Policy Layout

/-! ### The beautified text -/

/-- Spaces and tabs before line breaks and at the end of a text, and lines after it, do not change how the text
is beautified, as long as they do not bring about its first carriage return with a line feed. -/
theorem beautify_ignores_trailing_blanks {options : Options} {text output : String}
    (h : beautify options text = .ok output) (t : Trailing text)
    (hEndings : ['\r', '\n'] <:+: t.apply.toList ↔ ['\r', '\n'] <:+: text.toList) :
    beautify options t.apply = .ok output := by
  obtain ⟨parsed, s, lines, hParsed, hTree, hLines, rfl⟩ := beautify_eq_ok h
  obtain ⟨last, stop, hEnding, -⟩ := Scan.parse_eq_ok.1 hParsed
  obtain ⟨other, hOther, hMoved⟩ := t.ofText_apply hEnding hTree
  refine beautify_eq_ok_iff.2 ⟨lines, ?_, by rw [lineEndingFor_congr hEndings]⟩
  have hSilent := (Specification.formed_ofText hTree).silent
  have hLayout := specificationLines_relabel t.shift.unseen hSilent hOther
    (show ({ pageWidth := options.pageWidth } : Frame).keepsBlank = none from rfl)
  rw [beautifiedLines, hTree] at hLines
  rw [beautifiedLines, hMoved]
  simp only [hLayout]
  exact hLines

/-- A body with comments and a string of two lines. -/
def commentedBody : String :=
  "body a b # c\n\x7bd => \"e \n\";\n# f\n\x7d"

/-- The ends of the lines of the body, without the end of the line within the string. -/
def commentedBodyEnds : List Nat :=
  [12, 25, 29, 31]

/-- Blanks at the ends of the lines of the body, and lines after it. -/
def commentedBodyBlanks : Trailing commentedBody :=
  have hEnds : ∀ place, (if place ∈ commentedBodyEnds then [' ', '\t'] else []) ≠ [] → place ∈ commentedBodyEnds := by
    intro place h
    by_contra hNot
    exact h (if_neg hNot)
  { before := fun place => if place ∈ commentedBodyEnds then [' ', '\t'] else []
    blank := by
      intro place c hc
      split at hc
      · simpa [or_comm] using hc
      · cases hc
    atBreak := by
      intro place h
      have hBreaks : ∀ place ∈ commentedBodyEnds,
          place = commentedBody.length ∨ BreaksAt commentedBody.toList place := by
        decide +kernel
      exact hBreaks place (hEnds place h)
    outside := by
      intro place h
      have hOutside : ∀ place ∈ commentedBodyEnds, ∀ t ∈ (Scan.ofText commentedBody).tokens, t.kind = .quoted →
          ¬ (t.offset < place ∧ place < t.stop) := by
        decide +kernel
      exact hOutside place (hEnds place h)
    more := ['\n', ' ', '\n', '\t']
    white := .lineFeed (.blank (.inl rfl) (.lineFeed (.blank (.inr rfl) .nil))) }

theorem commentedBody_ignores_trailing_blanks :
    commentedBodyBlanks.apply =
        "body a b # c \t\n\x7bd => \"e \n\"; \t\n# f \t\n\x7d \t\n \n\t" ∧
      ∃ output, beautify {} commentedBody = .ok output ∧
        beautify {} commentedBodyBlanks.apply = .ok output := by
  have hOk : (Scan.ofText commentedBody).parse.isOk = true := by decide +kernel
  obtain ⟨parsed, hParsed⟩ := exists_of_isOk hOk
  obtain ⟨output, hOutput⟩ := beautify_eq_ok_of_parse hParsed {}
  exact ⟨by decide +kernel, output, hOutput,
    beautify_ignores_trailing_blanks hOutput commentedBodyBlanks (by decide +kernel)⟩

end PolicyFormat
