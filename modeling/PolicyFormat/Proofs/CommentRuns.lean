import PolicyFormat.Proofs.Homes

/-! The comments of a text are what a reader takes for comments. A comment token with code before it on its
line is a comment by itself. All others are taken together in runs on consecutive lines that cannot be made
longer, and such a run stands by itself exactly if a blank line or the end of the text follows it. -/
namespace PolicyFormat.Policy

/-! ### Lines of a text -/

/-- Nothing but spaces and tabs stands before the place on its line. -/
def StartsItsLine (text : List Char) (place : Int) : Prop :=
  ∃ above indent, text.take place.toNat = above ++ indent ∧ (∀ z ∈ above.getLast?, z = '\n') ∧
    ∀ c ∈ indent, c = ' ' ∨ c = '\t'

/-- Nothing but spaces, tabs and carriage returns. -/
def IsBlank (content : List Char) : Prop :=
  ∀ c ∈ content, c = ' ' ∨ c = '\t' ∨ c = '\r'

/-- The line with this number, counted from 1, is blank. -/
def IsBlankLine (text : List Char) (line : Int) : Prop :=
  ∃ above : Nat, line = above + 1 ∧ ∃ content ∈ (text.splitOn '\n')[above]?, IsBlank content

/-- Some lines and the beginning of a line are told apart by the last line feed. -/
theorem lines_unique {above other start indent : List Char} (h : above ++ start = other ++ indent)
    (hAbove : ∀ z ∈ above.getLast?, z = '\n') (hOther : ∀ z ∈ other.getLast?, z = '\n')
    (hStart : '\n' ∉ start) (hIndent : '\n' ∉ indent) : start = indent := by
  rcases List.append_eq_append_iff.1 h with ⟨more, rfl, rfl⟩ | ⟨more, rfl, rfl⟩
  · rcases List.eq_nil_or_concat more with rfl | ⟨init, z, rfl⟩
    · rfl
    · have hz : z = '\n' := hOther z (by simp)
      exact absurd (by simp [hz]) hStart
  · rcases List.eq_nil_or_concat more with rfl | ⟨init, z, rfl⟩
    · rfl
    · have hz : z = '\n' := hAbove z (by simp)
      exact absurd (by simp [hz]) hIndent

/-- A comment follows code exactly if it does not start its line. -/
theorem CommentToken.followsCode_eq_false_iff {text : String} {t : CommentToken}
    (ht : t ∈ (Scan.ofText text).comments) :
    t.followsCode text.toList = false ↔ StartsItsLine text.toList t.offset := by
  obtain ⟨before, more, rest, hText, -, -, -, hOffset⟩ := scanned_ofText.comment_located t ht
  obtain ⟨above, start, rfl, hAbove, hStart⟩ := exists_lines before
  have hPlace : t.offset = (above ++ start).length := by simpa using hOffset
  have hTake : text.toList.take t.offset.toNat = above ++ start := by
    rw [hText, hPlace, Int.toNat_natCast, List.take_left]
  have hBlank : t.followsCode text.toList = false ↔ ∀ c ∈ start, c = ' ' ∨ c = '\t' := by
    rw [hText, followsCode_eq hAbove hStart hPlace, List.any_eq_false]
    refine forall₂_congr fun c _ => ?_
    simp only [Bool.and_eq_true, bne_iff_ne, ne_eq, not_and_or, not_not]
    exact or_comm
  rw [hBlank]
  constructor
  · intro hIndent
    exact ⟨above, start, hTake, hAbove, hIndent⟩
  · rintro ⟨other, indent, hSame, hOther, hIndent⟩
    have hNoFeed : '\n' ∉ indent := fun hFeed => by
      have := hIndent _ hFeed
      simp at this
    rw [lines_unique (hTake.symm.trans hSame) hAbove hOther hStart hNoFeed]
    exact hIndent

theorem splitOn_lineFeed (cs : List Char) : ('\n' :: cs).splitOn '\n' = [] :: cs.splitOn '\n' := by
  simp [List.splitOn, List.splitOnP_cons_eq_if_modifyHead]

theorem splitOn_cons_of_ne {c : Char} (hc : c ≠ '\n') (cs : List Char) :
    (c :: cs).splitOn '\n' = (cs.splitOn '\n').modifyHead (c :: ·) := by
  simp [List.splitOn, List.splitOnP_cons_eq_if_modifyHead, hc]

/-- From within a line, the empty lines are the blank ones; the first counts if it was blank so far. -/
theorem mem_emptyLines_go {line number : Int} {blank : Bool} {cs : List Char} : number ∈ emptyLines.go line blank cs ↔
      ∃ above : Nat, number = line + above ∧ (above = 0 → blank = true) ∧
        ∃ content ∈ (cs.splitOn '\n')[above]?, IsBlank content := by
  induction cs generalizing line blank with
  | nil =>
    simp only [emptyLines.go, List.splitOn_nil]
    constructor
    · intro h
      refine ⟨0, ?_, ?_, [], rfl, by simp [IsBlank]⟩ <;> cases blank <;> simp_all
    · rintro ⟨_ | above, rfl, hBlank, content, hContent, -⟩
      · simp [hBlank rfl]
      · simp at hContent
  | cons c cs ih =>
    by_cases hc : c = '\n'
    · subst hc
      have hGo : emptyLines.go line blank ('\n' :: cs) =
          (if blank then [line] else []) ++ emptyLines.go (line + 1) true cs := by
        cases blank <;> simp [emptyLines.go]
      rw [hGo, splitOn_lineFeed, List.mem_append, ih]
      constructor
      · rintro (h | ⟨above, rfl, -, hContent⟩)
        · refine ⟨0, ?_, ?_, [], rfl, by simp [IsBlank]⟩ <;> cases blank <;> simp_all
        · exact ⟨above + 1, by omega, by simp, hContent⟩
      · rintro ⟨_ | above, rfl, hBlank, hContent⟩
        · simp [hBlank rfl]
        · exact .inr ⟨above, by omega, by simp, hContent⟩
    · have hGo : emptyLines.go line blank (c :: cs) =
          emptyLines.go line (blank && (c == ' ' || c == '\t' || c == '\r')) cs := by
        simp [emptyLines.go, hc]
      obtain ⟨first, rest, hLines⟩ := List.exists_cons_of_ne_nil (List.splitOn_ne_nil '\n' cs)
      rw [hGo, ih, splitOn_cons_of_ne hc, hLines]
      refine exists_congr fun above => and_congr_right fun _ => ?_
      cases above with
      | zero => simp [IsBlank, and_assoc, or_assoc]
      | succ above => simp

/-- The empty lines of a text are its blank lines. -/
theorem mem_emptyLines_iff {text : String} {line : Int} : line ∈ emptyLines text ↔ IsBlankLine text.toList line := by
  rw [emptyLines, mem_emptyLines_go, IsBlankLine]
  refine exists_congr fun above => ?_
  rw [Int.add_comm 1]
  simp

/-! ### Comments and the tokens they are made of -/

/-- The comment is made of one token, which has code before it on its line. -/
structure Comment.EndsLine (text : String) (t : CommentToken) (c : Comment) : Prop where
  afterCode : ¬ StartsItsLine text.toList t.offset
  lines : c.lines = [t.text]
  span : c.span = ⟨t.line, t.line, t.offset, t.stop⟩
  affinity : c.affinity = some .endOfLine

/-- The comment is made of a run of tokens that start their lines, from `first` to `last` on one line after
the other. No other such token stands right above or right below the run. -/
structure Comment.Joins (text : String) (run : List CommentToken) (first last : CommentToken) (c : Comment) :
    Prop where
  head : run.head? = some first
  getLast : run.getLast? = some last
  own : ∀ t ∈ run, StartsItsLine text.toList t.offset
  consecutive : run.IsChain (fun a b => a.line + 1 = b.line)
  maximal : ∀ t ∈ (Scan.ofText text).comments, StartsItsLine text.toList t.offset →
    t.line + 1 ≠ first.line ∧ last.line + 1 ≠ t.line
  lines : c.lines = run.map (·.text)
  span : c.span = ⟨first.line, last.line, first.offset, last.stop⟩
  affinity : c.affinity = some .standalone ∨ c.affinity = some .nextNode
  standalone : c.affinity = some .standalone ↔
    IsBlankLine text.toList (last.line + 1) ∨ last.line = (Scan.ofText text).lastLine

/-- The comment is made of the tokens, which are all that belong to it. -/
def Comment.MadeOf (text : String) (run : List CommentToken) (c : Comment) : Prop :=
  (∃ t, run = [t] ∧ c.EndsLine text t) ∨ ∃ first last, c.Joins text run first last

theorem Comment.MadeOf.mark {text : String} {run : List CommentToken} {c : Comment} (h : c.MadeOf text run)
    (mark : Bool) : Comment.MadeOf text run { c with afterBlank := mark } := by
  rcases h with ⟨t, hRun, h⟩ | ⟨first, last, h⟩
  · exact .inl ⟨t, hRun, h.afterCode, h.lines, h.span, h.affinity⟩
  · exact .inr ⟨first, last, h.head, h.getLast, h.own, h.consecutive, h.maximal, h.lines, h.span, h.affinity,
      h.standalone⟩

theorem Comment.affinity_concluded (isEmptyLine : Int → Bool) (lastLine : Int) (c : Comment) :
    (c.concluded isEmptyLine lastLine).affinity =
      if isEmptyLine (c.span.endLine + 1) || c.span.endLine == lastLine then some .standalone
      else some .nextNode := by
  unfold concluded
  split <;> rfl

section

variable {P : CommentToken → Prop} {tokens : List CommentToken} {t u : CommentToken}

/-- Of tokens on ever later lines, only the last can stand right above a token that follows them. -/
theorem not_above_of_getLast (hOrdered : tokens.Pairwise (fun a b => a.line < b.line))
    (hBefore : ∀ a ∈ tokens, a.line < u.line) (h : ∀ a ∈ tokens.getLast?, P a → a.line + 1 ≠ u.line)
    (ht : t ∈ tokens) (hP : P t) : t.line + 1 ≠ u.line := by
  rcases List.eq_nil_or_concat tokens with rfl | ⟨init, last, rfl⟩
  · cases ht
  · rw [List.concat_eq_append] at *
    rcases List.mem_append.1 ht with hInit | hLast
    · have hLine := (List.pairwise_append.1 hOrdered).2.2 t hInit last (by simp)
      have hNext := hBefore last (by simp)
      omega
    · obtain rfl : t = last := by simpa using hLast
      exact h t (by simp) hP

/-- Of tokens on ever later lines, only the first can stand right below a token before them. -/
theorem not_below_of_head (hOrdered : tokens.Pairwise (fun a b => a.line < b.line))
    (hAfter : ∀ a ∈ tokens, u.line < a.line) (h : ∀ a ∈ tokens.head?, P a → u.line + 1 ≠ a.line)
    (ht : t ∈ tokens) (hP : P t) : u.line + 1 ≠ t.line := by
  cases tokens with
  | nil => cases ht
  | cons first rest =>
    rcases List.mem_cons.1 ht with rfl | hRest
    · exact h t rfl hP
    · have hLine := (List.pairwise_cons.1 hOrdered).1 t hRest
      have hFirst := hAfter first (by simp)
      omega

end

section

variable {text : String}

/-- The tokens of a run stand between its first and its last. -/
theorem IsRun.line_mem {run : List CommentToken} {first last t : CommentToken}
    (h : IsRun text.toList run first last) (hOrdered : run.Pairwise (fun a b => a.line < b.line)) (ht : t ∈ run) :
    first.line ≤ t.line ∧ t.line ≤ last.line := by
  obtain ⟨rest, rfl⟩ := List.head?_eq_some_iff.1 h.head
  obtain ⟨init, hInit⟩ := List.getLast?_eq_some_iff.1 h.getLast
  constructor
  · rcases List.mem_cons.1 ht with rfl | hRest
    · exact Int.le_refl _
    · exact Int.le_of_lt ((List.pairwise_cons.1 hOrdered).1 t hRest)
  · rw [hInit] at ht hOrdered
    rcases List.mem_append.1 ht with hFront | hLast
    · exact Int.le_of_lt ((List.pairwise_append.1 hOrdered).2.2 t hFront last (by simp))
    · exact Int.le_of_eq (by rw [List.mem_singleton.1 hLast])

/-- A run that ends before a token that does not go on with it, and starts after one that it does not go on
with, is all of a comment. -/
theorem IsRun.joins {run before after : List CommentToken} {first last : CommentToken}
    (hRun : IsRun text.toList run first last) (hAll : (Scan.ofText text).comments = before ++ (run ++ after))
    (hStart : ∀ t ∈ before.getLast?, t.followsCode text.toList = false → t.line + 1 ≠ first.line)
    (hEnd : ∀ t ∈ after.head?, t.followsCode text.toList = false → last.line + 1 ≠ t.line) :
    Comment.Joins text run first last
      ((CommentToken.block text.toList first last (run.map (·.text))).concluded (emptyLines text).contains
        (Scan.ofText text).lastLine) := by
  have hOrdered : (before ++ (run ++ after)).Pairwise (fun a b => a.line < b.line) := by
    rw [← hAll]
    exact scanned_ofText.comments_ordered.imp fun h => h.1
  obtain ⟨hBefore, hRest, hAcross⟩ := List.pairwise_append.1 hOrdered
  obtain ⟨hInner, hAfter, hBeyond⟩ := List.pairwise_append.1 hRest
  have hFirst : first ∈ run := List.mem_of_mem_head? hRun.head
  have hLast : last ∈ run := List.mem_of_getLast? hRun.getLast
  have hOwn : ∀ {t}, t ∈ (Scan.ofText text).comments →
      (t.followsCode text.toList = false ↔ StartsItsLine text.toList t.offset) :=
    CommentToken.followsCode_eq_false_iff
  have hAffinity := Comment.affinity_concluded (emptyLines text).contains (Scan.ofText text).lastLine
    (CommentToken.block text.toList first last (run.map (·.text)))
  refine ⟨hRun.head, hRun.getLast, fun t ht => (hOwn (by simp [hAll, ht])).1 (hRun.own t ht), hRun.lines, ?_,
    by simp [CommentToken.block], by simp [CommentToken.block], ?_, ?_⟩
  · intro t ht hStarts
    have hCode := (hOwn ht).2 hStarts
    rw [hAll, List.mem_append, List.mem_append] at ht
    rcases ht with ht | ht | ht
    · have hLine := hAcross t ht last (by simp [hLast])
      exact ⟨not_above_of_getLast hBefore (fun a ha => hAcross a ha first (by simp [hFirst])) hStart ht hCode,
        by omega⟩
    · have hLines := hRun.line_mem hInner ht
      exact ⟨by omega, by omega⟩
    · have hLine := hBeyond first hFirst t ht
      exact ⟨by omega, not_below_of_head hAfter (fun a ha => hBeyond last hLast a ha) hEnd ht hCode⟩
  · rw [hAffinity]
    split
    · exact .inl rfl
    · exact .inr rfl
  · rw [hAffinity, ← mem_emptyLines_iff]
    simp [CommentToken.block, or_iff_not_imp_left]

/-- Tokens fall into the parts that their comments are made of, whatever tokens stand before them, if no run
goes on from those. -/
theorem Grouped.madeOf {tokens : List CommentToken} {comments : List Comment}
    (h : Grouped text.toList (Comment.concluded (emptyLines text).contains (Scan.ofText text).lastLine)
      tokens comments)
    (before : List CommentToken) (hAll : (Scan.ofText text).comments = before ++ tokens)
    (hStart : ∀ t ∈ before.getLast?, t.followsCode text.toList = false →
      ∀ next ∈ tokens.head?, next.followsCode text.toList = false → t.line + 1 ≠ next.line) :
    ∃ parts : List (List CommentToken), parts.flatten = tokens ∧
      List.Forall₂ (Comment.MadeOf text) parts comments := by
  induction h generalizing before with
  | nil => exact ⟨[], rfl, .nil⟩
  | @afterCode t ts cs hCode h ih =>
    obtain ⟨parts, rfl, hParts⟩ := ih (before ++ [t]) (by simp [hAll]) (by simp [hCode])
    have hStarts : ¬ StartsItsLine text.toList t.offset := by
      rw [← CommentToken.followsCode_eq_false_iff (by simp [hAll]), hCode]
      decide
    exact ⟨[t] :: parts, by simp, .cons (.inl ⟨t, rfl, hStarts, rfl, rfl, rfl⟩) hParts⟩
  | @run run ts first last cs hRun hEnd h ih =>
    have hHead : first ∈ (run ++ ts).head? := by
      obtain ⟨rest, rfl⟩ := List.head?_eq_some_iff.1 hRun.head
      rfl
    have hFirst : first.followsCode text.toList = false := hRun.own first (List.mem_of_mem_head? hRun.head)
    have hLast : (before ++ run).getLast? = some last := by
      rw [List.getLast?_append, hRun.getLast]
      rfl
    obtain ⟨parts, rfl, hParts⟩ := ih (before ++ run) (by simp [hAll]) fun t ht hOwn next hNext hNextOwn => by
      obtain rfl : last = t := Option.some.inj (hLast.symm.trans ht)
      exact hEnd next hNext hNextOwn
    have hJoins := hRun.joins hAll (fun t ht hOwn => hStart t ht hOwn first hHead hFirst) hEnd
    exact ⟨run :: parts, rfl, .cons (.inr ⟨first, last, hJoins⟩) hParts⟩

end

/-- The comments of a text are what its comment tokens fall into, in their order: single tokens with code
before them on their lines, and the maximal runs of the others on consecutive lines. A run stands by itself
if the line after it is blank or it reaches the last line of the text, and belongs to what follows
otherwise. -/
theorem comments_are_maximal_runs (text : String) :
    (commentsOf text).flatMap (·.lines) = (Scan.ofText text).comments.map (·.text) ∧
      ∃ parts : List (List CommentToken), parts.flatten = (Scan.ofText text).comments ∧
        List.Forall₂ (Comment.MadeOf text) parts (commentsOf text) := by
  have hGrouped := grouped_groupsOf text
  obtain ⟨parts, hParts, hMade⟩ := hGrouped.madeOf [] rfl (by simp)
  have hLines : (commentsOf text).map (·.lines) = (groupsOf text).map (·.lines) :=
    Comment.map_markAll _ (fun _ _ => rfl) _ _
  refine ⟨?_, parts, hParts, ?_⟩
  · rw [List.flatMap_def, hLines, ← List.flatMap_def, hGrouped.lines_eq]
  · have hSame : (commentsOf text).map (fun c => { c with afterBlank := false }) =
        (groupsOf text).map (fun c => { c with afterBlank := false }) :=
      Comment.map_markAll _ (fun _ _ => rfl) _ _
    have hUnmarked : List.Forall₂ (Comment.MadeOf text) parts
        ((groupsOf text).map (fun c => { c with afterBlank := false })) :=
      List.forall₂_map_right_iff.2 (hMade.imp fun run c h => h.mark false)
    rw [← hSame] at hUnmarked
    exact (List.forall₂_map_right_iff.1 hUnmarked).imp fun run c h => h.mark c.afterBlank

end PolicyFormat.Policy
