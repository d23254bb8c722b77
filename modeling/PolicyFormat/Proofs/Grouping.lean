import PolicyFormat.Policy.Specification
import PolicyFormat.Proofs.Formed
import PolicyFormat.Proofs.Scanned

/-! How comment tokens become comments. A token that follows code is a comment by itself; all others
are taken together in runs on consecutive lines, as long as possible. No token of the file touches
the lines of such a run. -/
namespace PolicyFormat.Policy

open Layout

/-! ### Runs of tokens -/

/-- The comment that consists of tokens on consecutive lines, from `first` to `last`. -/
def CommentToken.block (text : List Char) (first last : CommentToken) (lines : List String) : Comment :=
  { span := ⟨first.line, last.line, first.offset, last.stop⟩
    lines
    affinity := none
    column := last.column text }

/-- Tokens that stand on lines of their own, one line after the other. -/
structure IsRun (text : List Char) (run : List CommentToken) (first last : CommentToken) : Prop where
  head : run.head? = some first
  getLast : run.getLast? = some last
  own : ∀ t ∈ run, t.followsCode text = false
  lines : run.IsChain (fun a b => a.line + 1 = b.line)

/-- The comments that tokens are grouped into. A run takes in the token after it if it can. -/
inductive Grouped (text : List Char) (finish : Comment → Comment) : List CommentToken → List Comment → Prop where
  | nil : Grouped text finish [] []
  | afterCode {t : CommentToken} {ts : List CommentToken} {cs : List Comment}
      (hCode : t.followsCode text = true) (h : Grouped text finish ts cs) :
      Grouped text finish (t :: ts) (t.toComment text (some .endOfLine) :: cs)
  | run {run ts : List CommentToken} {first last : CommentToken} {cs : List Comment}
      (hRun : IsRun text run first last)
      (hEnd : ∀ next ∈ ts.head?, next.followsCode text = false → last.line + 1 ≠ next.line)
      (h : Grouped text finish ts cs) :
      Grouped text finish (run ++ ts) (finish (CommentToken.block text first last (run.map (·.text))) :: cs)

/-- The open comment is made of a run that stands before the tokens `ts`. Nothing is open at the end of
the text and before a token that follows code. -/
inductive OpenRun (text : List Char) : Option Comment → List CommentToken → List CommentToken → Prop where
  | none {ts : List CommentToken} (hCode : ∀ next ∈ ts.head?, next.followsCode text = true) : OpenRun text none [] ts
  | some {run ts : List CommentToken} {first last : CommentToken} (hRun : IsRun text run first last)
      (hEnd : ∀ next ∈ ts.head?, next.followsCode text = false → last.line + 1 ≠ next.line) :
      OpenRun text (some (CommentToken.block text first last (run.map (·.text)))) run ts

namespace IsRun

variable {text : List Char} {run : List CommentToken} {first last t : CommentToken}

theorem single (h : t.followsCode text = false) : IsRun text [t] t t :=
  ⟨rfl, rfl, by simpa using h, by simp⟩

theorem cons (hRun : IsRun text run first last) (h : t.followsCode text = false)
    (hLine : t.line + 1 = first.line) : IsRun text (t :: run) t last := by
  obtain ⟨rest, rfl⟩ : ∃ rest, run = first :: rest := List.head?_eq_some_iff.1 hRun.head
  refine ⟨rfl, by simpa using hRun.getLast, ?_, ?_⟩
  · simpa using ⟨h, by simpa using hRun.own⟩
  · exact List.isChain_cons_cons.2 ⟨hLine, hRun.lines⟩

end IsRun

section

variable {text : List Char} {finish : Comment → Comment}

variable {open? : Option Comment} {done : List Comment}

theorem Grouped.finish_open {run ts : List CommentToken} (hOpen : OpenRun text open? run ts)
    (hDone : Grouped text finish ts done) :
    Grouped text finish (run ++ ts) ((open?.map finish).toList ++ done) := by
  cases hOpen with
  | none => exact hDone
  | some hRun hEnd => exact .run hRun hEnd hDone

theorem grouped_groupFrom (run ts reversed : List CommentToken) (hOpen : OpenRun text open? run ts)
    (hDone : Grouped text finish ts done) :
    Grouped text finish (reversed.reverse ++ (run ++ ts)) (Comment.groupFrom text finish open? done reversed) := by
  induction reversed generalizing open? run ts done with
  | nil => simpa [Comment.groupFrom] using hDone.finish_open hOpen
  | cons t reversed ih =>
    have hTokens : (t :: reversed).reverse ++ (run ++ ts) = reversed.reverse ++ (t :: (run ++ ts)) := by
      simp
    rw [hTokens, Comment.groupFrom]
    split
    · rename_i hCode
      have hNext : Grouped text finish _ _ := .afterCode hCode (hDone.finish_open hOpen)
      exact ih [] _ (.none (by simp [hCode])) hNext
    · rename_i hCode
      have hOwn : t.followsCode text = false := by simpa using hCode
      split
      · rename_i c hc
        obtain ⟨rfl, hLine⟩ := Option.filter_eq_some_iff.1 hc
        cases hOpen with
        | @some run ts first last hRun hEnd =>
          have hLine : t.line + 1 = first.line := by
            simp [CommentToken.block] at hLine
            omega
          exact ih (t :: run) _ (.some (hRun.cons hOwn hLine) hEnd) hDone
      · rename_i hNone
        refine ih [t] _ (.some (.single hOwn) ?_) (hDone.finish_open hOpen)
        -- the open run does not start right below the token
        intro next hNext hNextOwn
        cases hOpen with
        | none hAfter => simp [hAfter next hNext] at hNextOwn
        | @some run ts first last hRun hEnd =>
          obtain ⟨rest, rfl⟩ : ∃ rest, run = first :: rest := List.head?_eq_some_iff.1 hRun.head
          obtain rfl : first = next := by simpa using hNext
          simp [CommentToken.block] at hNone
          omega

/-- A run as it is kept: it stands by itself before a blank line and at the end of the text, and
belongs to the code after it otherwise. -/
def Comment.concluded (isEmptyLine : Int → Bool) (lastLine : Int) (c : Comment) : Comment :=
  if isEmptyLine (c.span.endLine + 1) || c.span.endLine == lastLine then
    { c with affinity := some .standalone }
  else { c with affinity := some .nextNode }

/-- The comments of a file are what its comment tokens are grouped into. -/
theorem grouped_group (text : List Char) (isEmptyLine : Int → Bool) (lastLine : Int) (tokens : List CommentToken) :
    Grouped text (Comment.concluded isEmptyLine lastLine) tokens
      (Comment.group text isEmptyLine lastLine tokens) := by
  have hGrouped : Grouped text (Comment.concluded isEmptyLine lastLine) _
      (Comment.groupFrom text _ none [] tokens.reverse) :=
    grouped_groupFrom [] [] tokens.reverse (.none (by simp)) .nil
  simp only [List.reverse_reverse, List.append_nil] at hGrouped
  exact hGrouped

end

section

variable (isEmptyLine : Int → Bool) (lastLine : Int) (c : Comment)

@[simp] theorem Comment.span_concluded : (c.concluded isEmptyLine lastLine).span = c.span := by
  unfold concluded
  split <;> rfl

@[simp] theorem Comment.lines_concluded : (c.concluded isEmptyLine lastLine).lines = c.lines := by
  unfold concluded
  split <;> rfl

@[simp] theorem Comment.keepsBlank_concluded : (c.concluded isEmptyLine lastLine).keepsBlank = c.keepsBlank := by
  unfold concluded
  split <;> rfl

end

/-! ### What is known of the comments of a file -/

variable {text : List Char} {run : List CommentToken} {first last : CommentToken}

/-- The comment stands on one line, or no token touches its lines. -/
structure Comment.Apart (tokens : List Token) (c : Comment) : Prop where
  ordered : c.span.startLine ≤ c.span.endLine
  apart : c.span.startLine = c.span.endLine ∨ ∀ t ∈ tokens, t.endLine < c.span.startLine ∨ c.span.endLine < t.line

theorem IsRun.line_le (h : IsRun text run first last) :
    first.line ≤ last.line ∧ ∀ line, first.line ≤ line → line ≤ last.line → ∃ t ∈ run, t.line = line := by
  obtain ⟨hHead, hLast, -, hLines⟩ := h
  induction run generalizing first with
  | nil => cases hHead
  | cons t run ih =>
    obtain rfl : t = first := by simpa using hHead
    cases run with
    | nil =>
      obtain rfl : t = last := by simpa using hLast
      exact ⟨Int.le_refl _, fun line hFirst hLast => ⟨t, by simp, by omega⟩⟩
    | cons next run =>
      obtain ⟨hStep, hRest⟩ := List.isChain_cons_cons.1 hLines
      obtain ⟨hLe, hEach⟩ := ih rfl (by simpa using hLast) hRest
      refine ⟨by omega, fun line hFirst hLast => ?_⟩
      by_cases hLine : line = t.line
      · exact ⟨t, by simp, hLine.symm⟩
      · obtain ⟨found, hFound, rfl⟩ := hEach line (by omega) hLast
        exact ⟨found, by simp [hFound], rfl⟩

/-- A token touches the line of a comment token only if the comment follows code. -/
def Detached (text : List Char) (tokens : List Token) (ts : List CommentToken) : Prop :=
  ∀ c ∈ ts, c.followsCode text = false → ∀ t ∈ tokens, t.endLine < c.line ∨ c.line < t.line

theorem IsRun.apart {tokens : List Token} (hRun : IsRun text run first last) (h : Detached text tokens run) :
    ∀ t ∈ tokens, t.endLine < first.line ∨ last.line < t.line := by
  intro t ht
  obtain ⟨hLe, hEach⟩ := hRun.line_le
  by_contra hBoth
  have hLine : t.line ≤ t.endLine := by
    simp only [Token.endLine]
    omega
  -- the first line that both touch has a comment on it
  obtain ⟨line, hShared⟩ : ∃ line, (first.line ≤ line ∧ line ≤ last.line) ∧ t.line ≤ line ∧ line ≤ t.endLine := by
    by_cases hFirst : first.line ≤ t.line
    · exact ⟨t.line, by omega⟩
    · exact ⟨first.line, by omega⟩
  obtain ⟨c, hc, rfl⟩ := hEach line hShared.1.1 hShared.1.2
  have := h c hc (hRun.own c hc) t ht
  omega

section

variable {text : List Char} {isEmptyLine : Int → Bool} {lastLine : Int} {ts : List CommentToken}
  {cs : List Comment}

theorem Grouped.lines_eq (h : Grouped text (Comment.concluded isEmptyLine lastLine) ts cs) :
    cs.flatMap (·.lines) = ts.map (·.text) := by
  induction h with
  | nil => rfl
  | afterCode hCode h ih => simp [CommentToken.toComment, ih]
  | run hRun hEnd h ih => simp [CommentToken.block, ih]

theorem Grouped.legible (h : Grouped text (Comment.concluded isEmptyLine lastLine) ts cs)
    (hNotes : ∀ t ∈ ts, IsNote t.text) : ∀ c ∈ cs, c.Legible := by
  induction h with
  | nil => simp
  | afterCode hCode h ih =>
    simp only [List.mem_cons, forall_eq_or_imp] at hNotes ⊢
    exact ⟨⟨by simp [CommentToken.toComment], by simpa [CommentToken.toComment] using hNotes.1⟩, ih hNotes.2⟩
  | @run run ts first last cs hRun hEnd h ih =>
    simp only [List.mem_append, List.mem_cons, forall_eq_or_imp] at hNotes ⊢
    refine ⟨⟨?_, ?_⟩, ih (fun t ht => hNotes t (.inr ht))⟩
    · rintro hNil
      have hHead := hRun.head
      simp_all [CommentToken.block]
    · simpa [CommentToken.block] using fun t ht => hNotes t (.inl ht)

theorem Grouped.apart (h : Grouped text (Comment.concluded isEmptyLine lastLine) ts cs)
    {tokens : List Token} (hDetached : Detached text tokens ts) : ∀ c ∈ cs, c.Apart tokens := by
  induction h with
  | nil => simp
  | afterCode hCode h ih =>
    simp only [List.mem_cons, forall_eq_or_imp]
    exact ⟨⟨Int.le_refl _, .inl rfl⟩, ih (fun c hc => hDetached c (List.mem_cons_of_mem _ hc))⟩
  | @run run ts first last cs hRun hEnd h ih =>
    have hOwn : Detached text tokens run := fun c hc => hDetached c (List.mem_append_left _ hc)
    simp only [List.mem_cons, forall_eq_or_imp]
    refine ⟨⟨?_, .inr ?_⟩, ih (fun c hc => hDetached c (List.mem_append_right _ hc))⟩
    · simpa [CommentToken.block] using hRun.line_le.1
    · simpa [CommentToken.block] using hRun.apart hOwn

/-- Comments start on ever later lines and at ever later offsets. -/
theorem Grouped.ordered (h : Grouped text (Comment.concluded isEmptyLine lastLine) ts cs)
    (hTokens : ts.Pairwise (fun a b => a.line < b.line ∧ a.offset < b.offset)) :
    cs.Pairwise (fun c d => c.span.endLine < d.span.startLine ∧ c.span.start < d.span.start) ∧
      ∀ c ∈ cs, ∃ t ∈ ts, ∃ u ∈ ts, c.span.startLine = t.line ∧ c.span.start = t.offset ∧
        c.span.endLine = u.line := by
  induction h with
  | nil => simp
  | @afterCode t ts cs hCode h ih =>
    obtain ⟨hFirst, hRest⟩ := List.pairwise_cons.1 hTokens
    obtain ⟨hOrdered, hEach⟩ := ih hRest
    refine ⟨List.pairwise_cons.2 ⟨fun d hd => ?_, hOrdered⟩, ?_⟩
    · obtain ⟨first, hMem, last, -, hLine, hOffset, -⟩ := hEach d hd
      simpa [CommentToken.toComment, hLine, hOffset] using hFirst first hMem
    · simp only [List.mem_cons, forall_eq_or_imp]
      refine ⟨⟨t, .inl rfl, t, .inl rfl, rfl, rfl, rfl⟩, fun d hd => ?_⟩
      obtain ⟨first, hMem, last, hLast, hPlace⟩ := hEach d hd
      exact ⟨first, .inr hMem, last, .inr hLast, hPlace⟩
  | @run run ts first last cs hRun hEnd h ih =>
    obtain ⟨hOwn, hRest, hAcross⟩ := List.pairwise_append.1 hTokens
    obtain ⟨hOrdered, hEach⟩ := ih hRest
    have hFirst : first ∈ run := List.mem_of_mem_head? hRun.head
    have hLast : last ∈ run := List.mem_of_getLast? hRun.getLast
    refine ⟨List.pairwise_cons.2 ⟨fun d hd => ?_, hOrdered⟩, ?_⟩
    · obtain ⟨next, hMem, -, -, hLine, hOffset, -⟩ := hEach d hd
      have hNext := hAcross first hFirst next hMem
      have hNextLast := hAcross last hLast next hMem
      simpa [CommentToken.block, hLine, hOffset] using ⟨hNextLast.1, hNext.2⟩
    · simp only [List.mem_cons, forall_eq_or_imp, List.mem_append]
      refine ⟨⟨first, .inl hFirst, last, .inl hLast, by simp [CommentToken.block]⟩, fun d hd => ?_⟩
      obtain ⟨next, hMem, other, hOther, hPlace⟩ := hEach d hd
      exact ⟨next, .inr hMem, other, .inr hOther, hPlace⟩

theorem Grouped.keepsBlank_eq (h : Grouped text (Comment.concluded isEmptyLine lastLine) ts cs) :
    ∀ c ∈ cs, c.keepsBlank = false := by
  induction h with
  | nil => simp
  | afterCode hCode h ih => simpa [CommentToken.toComment] using ih
  | run hRun hEnd h ih => simpa [CommentToken.block] using ih

end

/-- No token touches the line of a comment, unless the comment follows code. -/
theorem Scan.detached (text : String) :
    Detached text.toList (Scan.ofText text).tokens (Scan.ofText text).comments := by
  intro c hc hOwn t ht
  rcases scanned_ofText.token_apart t ht c hc with hBefore | hAfter
  · have hOther : t.endLine ≠ c.line := fun hLine => by
      have hCode := scanned_ofText.followsCode [] rfl t ht c hc hLine
      simp_all
    exact .inl (by omega)
  · exact .inr hAfter

/-! ### The comments of a text -/

theorem length_markAfterBlank (isEmpty : Int → Bool) (starts : List Int) :
    (markAfterBlank isEmpty starts).length = starts.length := by
  have hGo : ∀ previous, (markAfterBlank.go isEmpty previous starts).1.length = starts.length := by
    induction starts with
    | nil => simp [markAfterBlank.go]
    | cons line rest ih =>
      intro previous
      simp only [markAfterBlank.go]
      split <;> simp [ih]
  exact hGo (-1)

/-- Marking comments changes nothing but the marks. -/
theorem Comment.map_markAll {β : Type} (f : Comment → β)
    (hMark : ∀ c mark, f { c with afterBlank := mark } = f c) (isEmpty : Int → Bool)
    (comments : List Comment) : (Comment.markAll isEmpty comments).map f = comments.map f := by
  have hLength := length_markAfterBlank isEmpty (comments.map (·.span.startLine))
  rw [Comment.markAll]
  generalize markAfterBlank isEmpty (comments.map (·.span.startLine)) = marks at hLength ⊢
  rw [List.length_map] at hLength
  induction comments generalizing marks with
  | nil => simp
  | cons c rest ih =>
    obtain ⟨mark, marks, rfl⟩ := List.exists_cons_of_length_eq_add_one hLength
    have hRest := ih marks (by simpa using hLength)
    cases mark <;> simp_all

/-- The comments that the comment tokens of a text are grouped into. -/
def groupsOf (text : String) : List Comment :=
  Comment.group text.toList (emptyLines text).contains (Scan.ofText text).lastLine (Scan.ofText text).comments

/-- The comments of a text, with the blank lines before them marked. -/
def commentsOf (text : String) : List Comment :=
  Comment.markAll (emptyLines text).contains (groupsOf text)

theorem Specification.ofText_eq (tidying : Tidying) (text : String) : Specification.ofText tidying text =
      match (Scan.ofText text).parse with
      | .error refusal => .error (refusal.report text)
      | .ok parsed =>
        .ok ((((Specification.receive parsed (commentsOf text)).1).markBlankLines
          (emptyLines text).contains).tidy tidying) :=
  rfl

theorem Specification.exists_of_ofText {tidying : Tidying} {text : String} {s : Specification}
    (h : Specification.ofText tidying text = .ok s) :
    ∃ parsed, (Scan.ofText text).parse = .ok parsed ∧
      (((Specification.receive parsed (commentsOf text)).1).markBlankLines (emptyLines text).contains).tidy tidying =
        s := by
  rw [Specification.ofText_eq] at h
  split at h
  · cases h
  · exact ⟨_, ‹_›, Except.ok.inj h⟩

end PolicyFormat.Policy
