import PolicyFormat.Proofs.Beautified
import PolicyFormat.Proofs.Descent

/-! A comment behind the semicolon of a promise stays there: the promise that it was given to puts it at
the end of its last line, and no other comment of the promise has a better claim to that place. -/
namespace PolicyFormat.Policy

open Layout

variable {c : Comment} {p q : Promise}

/-! ### The comment at the end of a node -/

/-- What is not less than all before it stays last when a list is sorted. -/
theorem mergeSort_concat {α : Type} (le : α → α → Bool) (trans : ∀ a b c, le a b → le b c → le a c)
    (total : ∀ a b, le a b || le b a) {x : α} :
    ∀ {xs : List α}, (∀ y ∈ xs, le y x) → ∃ sorted, (xs ++ [x]).mergeSort le = sorted ++ [x]
  | [], _ => ⟨[], by simp⟩
  | y :: xs, h => by
    obtain ⟨sorted, hSorted⟩ := mergeSort_concat le trans total fun z hz => h z (List.mem_cons_of_mem _ hz)
    obtain ⟨before, after, hInsert, hRest, hBefore⟩ := List.mergeSort_cons trans total y (xs ++ [x])
    rw [List.cons_append, hInsert]
    rcases List.eq_nil_or_concat after with rfl | ⟨init, last, rfl⟩
    · have hSame : before = sorted ++ [x] := by simpa [hSorted] using hRest.symm
      simpa [h y List.mem_cons_self] using hBefore x (by simp [hSame])
    · rw [List.concat_eq_append, ← List.append_assoc, hSorted] at hRest
      obtain rfl : last = x := by simpa using (List.append_inj_right' hRest rfl).symm
      exact ⟨before ++ y :: init, by simp⟩

theorem Traits.tail?_eq {t : Traits} {others : List Comment} (h : t.comments = others ++ [c])
    (hRanks : ∀ d ∈ others, d.rank ≤ c.rank) (hEnd : c.affinity = some .endOfLine)
    (hCovers : t.span.covers c.span.startLine = true) : t.tail? = some (others.length, c) := by
  have hNumbered : t.comments.mapIdx (fun i c => (i, c)) =
      others.mapIdx (fun i c => (i, c)) ++ [(others.length, c)] := by
    rw [h, List.mapIdx_concat]
  have hBest : ∀ pair ∈ others.mapIdx (fun i c => (i, c)), decide (pair.2.rank ≤ c.rank) = true := by
    intro pair hPair
    obtain ⟨i, hi, rfl⟩ := List.mem_mapIdx.1 hPair
    exact decide_eq_true (hRanks _ (List.getElem_mem hi))
  obtain ⟨sorted, hSorted⟩ := mergeSort_concat
    (fun a b : Nat × Comment => decide (a.2.rank ≤ b.2.rank)) (x := (others.length, c))
    (by simpa using fun _ _ _ => Int.le_trans) (by simpa using fun _ _ => Int.le_total _ _) hBest
  simp [tail?, tailCandidates, hNumbered, hSorted, Comment.isEndOfLine, hEnd, hCovers]

/-! ### What a promise holds

Marking blank lines, bringing a file into its final form and laying it out change nothing of this. -/

variable {t : PromiseType} {s : Specification} {P : Comment → Prop}

/-- The place, the promiser and the comments of the promise, if the clause is one. -/
def Clause.view? (x : Clause) : Option (Span × String × List Comment) :=
  x.promise?.map fun p => (p.traits.span, p.promiser.text, p.traits.comments)

/-- The comments of a promise type, and what its promises hold. -/
def PromiseType.view (t : PromiseType) : List Comment × List (Option (Span × String × List Comment)) :=
  (t.traits.comments, t.clauses.items.map Clause.view?)

def Specification.views (s : Specification) : List (List Comment × List (Option (Span × String × List Comment))) :=
  s.promiseTypes.map PromiseType.view

theorem PromiseType.Lists.of_view {u : PromiseType} (h : t.Lists (p.Noted c)) (hView : u.view = t.view) :
    u.Lists (p.Noted c) := by
  simp only [view, Prod.mk.injEq] at hView
  obtain ⟨q, hq, hSpan, hPromiser, hCovers, hComments⟩ := h.promise
  obtain ⟨x, hx, hSame⟩ := List.mem_map.1 (hView.2 ▸ List.mem_map_of_mem (mem_promises.1 hq))
  cases x with
  | guard g => cases hSame
  | promise r =>
    simp only [Clause.view?, Clause.promise?, Option.map_some, Option.some.injEq, Prod.mk.injEq] at hSame
    obtain ⟨hSameSpan, hSamePromiser, hSameComments⟩ := hSame
    exact ⟨hView.1.trans h.comments, r, mem_promises.2 hx, hSameSpan.trans hSpan, hSamePromiser.trans hPromiser,
      hCovers, hSameComments ▸ hComments⟩

theorem Specification.lists_of_views {u : Specification} (hViews : u.views = s.views)
    (h : ∃ t ∈ s.promiseTypes, t.Lists (p.Noted c)) : ∃ t ∈ u.promiseTypes, t.Lists (p.Noted c) := by
  obtain ⟨t, ht, hLists⟩ := h
  have hMem : t.view ∈ u.views := hViews ▸ List.mem_map_of_mem ht
  obtain ⟨r, hr, hSame⟩ := List.mem_map.1 hMem
  exact ⟨r, hr, hLists.of_view hSame⟩

theorem Specification.views_relabel_unmark (s : Specification) : (s.relabel unmark).views = s.views := by
  have hType : ∀ t : PromiseType, (t.relabel unmark).view = t.view := by
    intro t
    have hClause : Clause.view? ∘ Clause.relabel unmark = Clause.view? := by
      funext x
      cases x <;> rfl
    simp only [PromiseType.view, PromiseType.relabel, ItemList.items_relabel, List.map_map, hClause]
    rfl
  have hContents : ∀ x : Contents,
      (x.relabel unmark).promiseTypes = x.promiseTypes.map (PromiseType.relabel unmark) := by
    rintro (statements | selections)
    · exact ItemList.items_relabel unmark statements
    · rfl
  simp [views, promiseTypes, Specification.relabel, Block.relabel, hContents, hType, List.flatMap_map, List.map_flatMap,
    Function.comp_def]

theorem Specification.views_markBlankLines (isEmpty : Int → Bool) (s : Specification) :
    (s.markBlankLines isEmpty).views = s.views := by
  rw [← views_relabel_unmark, relabel_markBlankLines, views_relabel_unmark]

theorem Specification.views_plain (s : Specification) : s.plain.views = s.views := by
  have hType : ∀ t : PromiseType, t.plain.view = t.view := by
    intro t
    have hClause : Clause.view? ∘ Clause.plain = Clause.view? := by
      funext x
      cases x <;> rfl
    simp only [PromiseType.view, PromiseType.plain, ItemList.items_mapItems, List.map_map, hClause]
  have hContents : ∀ x : Contents, x.plain.promiseTypes = x.promiseTypes.map PromiseType.plain := by
    rintro (statements | selections)
    · exact ItemList.items_mapItems PromiseType.plain statements
    · rfl
  simp [views, promiseTypes, Specification.plain, Block.plain, ItemList.items_mapItems, hContents, hType,
    List.flatMap_map, List.map_flatMap, Function.comp_def]

theorem PromiseType.view_settle (t : PromiseType) : t.settle.view = t.view := by
  have hClauses := Entry.Settled.items (f := Clause.view?)
    (settled_settleAfterGuards Clause.isGuard Clause.withTraits false t.clauses.entries) (by rintro (g | p) <;> rfl)
  simp only [view, settle, ItemList.items, hClauses]

/-- A promise type with promises stays when a file is brought into its final form. -/
theorem Specification.lists_tidy (tidying : Tidying) (h : ∃ t ∈ s.promiseTypes, t.Lists (p.Noted c)) :
    ∃ t ∈ (s.tidy tidying).promiseTypes, t.Lists (p.Noted c) := by
  obtain ⟨t, ht, hLists⟩ := h
  obtain ⟨b, hb, ht⟩ := List.mem_flatMap.1 ht
  have hSettled := hLists.of_view t.view_settle
  refine ⟨t.settle, List.mem_flatMap.2 ⟨{ b with contents := b.contents.tidy tidying }, ?_, ?_⟩, hSettled⟩
  · exact ItemList.items_mapItems _ s ▸ List.mem_map.2 ⟨b, hb, rfl⟩
  · obtain ⟨q, hq, -⟩ := hSettled.promise
    have hKept : t.settle.isVacant = false := by
      have hEntry := List.ne_nil_of_mem (ItemList.mem_items.1 (PromiseType.mem_promises.1 hq))
      simp [PromiseType.isVacant, List.isEmpty_eq_false_iff.2 hEntry]
    cases hContents : b.contents with
    | body selections => simp [hContents, Contents.promiseTypes] at ht
    | bundle statements =>
      have hMem : t.settle ∈ (statements.mapItems PromiseType.settle).items := by
        rw [ItemList.items_mapItems]
        exact List.mem_map_of_mem (by simpa [hContents, Contents.promiseTypes] using ht)
      have hApply := Tidying.items_apply tidying (statements.mapItems PromiseType.settle).entries
      simp only [Contents.tidy, Contents.promiseTypes, ItemList.items] at hMem hApply ⊢
      rw [hApply]
      split <;> split <;> simp [hMem, hKept]

theorem Specification.Formed.promiseType (h : Specification.Formed P s) (ht : t ∈ s.promiseTypes) : t.Formed P := by
  obtain ⟨b, hb, ht⟩ := List.mem_flatMap.1 ht
  have hContents := (h.of_mem hb).contents
  cases hSame : b.contents with
  | body selections => simp [hSame, Contents.promiseTypes] at ht
  | bundle statements =>
    rw [hSame] at hContents ht
    exact hContents.of_mem ht

theorem PromiseType.Formed.promise (h : t.Formed P) (hq : q ∈ t.promises) : q.Formed P :=
  h.clauses.of_mem (mem_promises.1 hq)

/-! ### The ink of a promise -/

variable {α : Type} {style : InkStyle} {R : Option Bool → α → Ink → Prop} {isFirst : Bool}
  {entries : List (Entry α)} {ink : Ink} {keeps : Option Bool}

/-- The ink of the promise has a line break after it. -/
def Promise.EndsLineIn (q : Promise) (ink : Ink) : Prop :=
  ∃ front keeps own back, q.Inked keeps own ∧ ink = front ++ own ++ .newline :: back

namespace Promise.EndsLineIn

variable {ink : Ink}

theorem prepend (h : q.EndsLineIn ink) (front : Ink) : q.EndsLineIn (front ++ ink) := by
  obtain ⟨before, keeps, own, back, hOwn, rfl⟩ := h
  exact ⟨front ++ before, keeps, own, back, hOwn, by simp⟩

theorem append (h : q.EndsLineIn ink) (back : Ink) : q.EndsLineIn (ink ++ back) := by
  obtain ⟨before, keeps, own, after, hOwn, rfl⟩ := h
  exact ⟨before, keeps, own, after ++ back, hOwn, by simp⟩

end Promise.EndsLineIn

/-- In a list with line breaks between its entries, the promise ends a line if it ends the ink of its entry. -/
theorem EntriesInked.endsLineIn (h : EntriesInked style R isFirst entries ink) (hMark : style.mark = [])
    (hLastMark : style.lastMark = []) {gap : Ink} (hGap : style.after ++ style.between = .newline :: gap) {x : α}
    (hx : .item x ∈ entries) (hEach : ∀ keeps own, R keeps x own → ∀ more, q.EndsLineIn (own ++ .newline :: more))
    {more rest : Ink} (hMore : style.after ++ more = .newline :: rest) : q.EndsLineIn (ink ++ more) := by
  induction h with
  | @lastItem isFirst y own hOwn =>
    obtain rfl : x = y := by simpa using hx
    simpa [hLastMark, hMore] using hEach _ _ hOwn rest
  | lastComment => simp at hx
  | @item isFirst y entries own inner hOwn hInner ih =>
    rcases List.mem_cons.1 hx with hSame | hx
    · cases hSame
      simpa [hMark, ← List.append_assoc style.after, hGap] using hEach _ _ hOwn (gap ++ inner ++ more)
    · rw [List.append_assoc]
      exact (ih hx).prepend _
  | comment hInner ih =>
    rw [List.append_assoc]
    exact (ih (by simpa using hx)).prepend _

theorem ClausesInked.endsLineIn {entries : List (Entry Clause)} (h : ClausesInked entries ink)
    (hq : .item (.promise q) ∈ entries) (more : Ink) : q.EndsLineIn (ink ++ .newline :: more) := by
  cases h with
  | none => cases hq
  | @some _ body h =>
    have hPromise : ∀ keeps own, Clause.Inked keeps (.promise q) own →
        ∀ more, q.EndsLineIn (own ++ .newline :: more) := by
      intro keeps own h more
      cases h with
      | promise h => exact ⟨[], keeps, own, more, h, rfl⟩
    rw [List.append_assoc]
    exact (h.endsLineIn rfl rfl rfl hq hPromise rfl).prepend _

theorem PromiseType.Inked.endsLineIn (h : t.Inked keeps ink) (hComments : t.traits.comments = [])
    (hq : q ∈ t.promises) (more : Ink) : q.EndsLineIn (ink ++ .newline :: more) := by
  cases h with
  | mk h =>
    have hBody := h.endsLineIn (ItemList.mem_items.1 (mem_promises.1 hq)) more
    rw [noted_of_comments_nil hComments, List.append_assoc, List.append_assoc]
    exact (hBody.prepend _).prepend _

theorem Contents.Inked.endsLineIn {x : Contents} (h : x.Inked ink) (ht : t ∈ x.promiseTypes)
    (hComments : t.traits.comments = []) (hq : q ∈ t.promises) : q.EndsLineIn ink := by
  cases h with
  | body => cases ht
  | @bundle statements ink h =>
    have hMem := ItemList.mem_items.1 ht
    cases h with
    | empty hEntries => simp [hEntries] at hMem
    | @some inner h =>
      rw [List.append_assoc]
      exact (h.endsLineIn rfl rfl rfl hMem (fun keeps own h => h.endsLineIn hComments hq) rfl).prepend _

/-- A promise of a file ends a line. -/
theorem Specification.Inked.endsLineIn (h : s.Inked ink) (ht : t ∈ s.promiseTypes)
    (hComments : t.traits.comments = []) (hq : q ∈ t.promises) : q.EndsLineIn ink := by
  obtain ⟨b, hb, ht⟩ := List.mem_flatMap.1 ht
  have hMem := ItemList.mem_items.1 hb
  have hBlock : ∀ keeps own, Block.Inked keeps b own → ∀ more, q.EndsLineIn (own ++ .newline :: more) := by
    intro keeps own h more
    cases h with
    | @mk brackets inner hParameters hContents =>
      exact ((((hContents.endsLineIn ht hComments hq).prepend _).prepend _).append _).append _
  cases h with
  | empty hEntries => simp [hEntries] at hMem
  | some h => simpa using h.endsLineIn rfl rfl rfl hMem hBlock (List.append_nil _)

theorem EntriesInked.ends_of_item (h : EntriesInked style R isFirst entries ink)
    (hEnds : ∀ c, entries.getLast? ≠ some (.comment c)) :
    ∃ front, ink = front ++ (style.lastMark ++ style.after) := by
  induction h with
  | lastItem => exact ⟨_, List.append_assoc _ _ _⟩
  | @lastComment _ c => exact absurd rfl (hEnds c)
  | item hOwn hMore ih =>
    obtain ⟨front, rfl⟩ := ih (by rwa [List.getLast?_cons_of_ne_nil hMore.ne_nil] at hEnds)
    exact ⟨_, (List.append_assoc _ _ _).symm⟩
  | comment hMore ih =>
    obtain ⟨front, rfl⟩ := ih (by rwa [List.getLast?_cons_of_ne_nil hMore.ne_nil] at hEnds)
    exact ⟨_, (List.append_assoc _ _ _).symm⟩

theorem ends_of_constraintsInked {entries : List (Entry Assignment)} (h : ConstraintsInked entries ink)
    (hEnds : ∀ c, entries.getLast? ≠ some (.comment c)) : ∃ front, ink = front ++ [.word ";"] := by
  cases h with
  | none => exact ⟨[], rfl⟩
  | @some _ body gap hGap h =>
    obtain ⟨front, rfl⟩ := h.ends_of_item hEnds
    exact ⟨_, (List.append_assoc _ _ _).symm⟩

/-- The ink of a promise ends with its semicolon and the comment at its end. -/
theorem Promise.Inked.ends {own : Ink} (h : q.Inked keeps own) (hEnds : q.constraints.EndsInItem) {i : Nat}
    (hTail : q.traits.tail? = some (i, c)) : ∃ front, own = front ++ (.word ";" :: c.tailInk) := by
  cases h with
  | @mk right body hPromisee hBody =>
    obtain ⟨front, rfl⟩ := ends_of_constraintsInked hBody hEnds
    exact ⟨blankInk (q.traits.afterBlank && keeps.getD q.traits.keepsBlank) ++
      q.traits.leading.flatMap Comment.aboveInk ++ ([.word q.promiser.text] ++ right ++ front), by
        simp [Traits.noted, hTail]⟩

/-! ### Lines -/

variable {a : Ink} {note : String} {line : Line}

theorem joinRows_concat (init : List Row) (last row : Row) :
    joinRows (init ++ [last]) [row] = init ++ [(last.1 ++ row.1, last.2 ++ row.2)] := by
  induction init with
  | nil => rfl
  | cons first init ih => rw [List.cons_append, joinRows_cons (by simp), ih, List.cons_append]

/-- What stands before a line break ends a line. -/
theorem Spells.ends_line {b : Ink} {lines : List Line} (h : Spells (a ++ .newline :: b) lines)
    (hLines : lines ≠ []) : ∃ above line below, lines = above ++ line :: below ∧ Spells a (above ++ [line]) := by
  rw [Spells, Ink.rows_append, Ink.rows, joinRows_blank_cons (Ink.rows_ne_nil a), rowsOf_eq_map hLines] at h
  obtain ⟨front, below, rfl, hFront, -⟩ := List.map_eq_append_iff.1 h
  rcases List.eq_nil_or_concat front with rfl | ⟨above, line, rfl⟩
  · exact absurd hFront.symm (Ink.rows_ne_nil a)
  · rw [List.concat_eq_append] at hFront ⊢
    exact ⟨above, line, below, by simp, (rowsOf_eq_map (by simp)).trans hFront⟩

/-- The last line of what ends with a word and a comment. -/
theorem Spells.last_line {word : String} {above : List Line}
    (h : Spells (a ++ [.word word, .tail true note]) (above ++ [line])) :
    ∃ code notes, line.text = code ++ word ∧ line.tail = notes ++ [" " ++ note] := by
  obtain ⟨init, last, hRows⟩ := List.eq_nil_or_concat a.rows |>.resolve_left (Ink.rows_ne_nil a)
  have hLast : Ink.rows [.word word, .tail true note] = [(word, [" " ++ note])] := by
    simp [Ink.rows, joinRows, Mark.text, Mark.tails]
  rw [Spells, Ink.rows_append, hRows, hLast, List.concat_eq_append, joinRows_concat, rowsOf_eq_map (by simp),
    List.map_append] at h
  have hRow := List.append_inj_right' h rfl
  simp only [List.map_cons, List.map_nil, List.cons.injEq, and_true, Line.row, Prod.mk.injEq] at hRow
  exact ⟨last.1, last.2, hRow⟩

theorem Line.render_concat {notes : List String} (h : line.tail = notes ++ [note]) :
    ∃ before, line.render = before ++ note := by
  have hJoin : String.join line.tail = String.join notes ++ note := by simp [h]
  unfold Line.render
  simp only [hJoin, ← String.append_assoc]
  split
  · split <;> exact ⟨_, rfl⟩
  · exact ⟨_, rfl⟩

/-! ### The comment behind a semicolon -/

theorem Grouped.mem_of_followsCode {text : List Char} {finish : Comment → Comment} {tokens : List CommentToken}
    {comments : List Comment} (h : Grouped text finish tokens comments) {t : CommentToken} (ht : t ∈ tokens)
    (hCode : t.followsCode text = true) : t.toComment text (some .endOfLine) ∈ comments := by
  induction h with
  | nil => cases ht
  | afterCode _ _ ih =>
    rcases List.mem_cons.1 ht with rfl | ht
    · exact List.mem_cons_self
    · exact List.mem_cons_of_mem _ (ih ht)
  | run hRun _ _ ih =>
    rcases List.mem_append.1 ht with ht | ht
    · simp [hRun.own t ht] at hCode
    · exact List.mem_cons_of_mem _ (ih ht)

theorem Comment.inOrder_commentsOf (text : String) : Comment.InOrder (commentsOf text) :=
  ⟨fun _ hc => (found_of_mem_commentsOf text hc).1.apart.ordered, (commentsOf_ordered text).imp And.left⟩

section

variable {text : String} {t : CommentToken} (ht : t ∈ (Scan.ofText text).comments)
include ht

/-- A comment token on the line of a token before it makes a comment that ends the line. -/
theorem exists_comment_of_followsCode (hCode : t.followsCode text.toList = true) :
    ∃ c ∈ commentsOf text, c.EndsAt t.line ∧ c.span.start = t.offset ∧ c.lines = [t.text] := by
  have hMem := (grouped_groupsOf text).mem_of_followsCode ht hCode
  have hMap := Comment.map_markAll (fun c => (c.span, c.lines, c.affinity)) (fun _ _ => rfl)
    (emptyLines text).contains (groupsOf text)
  have hSame := List.mem_map_of_mem (f := fun c : Comment => (c.span, c.lines, c.affinity)) hMem
  rw [← hMap] at hSame
  obtain ⟨c, hc, hEq⟩ := List.mem_map.1 hSame
  simp only [Prod.mk.injEq] at hEq
  obtain ⟨hSpan, hLines, hAffinity⟩ := hEq
  exact ⟨c, hc, ⟨by rw [hSpan]; rfl, by rw [hSpan]; rfl, hAffinity⟩, by rw [hSpan]; rfl, hLines⟩

/-- A token on a later line than a comment stands after it. -/
theorem comment_offset_lt {u : Token} (hu : u ∈ (Scan.ofText text).tokens) (hLine : t.line < u.line) :
    t.offset < u.offset := by
  obtain ⟨-, before, after, hText, hTokenLine, hTokenOffset⟩ := scanned_ofText.token_located u hu
  obtain ⟨front, more, rest, hAll, -, -, hNoteLine, hNoteOffset⟩ := scanned_ofText.comment_located t ht
  by_contra hLt
  have hPrefix : before <+: front :=
    List.prefix_of_prefix_length_le ⟨u.text.toList ++ after, by rw [hText, List.append_assoc]⟩ ⟨_, hAll.symm⟩ (by omega)
  have hCount := hPrefix.sublist.count_le '\n'
  omega

end

end PolicyFormat.Policy

namespace PolicyFormat

open Policy Layout

/-- The comment goes to the promise, which stands in the file in its final form. -/
theorem Policy.Specification.noted_ofText {tidying : Tidying} {text : String} {parsed s : Specification} {p : Promise}
    {t : CommentToken} (hParsed : (Scan.ofText text).parse = .ok parsed) (hp : p ∈ parsed.promises)
    (ht : t ∈ (Scan.ofText text).comments) (hLine : t.line = p.semicolon.traits.span.endLine)
    (hAfter : p.semicolon.traits.span.start < t.offset)
    (hLast : ∀ u ∈ (Scan.ofText text).tokens, p.semicolon.traits.span.start < u.offset →
      p.semicolon.traits.span.endLine < u.line)
    (hTree : Specification.ofText tidying text = .ok s) :
    ∃ c, c.EndsAt p.semicolon.traits.span.endLine ∧ c.lines = [t.text] ∧
      ∃ u ∈ s.promiseTypes, u.Lists (p.Noted c) := by
  obtain ⟨line, offset, -, hDerived⟩ := Scan.parse_eq_ok.1 hParsed
  have hReaches := fun c => hDerived.reaches hp (c := c)
  obtain ⟨token, hToken, hSpan⟩ := (hReaches default).found
  have hCode := scanned_ofText.followsCode [] rfl token hToken t ht (hLine.symm ▸ congrArg Span.endLine hSpan)
  obtain ⟨c, hc, hEnds, hStart, hLines⟩ := exists_comment_of_followsCode ht hCode
  rw [hLine] at hEnds
  refine ⟨c, hEnds, hLines, ?_⟩
  have hFollows : c.Follows p.semicolon.traits.span (Scan.ofText text).tokens :=
    { hEnds with
      start := hStart ▸ hAfter
      ordered := scanned_ofText.tokens_ordered
      later := fun u hu hLater =>
        ⟨hLast u hu hLater, hStart ▸ comment_offset_lt ht hu (hLine ▸ hLast u hu hLater)⟩ }
  have hPlaced := (hReaches c).reaches hFollows _ (Comment.inOrder_commentsOf text) hc
  rw [Specification.ofText_eq, hParsed] at hTree
  cases hTree
  exact Specification.lists_tidy tidying (Specification.lists_of_views (Specification.views_markBlankLines _ _) hPlaced)

/-- The lines are laid out from the tree, and the promise that stands at the place of `p` ends on one of them:
the lines up to that one are made of the ink of the promise and of what comes before it. -/
def Policy.Promise.EndsOn (tree : Specification) (p : Promise) (above : List Line) (line : Line) (below : List Line) :
    Prop :=
  ∃ q ∈ tree.promises, q.traits.span = p.traits.span ∧ q.promiser.text = p.promiser.text ∧
    ∃ front keeps own back, q.Inked keeps own ∧ tree.Inked (front ++ own ++ .newline :: back) ∧
      Spells (front ++ own ++ .newline :: back) (above ++ line :: below) ∧ Spells (front ++ own) (above ++ [line])

/-- A comment behind the semicolon of a promise, where the semicolon is the last token on its line, stands at
the end of the line on which the promise ends in the output, whatever other comments there are. -/
theorem comment_stays_behind_semicolon {text : String} {parsed : Specification} {p : Promise} {c : CommentToken}
    (hParsed : (Scan.ofText text).parse = .ok parsed) (hp : p ∈ parsed.promises)
    (hc : c ∈ (Scan.ofText text).comments) (hLine : c.line = p.semicolon.traits.span.endLine)
    (hAfter : p.semicolon.traits.span.start < c.offset)
    (hLast : ∀ t ∈ (Scan.ofText text).tokens, p.semicolon.traits.span.start < t.offset →
      p.semicolon.traits.span.endLine < t.line) (options : Options) :
    ∃ s tree above line below, Specification.ofText options.tidying text = .ok s ∧
      Specification.plain tree = Specification.plain s ∧
      beautify options text = .ok (renderLines (lineEndingFor text options.lineEnding) (above ++ line :: below)) ∧
      p.EndsOn tree above line below ∧ (∃ code, line.text = code ++ ";") ∧
      ∃ before, line.render = before ++ (" " ++ normalNote c.text) := by
  have hTree := Specification.ofText_eq options.tidying text
  rw [hParsed] at hTree
  obtain ⟨d, hEnds, hLines, hLists⟩ := Specification.noted_ofText hParsed hp hc hLine hAfter hLast hTree
  obtain ⟨lines, hBeautified, hNonempty, tree, ink, hPlain, -, hInked, hSpells⟩ := beautifiedLines_of_ofText hTree
  have hViews := (Specification.views_plain tree).symm.trans
    ((congrArg Specification.views hPlain).trans (Specification.views_plain _))
  obtain ⟨u, hu, hComments, q, hq, hNoted⟩ := Specification.lists_of_views hViews hLists
  obtain ⟨front, keeps, own, back, hOwn, rfl⟩ := hInked.endsLineIn hu hComments hq
  obtain ⟨above, line, below, rfl, hAbove⟩ := Spells.ends_line hSpells hNonempty
  have hFormed : Specification.Formed (Comment.Found text) tree := by
    rw [← Specification.formed_plain, hPlain]
    exact Specification.formed_plain.2 (Specification.formed_ofText hTree)
  obtain ⟨others, hOthers, hRanks⟩ := hNoted.comments
  have hTail := Traits.tail?_eq hOthers hRanks hEnds.affinity (hNoted.span ▸ hNoted.covers)
  obtain ⟨body, hBody⟩ := hOwn.ends ((hFormed.promiseType hu).promise hq).ends hTail
  have hInk : own = body ++ [.word ";", .tail true (normalNote c.text)] := by
    simp [hBody, Comment.tailInk, hLines]
  rw [hInk, ← List.append_assoc] at hAbove
  obtain ⟨code, notes, hCode, hNotes⟩ := Spells.last_line hAbove
  refine ⟨_, tree, above, line, below, hTree, hPlain, beautify_eq_ok_iff.2 ⟨_, hBeautified, rfl⟩, ?_, ⟨code, hCode⟩,
    Line.render_concat hNotes⟩
  exact ⟨q, List.mem_flatMap.2 ⟨u, hu, hq⟩, hNoted.span, hNoted.promiser, front, keeps, own, back, hOwn, hInked,
    hSpells, by rwa [hInk, ← List.append_assoc]⟩

/-- The promise of this bundle has comments before it, inside it and after it. The one behind its semicolon stays. -/
theorem commentedBundle_keeps_fourth_comment :
    ∃ parsed p, (Scan.ofText commentedBundle).parse = .ok parsed ∧ p ∈ parsed.promises ∧
      p.semicolon.traits.span = ⟨6, 6, 60, 61⟩ ∧ ⟨"# four", 6, 62⟩ ∈ (Scan.ofText commentedBundle).comments ∧
      ∃ tree above line below,
        beautify {} commentedBundle = .ok (renderLines (lineEndingFor commentedBundle none) (above ++ line :: below)) ∧
        p.EndsOn tree above line below ∧ (∃ code, line.text = code ++ ";") ∧
        ∃ before, line.render = before ++ " # four" := by
  have hSpans : ((Scan.ofText commentedBundle).parse.toOption.map fun s => s.promises.map (·.semicolon.traits.span)) =
      some [⟨6, 6, 60, 61⟩] := by
    decide +kernel
  have hc : ⟨"# four", 6, 62⟩ ∈ (Scan.ofText commentedBundle).comments := by
    decide +kernel
  have hLast : ∀ t ∈ (Scan.ofText commentedBundle).tokens, 60 < t.offset → 6 < t.line := by
    decide +kernel
  cases hParsed : (Scan.ofText commentedBundle).parse with
  | error refusal => simp [hParsed, Except.toOption] at hSpans
  | ok parsed =>
    obtain ⟨p, hp, hSpan⟩ : ∃ p ∈ parsed.promises, p.semicolon.traits.span = ⟨6, 6, 60, 61⟩ := by
      simp only [hParsed, Except.toOption, Option.map_some, Option.some.injEq] at hSpans
      exact List.mem_map.1 (hSpans ▸ List.mem_singleton_self _)
    obtain ⟨-, tree, above, line, below, -, -, hBeautified, hEnds⟩ := comment_stays_behind_semicolon hParsed hp hc
      (by rw [hSpan]) (by rw [hSpan]; decide) (by rw [hSpan]; exact hLast) {}
    exact ⟨parsed, p, rfl, hp, hSpan, hc, tree, above, line, below, hBeautified, hEnds⟩

end PolicyFormat
