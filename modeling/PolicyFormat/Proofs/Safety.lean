import Mathlib.Data.List.Nodup
import PolicyFormat.Proofs.Beautified

/-! A text that cannot be read is the only reason why it is not beautified. Where a step could fail
by itself, its checked form is stated here, and never does. -/
namespace PolicyFormat.Policy

/-! ### Grouping comments -/

/-- Groups comment tokens as `Comment.groupFrom` does, but gives up where a line would be put before a
comment at the end of a line. -/
def Comment.groupFrom? (text : List Char) (finish : Comment → Comment) :
    (open? : Option Comment) → (done : List Comment) → (reversed : List CommentToken) → Option (List Comment)
  | open?, done, [] => some ((open?.map finish).toList ++ done)
  | open?, done, t :: rest =>
    if t.followsCode text then
      groupFrom? text finish none (t.toComment text (some .endOfLine) :: (open?.map finish).toList ++ done) rest
    else
      match open?.filter (fun c => c.span.startLine - 1 == t.line) with
      | some c => do
        let joined ← c.addBefore? t.text t.line t.offset
        groupFrom? text finish (some joined) done rest
      | none =>
        groupFrom? text finish (some (t.toComment text none)) ((open?.map finish).toList ++ done) rest

theorem Comment.groupFrom?_eq (text : List Char) (finish : Comment → Comment) {open? : Option Comment}
    (hOpen : ∀ c ∈ open?, c.isEndOfLine = false) (done : List Comment) (reversed : List CommentToken) :
    Comment.groupFrom? text finish open? done reversed =
      some (Comment.groupFrom text finish open? done reversed) := by
  induction reversed generalizing open? done with
  | nil => rfl
  | cons t rest ih =>
    rw [groupFrom?, groupFrom]
    split
    · exact ih (by simp) _
    · cases hJoin : open?.filter (fun c => c.span.startLine - 1 == t.line) with
      | none =>
        have hNew : ∀ d ∈ some (t.toComment text none), d.isEndOfLine = false := by
          simp [isEndOfLine, CommentToken.toComment]
        exact ih hNew _
      | some c =>
        have hNot := hOpen c (Option.filter_eq_some_iff.1 hJoin).1
        have hAdd : c.addBefore? t.text t.line t.offset = some { c with
            lines := t.text :: c.lines
            span := { c.span with startLine := t.line, start := t.offset } } := by
          simp [addBefore?, hNot]
        simp only [hAdd, Option.getD_some]
        exact ih (by simpa [isEndOfLine] using hNot) done

/-- Groups comment tokens as `Comment.group` does, as far as that is possible. -/
def Comment.group? (text : List Char) (isEmptyLine : Int → Bool) (lastLine : Int)
    (tokens : List CommentToken) : Option (List Comment) :=
  let finish (c : Comment) : Comment :=
    if isEmptyLine (c.span.endLine + 1) || c.span.endLine == lastLine then
      { c with affinity := some .standalone }
    else { c with affinity := some .nextNode }
  groupFrom? text finish none [] tokens.reverse

theorem Comment.group?_eq (text : List Char) (isEmptyLine : Int → Bool) (lastLine : Int)
    (tokens : List CommentToken) :
    Comment.group? text isEmptyLine lastLine tokens = some (Comment.group text isEmptyLine lastLine tokens) :=
  Comment.groupFrom?_eq text _ (by simp) [] tokens.reverse

/-! ### Sorting promise types -/

section

variable {α : Type}

/-- Puts an entry before the one with the given number, if there is one. -/
def insertBefore? (number : Nat) (entry : Entry α × Nat) : List (Entry α × Nat) → Option (List (Entry α × Nat))
  | [] => none
  | other :: rest =>
    if other.2 = number then some (entry :: other :: rest)
    else (insertBefore? number entry rest).map (other :: ·)

/-- Puts numbered comments, the last one first, before the entry that followed them among `count`
entries. A comment that followed all others goes to the end. -/
def interleave? (count : Nat) : (comments : List (Entry α × Nat)) → List (Entry α × Nat) → Option (List (Entry α × Nat))
  | [], entries => some entries
  | c :: rest, entries => do
    let entries ← if c.2 + 1 = count then some (entries ++ [c]) else insertBefore? (c.2 + 1) c entries
    interleave? count rest entries

variable {number : Nat} {entry : Entry α × Nat}

theorem insertBefore?_append {front : List (Entry α × Nat)} (hFront : ∀ other ∈ front, other.2 ≠ number)
    (rest : List (Entry α × Nat)) :
    insertBefore? number entry (front ++ rest) = (insertBefore? number entry rest).map (front ++ ·) := by
  induction front with
  | nil => simp
  | cons other front ih =>
    simp only [List.mem_cons, forall_eq_or_imp] at hFront
    simp [insertBefore?, hFront.1, ih hFront.2, Function.comp_def]

theorem insertBefore?_cons {other : Entry α × Nat} (h : other.2 = number) (rest : List (Entry α × Nat)) :
    insertBefore? number entry (other :: rest) = some (entry :: other :: rest) := by
  simp [insertBefore?, h]

/-- The entry is an element of the list. -/
def Entry.isItem : Entry α → Bool
  | .item _ => true
  | .comment _ => false

/-- Numbered entries in groups, each an element with the comments directly before it, and the comments
after the last element. -/
def grouped : List (Entry α × Nat) → List (List (Entry α × Nat) × (Entry α × Nat)) × List (Entry α × Nat)
  | [] => ([], [])
  | entry :: rest =>
    if entry.1.isItem then (([], entry) :: (grouped rest).1, (grouped rest).2)
    else
      match grouped rest with
      | ((comments, item) :: groups, trailing) => ((entry :: comments, item) :: groups, trailing)
      | ([], trailing) => ([], entry :: trailing)

/-- The entries of groups. -/
def ungrouped (groups : List (List (Entry α × Nat) × (Entry α × Nat))) : List (Entry α × Nat) :=
  groups.flatMap (fun group => group.1 ++ [group.2])

theorem ungrouped_grouped (entries : List (Entry α × Nat)) :
    ungrouped (grouped entries).1 ++ (grouped entries).2 = entries := by
  induction entries with
  | nil => rfl
  | cons entry rest ih =>
    rw [grouped]
    split
    · simpa [ungrouped] using ih
    · split
      all_goals
        rename_i hRest
        simpa [ungrouped, hRest] using ih

/-- Groups of numbered entries are the elements with their comments. -/
theorem withComments_grouped (entries : List (Entry α × Nat)) :
    (grouped entries).1.map (fun group => (group.1.map (·.1), group.2.1)) =
        (withComments (entries.map (·.1))).1.map (fun (comments, item) => (comments.map .comment, .item item)) ∧
      (grouped entries).2.map (·.1) = (withComments (entries.map (·.1))).2.map .comment := by
  induction entries with
  | nil => exact ⟨rfl, rfl⟩
  | cons entry rest ih =>
    obtain ⟨entry, number⟩ := entry
    cases entry with
    | item x => simpa [grouped, withComments, Entry.isItem] using ih
    | comment c =>
      simp only [grouped, Entry.isItem, Bool.false_eq_true, if_false, List.map_cons, withComments]
      cases hGroups : grouped rest with
      | mk groups trailing =>
        cases hItems : withComments (rest.map (·.1)) with
        | mk items ending =>
          rw [hGroups, hItems] at ih
          cases groups <;> cases items <;> simp_all

end

/-- The rank of a promise type in the order of evaluation. -/
def Entry.rank : Entry PromiseType → Nat
  | .item p => evaluationRank p.name.text
  | .comment _ => 0

/-- Sorts promise types into the order of evaluation, and then looks up for each comment where the
entry after it has gone. -/
def sortByLookup? (entries : List (Entry PromiseType)) : Option (List (Entry PromiseType)) := do
  let numbered := entries.zipIdx
  let sorted := (numbered.filter (·.1.isItem)).mergeSort (fun a b => a.1.rank ≤ b.1.rank)
  let placed ← interleave? entries.length (numbered.filter (!·.1.isItem)).reverse sorted
  return placed.map (·.1)

section

variable {α : Type}

/-- The elements among entries, as groups without comments. -/
def loneItems (entries : List (Entry α × Nat)) : List (List (Entry α × Nat) × (Entry α × Nat)) :=
  (entries.filter (fun entry => entry.1.isItem)).map (fun entry => ([], entry))

theorem ungrouped_loneItems (entries : List (Entry α × Nat)) :
    ungrouped (loneItems entries) = entries.filter (fun entry => entry.1.isItem) := by
  simp [ungrouped, loneItems, List.flatMap_map]

/-- The comment added to the group of an element. -/
def addComment (c item : Entry α × Nat) (group : List (Entry α × Nat) × (Entry α × Nat)) :
    List (Entry α × Nat) × (Entry α × Nat) :=
  if group.2.2 = item.2 then (c :: group.1, group.2) else group

theorem addComment_snd (c item : Entry α × Nat) (group : List (Entry α × Nat) × (Entry α × Nat)) :
    (addComment c item group).2 = group.2 := by
  unfold addComment
  split <;> rfl

theorem map_addComment {front back : List (List (Entry α × Nat) × (Entry α × Nat))}
    {comments : List (Entry α × Nat)} {c item : Entry α × Nat}
    (hNodup : ((ungrouped (front ++ (comments, item) :: back)).map (·.2)).Nodup) :
    (front ++ (comments, item) :: back).map (addComment c item) = front ++ (c :: comments, item) :: back := by
  have hParts : ungrouped (front ++ (comments, item) :: back) =
      ungrouped front ++ ((comments ++ [item]) ++ ungrouped back) := by
    simp [ungrouped]
  have hMem : ∀ groups : List (List (Entry α × Nat) × (Entry α × Nat)), ∀ group ∈ groups,
      group.2 ∈ ungrouped groups :=
    fun groups group h => List.mem_flatMap.2 ⟨group, h, by simp⟩
  rw [hParts, List.map_append, List.map_append, List.nodup_append, List.nodup_append] at hNodup
  obtain ⟨-, ⟨-, -, hBack⟩, hFront⟩ := hNodup
  have hOther : ∀ group, group ∈ front ∨ group ∈ back → addComment c item group = group := by
    rintro group (h | h)
    · have hNe := hFront _ (List.mem_map_of_mem (hMem front group h)) item.2 (by simp)
      simp [addComment, hNe]
    · have hNe := hBack item.2 (by simp) _ (List.mem_map_of_mem (hMem back group h))
      simp [addComment, Ne.symm hNe]
  have hSame : ∀ groups : List _, (∀ group ∈ groups, group ∈ front ∨ group ∈ back) →
      groups.map (addComment c item) = groups :=
    fun groups hGroups => (List.map_congr_left (g := id)
      fun group h => hOther group (hGroups group h)).trans (List.map_id groups)
  rw [List.map_append, List.map_cons, hSame front fun _ h => .inl h, hSame back fun _ h => .inr h]
  simp [addComment]

end

section

/-- Groups in the order of evaluation. -/
def sortGroups (groups : List (List (Entry PromiseType × Nat) × (Entry PromiseType × Nat))) :
    List (List (Entry PromiseType × Nat) × (Entry PromiseType × Nat)) :=
  groups.mergeSort (fun a b => a.2.1.rank ≤ b.2.1.rank)

/-- The entries after the comments of `suffix` have gone to their places, but not yet those before. -/
def halfway (before suffix : List (Entry PromiseType × Nat)) : List (Entry PromiseType × Nat) :=
  ungrouped (sortGroups (loneItems before ++ (grouped suffix).1)) ++ (grouped suffix).2

theorem halfway_perm (before suffix : List (Entry PromiseType × Nat)) :
    (halfway before suffix).Perm (before.filter (fun entry => entry.1.isItem) ++ suffix) := by
  have hSorted : (halfway before suffix).Perm
      (ungrouped (loneItems before ++ (grouped suffix).1) ++ (grouped suffix).2) :=
    ((List.mergeSort_perm _ _).flatMap_right _).append_right _
  refine hSorted.trans (List.Perm.of_eq ?_)
  conv_rhs => rw [← ungrouped_grouped suffix, ← ungrouped_loneItems]
  simp [ungrouped]

variable {before suffix : List (Entry PromiseType × Nat)}

theorem halfway_item {x : Entry PromiseType × Nat} (hx : x.1.isItem = true) :
    halfway (before ++ [x]) suffix = halfway before (x :: suffix) := by
  simp [halfway, grouped, hx, loneItems]

/-- The step for one comment: it goes before the entry that followed it. -/
theorem insertBefore?_halfway {c y : Entry PromiseType × Nat} (hc : c.1.isItem = false)
    (hNodup : ((before ++ c :: y :: suffix).map (·.2)).Nodup) :
    insertBefore? y.2 c (halfway (before ++ [c]) (y :: suffix)) = some (halfway before (c :: y :: suffix)) := by
  have hLone : loneItems (before ++ [c]) = loneItems before := by simp [loneItems, hc]
  have hNumbers : ((halfway (before ++ [c]) (y :: suffix)).map (·.2)).Nodup := by
    refine ((halfway_perm (before ++ [c]) (y :: suffix)).map _).nodup_iff.2 (hNodup.sublist ?_)
    refine List.Sublist.map _ ?_
    have hKept : (before ++ [c]).filter (fun entry => entry.1.isItem) =
        before.filter (fun entry => entry.1.isItem) := by simp [hc]
    rw [hKept]
    exact List.filter_sublist.append (List.sublist_cons_self c _)
  have hAll := ungrouped_grouped (y :: suffix)
  rw [halfway, hLone] at hNumbers
  rw [halfway, halfway, hLone]
  cases hGrouped : grouped (y :: suffix) with
  | mk groups trailing =>
    rw [hGrouped] at hAll hNumbers
    cases groups with
    | nil =>
      -- only comments follow, and this one goes before them at the end
      have hTrailing : trailing = y :: suffix := by simpa [ungrouped] using hAll
      have hNext : grouped (c :: y :: suffix) = ([], c :: y :: suffix) := by
        simp [grouped.eq_2 c, hc, hGrouped, hTrailing]
      rw [hNext]
      simp only [hTrailing, List.map_append, List.nodup_append] at hNumbers ⊢
      rw [insertBefore?_append ?_, insertBefore?_cons rfl, Option.map_some]
      intro other hOther
      exact hNumbers.2.2 _ (List.mem_map_of_mem hOther) y.2 (by simp)
    | cons group groups =>
      obtain ⟨comments, item⟩ := group
      have hNext : grouped (c :: y :: suffix) = ((c :: comments, item) :: groups, trailing) := by
        simp [grouped.eq_2 c, hc, hGrouped]
      have hFirst : ∃ rest, comments ++ [item] = y :: rest := by
        cases comments <;> simp_all [ungrouped]
      obtain ⟨rest, hFirst⟩ := hFirst
      rw [hNext]
      simp only at hNumbers ⊢
      have hPerm : (sortGroups (loneItems before ++ (comments, item) :: groups)).Perm
        (loneItems before ++ (comments, item) :: groups) := List.mergeSort_perm _ _
      have hSorted : ((ungrouped (sortGroups (loneItems before ++ (comments, item) :: groups))).map (·.2)).Nodup := by
        rw [List.map_append, List.nodup_append] at hNumbers
        exact hNumbers.1
      have hUnsorted : ((ungrouped (loneItems before ++ (comments, item) :: groups)).map (·.2)).Nodup :=
        ((hPerm.flatMap_right _).map _).nodup_iff.1 hSorted
      have hAdded : sortGroups (loneItems before ++ (c :: comments, item) :: groups) =
          (sortGroups (loneItems before ++ (comments, item) :: groups)).map (addComment c item) := by
        rw [← map_addComment hUnsorted]
        refine (List.map_mergeSort fun a _ b _ => ?_).symm
        simp only [addComment_snd]
      obtain ⟨front, back, hSplit⟩ := List.append_of_mem (hPerm.mem_iff.2 (by simp :
        (comments, item) ∈ loneItems before ++ (comments, item) :: groups))
      rw [hAdded]
      rw [hSplit] at hNumbers hSorted ⊢
      rw [map_addComment hSorted]
      have hParts : ∀ cs : List (Entry PromiseType × Nat), ungrouped (front ++ (cs, item) :: back) ++ trailing =
            ungrouped front ++ (cs ++ [item] ++ (ungrouped back ++ trailing)) := by
        simp [ungrouped]
      rw [hParts, hFirst, List.map_append, List.nodup_append] at hNumbers
      rw [hParts, hParts, List.cons_append, hFirst, List.cons_append, insertBefore?_append ?_,
        insertBefore?_cons rfl, Option.map_some]
      · rfl
      · intro other hOther
        exact hNumbers.2.2 _ (List.mem_map_of_mem hOther) y.2 (by simp)

/-- Once all comments of a suffix have gone to their places, those before it do so as well. -/
theorem interleave?_halfway (before suffix : List (Entry PromiseType × Nat))
    (hNumbers : (before ++ suffix).map (·.2) = List.range (before ++ suffix).length) :
    interleave? (before ++ suffix).length (before.filter (!·.1.isItem)).reverse (halfway before suffix) =
      some (halfway [] (before ++ suffix)) := by
  induction before using List.reverseRecOn generalizing suffix with
  | nil => simp [interleave?]
  | append_singleton before x ih =>
    have hRest := ih (x :: suffix) (by simpa using hNumbers)
    have hNumber : x.2 = before.length := by
      have hGet := congrArg (·[before.length]?) hNumbers
      simpa using hGet
    cases hx : x.1.isItem with
    | true =>
      have hComments : (before ++ [x]).filter (!·.1.isItem) = before.filter (!·.1.isItem) := by simp [hx]
      rw [hComments, halfway_item hx]
      simpa using hRest
    | false =>
      have hComments : (before ++ [x]).filter (!·.1.isItem) = before.filter (!·.1.isItem) ++ [x] := by
        simp [hx]
      rw [hComments, List.reverse_concat, interleave?]
      cases suffix with
      | nil =>
        have hLast : x.2 + 1 = (before ++ [x] ++ []).length := by simp [hNumber]
        have hPlaced : halfway (before ++ [x]) [] ++ [x] = halfway before [x] := by
          simp [halfway, grouped, hx, loneItems]
        simpa [hLast, hPlaced] using hRest
      | cons y suffix =>
        have hInner : ¬ x.2 + 1 = (before ++ [x] ++ y :: suffix).length := by
          simp [hNumber]
        have hNext : y.2 = x.2 + 1 := by
          have hGet := congrArg (·[before.length + 1]?) hNumbers
          rw [hNumber]
          simpa using hGet
        have hNodup : ((before ++ x :: y :: suffix).map (·.2)).Nodup := by
          rw [List.append_cons, hNumbers]
          exact List.nodup_range
        rw [if_neg hInner, ← hNext, insertBefore?_halfway hx hNodup]
        simpa using hRest

end

theorem halfway_nil_right (entries : List (Entry PromiseType × Nat)) : halfway entries [] =
      (entries.filter (fun entry => entry.1.isItem)).mergeSort (fun a b => a.1.rank ≤ b.1.rank) := by
  have hMap : sortGroups (loneItems entries) =
      ((entries.filter (fun entry => entry.1.isItem)).mergeSort (fun a b => a.1.rank ≤ b.1.rank)).map
        (fun entry => ([], entry)) :=
    (List.map_mergeSort (by simp)).symm
  simp [halfway, grouped, hMap, ungrouped, List.flatMap_map]

theorem map_fst_halfway_nil_left (entries : List (Entry PromiseType × Nat)) :
    (halfway [] entries).map (·.1) = sortToEvaluationOrder (entries.map (·.1)) := by
  obtain ⟨hGroups, hTrailing⟩ := withComments_grouped entries
  have hLeft : (sortGroups (grouped entries).1).map (fun group => (group.1.map (·.1), group.2.1)) =
      ((grouped entries).1.map (fun group => (group.1.map (·.1), group.2.1))).mergeSort
        (fun a b => a.2.rank ≤ b.2.rank) :=
    List.map_mergeSort fun _ _ _ _ => rfl
  have hRight : ((withComments (entries.map (·.1))).1.mergeSort
        (fun a b => evaluationRank a.2.name.text ≤ evaluationRank b.2.name.text)).map
          (fun group : List Comment × PromiseType => (group.1.map Entry.comment, Entry.item group.2)) =
      ((withComments (entries.map (·.1))).1.map
        (fun group : List Comment × PromiseType => (group.1.map Entry.comment, Entry.item group.2))).mergeSort
          (fun a b : List (Entry PromiseType) × Entry PromiseType => a.2.rank ≤ b.2.rank) :=
    List.map_mergeSort fun _ _ _ _ => rfl
  have hSorted := congrArg (List.flatMap fun group => group.1 ++ [group.2]) (hLeft.trans (hGroups ▸ hRight.symm))
  simp only [List.flatMap_map] at hSorted
  simp only [halfway, loneItems, List.filter_nil, List.map_nil, List.nil_append, List.map_append,
    hTrailing, sortToEvaluationOrder, ungrouped, List.map_flatMap, List.map_cons]
  rw [hSorted]

/-- Looking up the entries after the comments never fails, and comes to the same as moving each
promise type with the comments before it. -/
theorem sortByLookup?_eq (entries : List (Entry PromiseType)) :
    sortByLookup? entries = some (sortToEvaluationOrder entries) := by
  have hNumbers : (entries.zipIdx ++ []).map (fun entry : Entry PromiseType × Nat => entry.2) =
      List.range (entries.zipIdx ++ []).length := by
    simp [List.zipIdx_map_snd, List.range_eq_range']
  have hRun := interleave?_halfway entries.zipIdx [] hNumbers
  rw [halfway_nil_right, List.append_nil, List.length_zipIdx] at hRun
  simp [sortByLookup?, hRun, map_fst_halfway_nil_left]

end PolicyFormat.Policy

namespace PolicyFormat

open Policy Layout

/-- A text is beautified unless it cannot be read. On the way, no line is put before a comment at the
end of a line, every comment has lines, all of which begin as a comment does, no block and no file has
to find another keeper for a comment, and the entry after a comment is found wherever promise types are
sorted. -/
theorem beautify_fails_only_on_syntax (options : Options) (text : String) :
    ((∃ output, beautify options text = .ok output) ∨
      ∃ refusal, (Scan.ofText text).parse = .error refusal ∧
        beautify options text = .error (.syntaxError (refusal.report text))) ∧
      Comment.group? text.toList (emptyLines text).contains (Scan.ofText text).lastLine
        (Scan.ofText text).comments = some (groupsOf text) ∧
      (∀ c ∈ commentsOf text, c.Legible) ∧
      (∀ parsed, (Scan.ofText text).parse = .ok parsed →
        (Specification.receive parsed (commentsOf text)).2 = [] ∧
          ∀ b ∈ ItemList.items parsed, ∀ given, (b.receive given).2 = []) ∧
      ∀ entries, sortByLookup? entries = some (sortToEvaluationOrder entries) := by
  refine ⟨?_, Comment.group?_eq _ _ _ _, fun c hc => (found_of_mem_commentsOf text hc).1.legible,
    fun parsed hParsed => ?_, sortByLookup?_eq⟩
  · cases hParsed : (Scan.ofText text).parse with
    | error refusal =>
      refine .inr ⟨refusal, rfl, ?_⟩
      have hTree : Specification.ofText options.tidying text = .error (refusal.report text) := by
        rw [Specification.ofText_eq, hParsed]
      simp [beautify, beautifiedLines, hTree, bind, Except.bind]
    | ok parsed => exact .inl (beautify_eq_ok_of_parse hParsed options)
  · exact ⟨(Specification.placed_commentsOf text hParsed).2, Block.handed_nil_of_parse text hParsed⟩

end PolicyFormat
