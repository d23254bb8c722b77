import PolicyFormat.Beautify
import PolicyFormat.Proofs.Marking
import PolicyFormat.Proofs.Shifting
import PolicyFormat.Proofs.ValueLayout

/-! What is done with a tree once its comments are placed does not depend on offsets: blank lines are marked
as they were, lists are brought into the same form, and the lines that the tree is laid out on are the
same. -/
namespace PolicyFormat.Policy

open Layout

/-! ### Marks of blank lines -/

theorem markAfterBlank_congr {isEmpty other : Int → Bool} {starts : List Int}
    (h : ∀ line ∈ starts, other (line - 1) = isEmpty (line - 1)) :
    markAfterBlank other starts = markAfterBlank isEmpty starts := by
  have hGo : ∀ previous, markAfterBlank.go other previous starts = markAfterBlank.go isEmpty previous starts := by
    induction starts with
    | nil => intro previous; rfl
    | cons line rest ih =>
      intro previous
      obtain ⟨hLine, hRest⟩ := List.forall_mem_cons.1 h
      simp only [markAfterBlank.go, ih hRest, hLine]
  rw [markAfterBlank, markAfterBlank, hGo]

namespace Specification

variable {m : Shift} {s : Specification} (other : Traits)

theorem startLines_shift (hLine : m.line = id) : startLines { s.relabel m with traits := other } = s.startLines := by
  have hNote : ∀ takesBlank t, InStep (fun a b => b = a) m.labels.node (noteLine takesBlank t)
      (noteLine takesBlank (m.labels.node t)) := by
    rintro takesBlank ⟨_, _, _, _, _ | ⟨c, cs⟩⟩ lines _ rfl <;> cases takesBlank <;> refine ⟨rfl, ?_⟩
    any_goals rfl
    all_goals exact congrArg (List.cons · _) (by simp [Traits.startLineWithComment, Shift.labels, Shift.comment,
      Shift.span, hLine])
  rw [startLines_eq, startLines_eq, (visit_inStep hNote s other [] [] rfl).2]

/-- A file that is not changed if what stands below a line is moved has no node that starts there. -/
theorem startLines_le {last : Int}
    (hFixed : ∀ count, { s.relabel (Shift.below last count) with traits := s.traits } = s) :
    ∀ line ∈ s.startLines, line ≤ last := by
  -- A node whose comment ends on the last line may start where it is moved to, but not for each move.
  have hBound : ∀ count : Nat, ∀ line ∈ s.startLines, line ≤ last ∨ line = last + 2 + count := by
    intro count
    have hNote : ∀ takesBlank t, InStep (fun a b => b = a → ∀ line ∈ a, line ≤ last ∨ line = last + 2 + count)
        (Shift.below last count).labels.node (noteLine takesBlank t)
        (noteLine takesBlank ((Shift.below last count).labels.node t)) := by
      rintro (_ | _) t a b hLines
      · exact ⟨rfl, hLines⟩
      · refine ⟨rfl, fun hSame => ?_⟩
        obtain ⟨hHead, hTail⟩ := List.cons.inj hSame
        refine List.forall_mem_cons.2 ⟨?_, hLines hTail⟩
        obtain ⟨_, _, _, _, _ | ⟨c, cs⟩⟩ := t <;>
          simp only [Traits.startLineWithComment, Shift.labels, Shift.comment, Shift.span, Shift.below,
            List.map_nil, List.map_cons, beq_iff_eq] at hHead ⊢ <;>
          split_ifs at hHead ⊢ <;> omega
    have hLines := (visit_inStep hNote s s.traits [] [] fun _ => by simp).2
    rw [hFixed count] at hLines
    rw [startLines_eq]
    exact fun line hLine => hLines rfl line (List.mem_reverse.1 hLine)
  intro line hLine
  rcases hBound 0 line hLine with h | h
  · exact h
  · rcases hBound 1 line hLine with h' | h'
    · exact h'
    · omega

/-- The same nodes are marked, if no line is moved and the lines before the nodes are blank or not as before. -/
theorem markBlankLines_shift {isEmpty isBlank : Int → Bool} (hLine : m.line = id)
    (hLines : ∀ line ∈ s.startLines, isBlank (line - 1) = isEmpty (line - 1)) :
    markBlankLines isBlank { s.relabel m with traits := other } =
      { (s.markBlankLines isEmpty).relabel m with traits := other } := by
  have hMark : ∀ takesBlank t, InStep Eq m.labels.node (takeMark takesBlank t)
      (takeMark takesBlank (m.labels.node t)) := by
    rintro takesBlank t marks _ rfl
    cases takesBlank with
    | false => exact ⟨rfl, rfl⟩
    | true => obtain _ | ⟨_ | _, marks⟩ := marks <;> exact ⟨rfl, rfl⟩
  rw [markBlankLines_eq, startLines_shift other hLine, markAfterBlank_congr hLines]
  exact (visit_inStep hMark s other _ _ rfl).1

end Specification

/-! ### Labels that are not seen -/

/-- A change that is not seen when a file is brought into its final form and laid out. -/
structure Relabel.Unseen (r : Relabel) : Prop where
  comments : ∀ t, (r.node t).comments = t.comments.map r.comment
  keepsBlank : ∀ t, r.node { t with keepsBlank := false } = { r.node t with keepsBlank := false }
  keepsComment : ∀ c keepsBlank, r.comment { c with keepsBlank } = { r.comment c with keepsBlank }
  noted : ∀ t own f, Layout.withComments (r.node t) own f = Layout.withComments t own f
  item : ∀ role t lines, Piece.ofItem role (r.node t) lines = Piece.ofItem role t lines
  leading : ∀ t, (r.node t).leading.isEmpty = t.leading.isEmpty
  comment : ∀ c, Piece.ofComment (r.comment c) = Piece.ofComment c
  oneLine : ∀ t, ((r.node t).span.startLine == (r.node t).span.endLine) = (t.span.startLine == t.span.endLine)

section

variable (m : Shift)

theorem Comment.merge?_shift (cs : List Comment) :
    Comment.merge? (cs.map m.comment) = (Comment.merge? cs).map m.comment := by
  cases cs with
  | nil => rfl
  | cons c cs =>
    have hFold : (cs.map m.comment).foldl Comment.append (m.comment c) = m.comment (cs.foldl Comment.append c) := by
      induction cs generalizing c with
      | nil => rfl
      | cons d cs ih => exact ih (c.append d)
    exact congrArg some hFold

theorem Traits.tail?_shift (t : Traits) :
    (m.labels.node t).tail? = t.tail?.map fun tail => (tail.1, m.comment tail.2) := by
  have hNumbered : (m.labels.node t).comments.mapIdx (fun i c => (i, c)) =
      (t.comments.mapIdx (fun i c => (i, c))).map fun tail => (tail.1, m.comment tail.2) := by
    refine List.ext_getElem? fun i => ?_
    simp only [Shift.labels, List.getElem?_map, List.getElem?_mapIdx, Option.map_map]
    rfl
  have hSort := List.map_mergeSort (r := fun a b : Nat × Comment => decide (a.2.rank ≤ b.2.rank))
    (s := fun a b => decide (a.2.rank ≤ b.2.rank)) (f := fun tail => (tail.1, m.comment tail.2))
    (l := t.comments.mapIdx (fun i c => (i, c))) (fun _ _ _ _ => rfl)
  have hCovers : ∀ c : Comment, (m.labels.node t).span.covers (m.comment c).span.startLine =
      t.span.covers c.span.startLine := fun c => m.covers t.span c.span.startLine
  simp only [tail?, tailCandidates, hNumbered, ← hSort, ← List.map_reverse, List.find?_map, Function.comp_def, hCovers]
  rfl

theorem Traits.leading_shift (t : Traits) : (m.labels.node t).leading = t.leading.map m.comment := by
  have hIndices : (m.labels.node t).leadingIndices = t.leadingIndices := by
    simp only [leadingIndices, tail?_shift, Option.map_map]
    simp only [Shift.labels, List.length_map]
    rfl
  simp only [leading, hIndices, List.map_filterMap]
  refine List.filterMap_congr fun i _ => ?_
  simp only [Shift.labels, List.getElem?_map]

/-- Where nodes and comments are said to be is not seen. -/
theorem Shift.unseen : m.labels.Unseen where
  comments _ := rfl
  keepsBlank _ := rfl
  keepsComment _ _ := rfl
  noted t own f := by
    have hEmpty : (m.labels.node t).comments.isEmpty = t.comments.isEmpty := by
      simp only [Shift.labels, List.isEmpty_map]
    simp only [Layout.withComments, hEmpty, Traits.tail?_shift, Traits.leading_shift, Comment.merge?_shift]
    cases t.tail? <;> cases Comment.merge? t.leading <;> rfl
  item role t lines := by
    simp only [Piece.ofItem, Shift.labels, List.isEmpty_map]
  leading t := by
    rw [Traits.leading_shift, List.isEmpty_map]
  comment _ := rfl
  oneLine t := by
    simp only [Shift.span_node, Shift.span, Bool.beq_eq_decide_eq, Int.le_antisymm_iff, m.line_le_iff]

end

variable {r : Relabel} (hr : r.Unseen)

theorem withComments_relabel {α : Type} (r : Relabel) (f : α → α) (entries : List (Entry α)) :
    Policy.withComments (entries.map (Entry.relabel r f)) =
      ((Policy.withComments entries).1.map (fun part => (part.1.map r.comment, f part.2)),
        (Policy.withComments entries).2.map r.comment) := by
  induction entries with
  | nil => rfl
  | cons entry rest ih =>
    cases entry with
    | item x => simp only [List.map_cons, Entry.relabel, Policy.withComments, ih]; rfl
    | comment c =>
      simp only [List.map_cons, Entry.relabel, Policy.withComments, ih]
      obtain ⟨_ | ⟨part, parts⟩, trailing⟩ := Policy.withComments rest <;> rfl

theorem sortToEvaluationOrder_relabel (r : Relabel) (entries : List (Entry PromiseType)) :
    sortToEvaluationOrder (entries.map (Entry.relabel r (PromiseType.relabel r))) =
      (sortToEvaluationOrder entries).map (Entry.relabel r (PromiseType.relabel r)) := by
  have hSort := List.map_mergeSort (r := fun a b : List Comment × PromiseType =>
      decide (evaluationRank a.2.name.text ≤ evaluationRank b.2.name.text))
    (s := fun a b => decide (evaluationRank a.2.name.text ≤ evaluationRank b.2.name.text))
    (f := fun part => (part.1.map r.comment, part.2.relabel r)) (l := (Policy.withComments entries).1)
    (fun _ _ _ _ => rfl)
  simp only [sortToEvaluationOrder, withComments_relabel, ← hSort, List.map_append, List.map_flatMap,
    List.flatMap_map, List.map_map]
  rfl

include hr

theorem Relabel.Unseen.isEmpty (t : Traits) : (r.node t).comments.isEmpty = t.comments.isEmpty := by
  rw [hr.comments, List.isEmpty_map]

/-! ### Lists in their final form -/

theorem settleAfterGuards_relabel {α : Type} {isGuard : α → Bool} {change : (Traits → Traits) → α → α}
    {f : α → α} (hGuard : ∀ x, isGuard (f x) = isGuard x)
    (hChange : ∀ x, change (fun t => { t with keepsBlank := false }) (f x) =
      f (change (fun t => { t with keepsBlank := false }) x)) (afterGuard : Bool) (entries : List (Entry α)) :
    settleAfterGuards isGuard change afterGuard (entries.map (Entry.relabel r f)) =
      (settleAfterGuards isGuard change afterGuard entries).map (Entry.relabel r f) := by
  induction entries generalizing afterGuard with
  | nil => rfl
  | cons entry rest ih =>
    cases entry with
    | comment c => exact congrArg₂ List.cons (congrArg Entry.comment (hr.keepsComment c _).symm) (ih false)
    | item x =>
      simp only [List.map_cons, Entry.relabel, settleAfterGuards, hGuard, hChange, ih]
      split <;> rfl

theorem PromiseType.settle_relabel (x : PromiseType) : (x.relabel r).settle = x.settle.relabel r := by
  simp only [settle, PromiseType.relabel, ItemList.relabel]
  rw [settleAfterGuards_relabel hr (fun c => by cases c <;> rfl) fun c => by
    cases c <;> simp only [Clause.relabel, Clause.withTraits, Guard.relabel, Promise.relabel, hr.keepsBlank]]

theorem removeVacant_relabel (entries : List (Entry PromiseType)) :
    removeVacant (entries.map (Entry.relabel r (PromiseType.relabel r))) =
      (removeVacant entries).map (Entry.relabel r (PromiseType.relabel r)) := by
  rw [removeVacant, removeVacant, List.filter_map]
  congr 2
  funext entry
  cases entry with
  | item x =>
    simp only [Function.comp_apply, Entry.relabel, PromiseType.isVacant, PromiseType.relabel, ItemList.relabel,
      Leaf.relabel, hr.isEmpty, List.isEmpty_map]
  | comment c => rfl

theorem Contents.tidy_relabel (tidying : Tidying) (c : Contents) :
    (c.relabel r).tidy tidying = (c.tidy tidying).relabel r := by
  cases c with
  | body selections =>
    simp only [Contents.relabel, tidy, ItemList.relabel]
    rw [settleAfterGuards_relabel hr (fun x => by cases x <;> rfl) fun x => by
      cases x <;>
        simp only [Selection.relabel, Selection.withTraits, Guard.relabel, Assignment.relabel, hr.keepsBlank]]
  | bundle statements =>
    have hSettled : (statements.relabel r (PromiseType.relabel r)).mapItems PromiseType.settle =
        (statements.mapItems PromiseType.settle).relabel r (PromiseType.relabel r) := by
      simp only [ItemList.mapItems, ItemList.relabel, List.map_map, ItemList.mk.injEq, true_and, and_true]
      refine List.map_congr_left fun entry _ => ?_
      cases entry with
      | item x => exact congrArg Entry.item (PromiseType.settle_relabel hr x)
      | comment c => rfl
    have hApply : ∀ entries : List (Entry PromiseType),
        tidying.apply (entries.map (Entry.relabel r (PromiseType.relabel r))) =
          (tidying.apply entries).map (Entry.relabel r (PromiseType.relabel r)) := by
      intro entries
      simp only [Tidying.apply]
      split <;> split <;> simp only [removeVacant_relabel hr, sortToEvaluationOrder_relabel]
    simp only [Contents.relabel, tidy, hSettled]
    simp only [ItemList.relabel, hApply]

theorem Specification.tidy_relabel (tidying : Tidying) (s : Specification) (other : Traits) :
    Specification.tidy tidying { s.relabel r with traits := other } =
      { (s.tidy tidying).relabel r with traits := other } := by
  simp only [Specification.tidy, Specification.relabel, ItemList.mapItems, ItemList.relabel, List.map_map,
    ItemList.mk.injEq, true_and, and_true]
  refine List.map_congr_left fun entry _ => ?_
  cases entry with
  | item b => simp only [Function.comp_apply, Entry.relabel, Block.relabel, Contents.tidy_relabel hr]
  | comment c => rfl

/-! ### Lines -/

theorem leafLines_relabel (l : Leaf) : leafLines (l.relabel r) = leafLines l :=
  funext fun f => hr.noted l.traits _ f

theorem commented_relabel (leaf : Option Leaf) :
    (leaf.map (Leaf.relabel r)).filter (fun l => !l.traits.comments.isEmpty) =
      (leaf.filter fun l => !l.traits.comments.isEmpty).map (Leaf.relabel r) := by
  cases leaf with
  | none => rfl
  | some l =>
    have hEmpty : (l.relabel r).traits.comments.isEmpty = l.traits.comments.isEmpty := hr.isEmpty l.traits
    cases h : l.traits.comments.isEmpty <;> simp [Option.filter, hEmpty, h]

theorem withBraces_relabel (style : ListStyle) (opening closing : Option Leaf) (f : Frame) :
    withBraces style (opening.map (Leaf.relabel r)) (closing.map (Leaf.relabel r)) f =
      withBraces style opening closing f := by
  simp only [withBraces, commented_relabel hr]
  cases opening.filter (fun l => !l.traits.comments.isEmpty) <;>
    cases closing.filter (fun l => !l.traits.comments.isEmpty) <;>
    simp only [Option.map_none, Option.map_some, Option.isNone_none, Option.isNone_some, leafLines_relabel hr]

theorem listLines_relabel (kind : ListKind) (t : Traits) (opening closing : Option Leaf) (pieces : List Piece) :
    listLines kind (r.node t) (opening.map (Leaf.relabel r)) (closing.map (Leaf.relabel r)) pieces =
      listLines kind t opening closing pieces := by
  funext f
  have hStyles : ∀ f, kind.styles (opening.map (Leaf.relabel r)) (closing.map (Leaf.relabel r)) pieces f =
      kind.styles opening closing pieces f := by
    intro f
    cases kind <;> simp only [ListKind.styles, withBraces_relabel hr]
  simp only [listLines, hr.noted, hStyles]

theorem groupLines_relabel {α : Type} (kind : ListKind) {piece : α → Piece} {f : α → α} (g : ItemList α)
    (hPiece : ∀ x ∈ g.items, piece (f x) = piece x) :
    groupLines kind piece (g.relabel r f) = groupLines kind piece g := by
  have hPieces : (g.entries.map (Entry.relabel r f)).map (entryPiece piece) = g.entries.map (entryPiece piece) := by
    rw [List.map_map]
    refine List.map_congr_left fun entry hEntry => ?_
    cases entry with
    | item x => exact hPiece x (ItemList.mem_items.2 hEntry)
    | comment c => exact hr.comment c
  funext frame
  simp only [groupLines_eq]
  simp only [ItemList.relabel, hPieces, listLines_relabel hr]

theorem elementLines_relabel (e : Element) : elementLines (e.relabel r) = elementLines e := by
  induction e using Element.induction with
  | leaf word =>
    funext f
    simp only [Element.relabel_leaf, elementLines, leafLines_relabel hr]
  | call traits name arguments ih =>
    obtain ⟨argTraits, opening, entries, closing⟩ := arguments
    have hPieces : elementPieces (entries.map (Entry.relabel r (Element.relabel r))) = elementPieces entries := by
      rw [elementPieces_eq, elementPieces_eq, List.map_map]
      refine List.map_congr_left fun entry hEntry => ?_
      cases entry with
      | item x =>
        simp only [Function.comp_apply, Entry.relabel, entryPiece, elementPiece, Element.traits_relabel,
          hr.item, ih x (ItemList.mem_items.2 hEntry)]
      | comment c => exact hr.comment c
    funext f
    simp only [Element.relabel_call, ItemList.relabel, elementLines, hr.noted, leafLines_relabel hr, hPieces,
      listLines_relabel hr]

theorem valueLines_relabel (v : Value) : valueLines (v.relabel r) = valueLines v := by
  cases v with
  | single element => exact elementLines_relabel hr element
  | list elements =>
    refine groupLines_relabel hr .braced elements fun x _ => ?_
    rw [Element.traits_relabel, hr.item, elementLines_relabel hr]

theorem assignmentBody_relabel (a : Assignment) : assignmentBody (a.relabel r) = assignmentBody a := by
  funext f
  have hText : (a.name.relabel r).text = a.name.text := rfl
  simp only [assignmentBody, Assignment.relabel, leafLines_relabel hr, valueLines_relabel hr, hText]

theorem constraintLines_relabel (a : Assignment) : constraintLines (a.relabel r) = constraintLines a := by
  funext f
  rw [constraintLines, assignmentBody_relabel hr]
  exact hr.noted a.traits _ f

theorem selectionLines_relabel (a : Assignment) : selectionLines (a.relabel r) = selectionLines a := by
  funext f
  rw [selectionLines, assignmentBody_relabel hr]
  exact hr.noted a.traits _ f

theorem guardLines_relabel (g : Guard) : guardLines (g.relabel r) = guardLines g := by
  funext f
  simp only [guardLines, Guard.relabel, hr.noted, leafLines_relabel hr]

theorem allowsOneLine_relabel (p : Promise) : allowsOneLine (p.relabel r) = allowsOneLine p := by
  simp only [allowsOneLine, Promise.relabel, ItemList.relabel, Option.isNone_map, Leaf.relabel, hr.oneLine]
  rcases p.constraints.entries with _ | ⟨a | c, _ | ⟨second, rest⟩⟩
  · rfl
  · exact congrArg _ (hr.leading a.traits)
  all_goals rfl

theorem promiseLines_relabel (p : Promise) : promiseLines (p.relabel r) = promiseLines p := by
  have hConstraints : groupLines .constraints
        (fun a => Piece.ofItem .other a.traits (constraintLines a)) (p.relabel r).constraints =
      groupLines .constraints (fun a => Piece.ofItem .other a.traits (constraintLines a)) p.constraints := by
    refine groupLines_relabel hr .constraints p.constraints fun a _ => ?_
    rw [constraintLines_relabel hr]
    exact hr.item .other a.traits _
  have hEmpty : (p.relabel r).constraints.entries.isEmpty = p.constraints.entries.isEmpty :=
    List.isEmpty_map
  funext f
  simp only [promiseLines, allowsOneLine_relabel hr, hConstraints, hEmpty]
  simp only [Promise.relabel, hr.noted, leafLines_relabel hr]
  cases p.promisee with
  | none => rfl
  | some v => simp only [Option.map_some, valueLines_relabel hr]

theorem clausePiece_relabel (c : Clause) : clausePiece (c.relabel r) = clausePiece c := by
  cases c with
  | guard g =>
    simp only [Clause.relabel, clausePiece, guardLines_relabel hr]
    exact hr.item .guard g.traits _
  | promise p =>
    simp only [Clause.relabel, clausePiece, promiseLines_relabel hr]
    exact hr.item .statement p.traits _

theorem promiseTypeLines_relabel (p : PromiseType) : promiseTypeLines (p.relabel r) = promiseTypeLines p := by
  have hClauses := groupLines_relabel hr .clauses p.clauses fun c _ => clausePiece_relabel hr c
  have hEmpty : (p.clauses.relabel r (Clause.relabel r)).entries.isEmpty = p.clauses.entries.isEmpty :=
    List.isEmpty_map
  funext f
  simp only [promiseTypeLines, PromiseType.relabel, hr.noted, leafLines_relabel hr, hClauses, hEmpty]

theorem selectionPiece_relabel (s : Selection) : selectionPiece (s.relabel r) = selectionPiece s := by
  cases s with
  | guard g =>
    simp only [Selection.relabel, selectionPiece, guardLines_relabel hr]
    exact hr.item .guard g.traits _
  | assignment a =>
    simp only [Selection.relabel, selectionPiece, selectionLines_relabel hr]
    exact hr.item .statement a.traits _

theorem contentsLines_relabel (c : Contents) : contentsLines (c.relabel r) = contentsLines c := by
  cases c with
  | bundle statements =>
    refine groupLines_relabel hr .promiseTypes statements fun p _ => ?_
    rw [promiseTypeLines_relabel hr]
    exact hr.item .other p.traits _
  | body selections =>
    exact groupLines_relabel hr .selections selections fun s _ => selectionPiece_relabel hr s

theorem blockLines_relabel (b : Block) : blockLines (b.relabel r) = blockLines b := by
  have hParameters : groupLines .arguments (fun l => Piece.ofItem .other l.traits (leafLines l))
        (b.parameters.relabel r (Leaf.relabel r)) =
      groupLines .arguments (fun l => Piece.ofItem .other l.traits (leafLines l)) b.parameters := by
    refine groupLines_relabel hr .arguments b.parameters fun l _ => ?_
    rw [leafLines_relabel hr]
    exact hr.item .other l.traits _
  funext f
  simp only [blockLines, Block.relabel, hr.noted, leafLines_relabel hr, hParameters, contentsLines_relabel hr]

/-- A relabeled file is laid out as the file is. Where the file itself is said to be does not matter. -/
theorem specificationLines_relabel {s : Specification} (hSilent : s.traits.Silent) {other : Traits}
    (hOther : other.Silent) {f : Frame} (hFrame : f.keepsBlank = none) :
    specificationLines { s.relabel r with traits := other } f = specificationLines s f := by
  have hMoved : specificationLines (s.relabel r) f = specificationLines s f := by
    refine congrFun (groupLines_relabel hr .specification s fun b _ => ?_) f
    rw [blockLines_relabel hr]
    exact hr.item .other b.traits _
  have hNode : (s.relabel r).traits.Silent := by
    refine ⟨(hr.comments s.traits).trans (List.map_eq_nil_iff.2 hSilent.1), ?_⟩
    have hSame : { s.traits with keepsBlank := false } = s.traits := by rw [← hSilent.2]
    exact congrArg Traits.keepsBlank ((congrArg r.node hSame).symm.trans (hr.keepsBlank s.traits))
  rw [← hMoved, specificationLines, specificationLines, groupLines_eq, groupLines_eq, listLines, listLines,
    withComments_silent hOther hFrame, withComments_silent hNode hFrame]

end PolicyFormat.Policy
