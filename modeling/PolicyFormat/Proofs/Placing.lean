import PolicyFormat.Proofs.Derivation
import PolicyFormat.Proofs.Formed
import PolicyFormat.Proofs.Grouping
import PolicyFormat.Proofs.Sharing

/-! The comments that a tree holds, and what one node does with the comments that it is given: it holds
some of them and hands on the others. -/
namespace PolicyFormat.Policy

/-! ### The comments of a tree -/

/-- The comments of a word that may be missing. -/
def optionalComments : Option Leaf → List Comment
  | some leaf => leaf.traits.comments
  | none => []

section

variable {α : Type} (f : α → List Comment)

/-- The comments of an element of a list, or the comment that stands in its place. -/
def Entry.comments : Entry α → List Comment
  | .item x => f x
  | .comment c => [c]

/-- The comments of a list: its own, those of its brackets and elements, and those between them. -/
def ItemList.comments (g : ItemList α) : List Comment :=
  g.traits.comments ++
    (optionalComments g.opening ++ g.entries.flatMap (Entry.comments f) ++ optionalComments g.closing)

end

mutual

def Element.comments : Element → List Comment
  | .leaf word => word.traits.comments
  | .call traits name ⟨argTraits, opening, entries, closing⟩ =>
    traits.comments ++ (name.traits.comments ++ (argTraits.comments ++
      (optionalComments opening ++ Element.commentsEach entries ++ optionalComments closing)))

/-- The comments of the arguments of a call. -/
def Element.commentsEach : List (Entry Element) → List Comment
  | [] => []
  | .item value :: rest => value.comments ++ Element.commentsEach rest
  | .comment c :: rest => c :: Element.commentsEach rest

end

theorem Element.commentsEach_eq (entries : List (Entry Element)) :
    Element.commentsEach entries = entries.flatMap (Entry.comments Element.comments) := by
  induction entries with
  | nil => simp [Element.commentsEach]
  | cons entry rest ih => cases entry <;> simp [Element.commentsEach, Entry.comments, ih]

theorem Element.comments_leaf (word : Leaf) : (Element.leaf word).comments = word.traits.comments := by
  simp [Element.comments]

theorem Element.comments_call (traits : Traits) (name : Leaf) (arguments : ItemList Element) :
    (Element.call traits name arguments).comments =
      traits.comments ++ (name.traits.comments ++ arguments.comments Element.comments) := by
  obtain ⟨_, _, entries, _⟩ := arguments
  simp [Element.comments, Element.commentsEach_eq, ItemList.comments]

def Value.comments : Value → List Comment
  | .single element => element.comments
  | .list elements => elements.comments Element.comments

def Assignment.comments (a : Assignment) : List Comment :=
  a.traits.comments ++ (a.name.traits.comments ++ a.arrow.traits.comments ++ a.value.comments ++
    optionalComments a.comma)

def Guard.comments (g : Guard) : List Comment :=
  g.traits.comments ++ g.expression.traits.comments

def Promise.comments (p : Promise) : List Comment :=
  p.traits.comments ++ (p.promiser.traits.comments ++ p.promisee.elim [] Value.comments ++
    optionalComments p.comma ++ p.constraints.comments Assignment.comments ++
    p.semicolon.traits.comments)

def Clause.comments : Clause → List Comment
  | .guard g => g.comments
  | .promise p => p.comments

def PromiseType.comments (p : PromiseType) : List Comment :=
  p.traits.comments ++ (p.name.traits.comments ++ p.clauses.comments Clause.comments)

def Selection.comments : Selection → List Comment
  | .guard g => g.comments
  | .assignment a => a.comments

def Contents.comments : Contents → List Comment
  | .bundle statements => statements.comments PromiseType.comments
  | .body selections => selections.comments Selection.comments

def Block.comments (b : Block) : List Comment :=
  b.traits.comments ++ (b.keyword.traits.comments ++ b.type.traits.comments ++ b.name.traits.comments ++
    b.parameters.comments (fun l => l.traits.comments) ++ b.contents.comments)

/-- The comments of a policy file, wherever they stand. -/
def Specification.comments (s : Specification) : List Comment :=
  ItemList.comments Block.comments s

/-! ### Nothing is lost -/

/-- Of the comments given, some are held and all others handed on. -/
def Passed (held handed given : List Comment) : Prop :=
  census held + census handed = census given

namespace Passed

variable {held handed given held' handed' given' : List Comment}

theorem append (h : Passed held handed given) (h' : Passed held' handed' given') :
    Passed (held ++ held') (handed ++ handed') (given ++ given') := by
  simp only [Passed, census_append] at *
  rw [← h, ← h']
  abel

theorem of_census (h : Passed held handed given) (hSame : census given = census given') : Passed held handed given' :=
  h.trans hSame

theorem handed_le (h : Passed held handed given) : census handed ≤ census given := by
  rw [← h]
  exact Multiset.le_add_left _ _

theorem adopt (h : Passed held handed given) {t : Traits} (hNone : t.comments = []) (allowsTail : Bool) :
    Passed ((t.adopt handed allowsTail).1.comments ++ held) (t.adopt handed allowsTail).2 given := by
  rw [Passed, ← h]
  unfold Traits.adopt
  dsimp only
  split
  · simp [hNone]
  · simp only [hNone, List.nil_append, census_append, census_settle, census_nil]
    abel

end Passed

/-! ### The comments given to a node -/

/-- Comments of the given sort, each ending on a later line than the one before. None of them has been
told to keep the blank line before it. -/
structure Fair (P : Comment → Prop) (cs : List Comment) : Prop where
  sort : ∀ c ∈ cs, P c ∧ c.keepsBlank = false
  ordered : cs.Pairwise (fun c d => c.span.endLine ≤ d.span.endLine)

section

variable {P : Comment → Prop} {cs : List Comment}

theorem Fair.sublist {sub : List Comment} (h : Fair P cs) (hSub : sub.Sublist cs) : Fair P sub :=
  ⟨fun c hc => h.sort c (hSub.subset hc), h.ordered.sublist hSub⟩

theorem Steady.keepsBlank (hSteady : Steady P) : Steady (fun c => P c ∧ c.keepsBlank = false) := by
  rintro c d hSame ⟨hc, hKeeps⟩
  exact ⟨hSteady c d hSame hc, (congrArg Comment.keepsBlank hSame).symm.trans hKeeps⟩

theorem Passed.sort {held handed given : List Comment} (h : Passed held handed given)
    (hSteady : Steady P) (hGiven : ∀ c ∈ given, P c ∧ c.keepsBlank = false) :
    ∀ c ∈ handed, P c ∧ c.keepsBlank = false :=
  hSteady.keepsBlank.of_census_le h.handed_le hGiven

/-- Detaching the first comment changes its affinity only. -/
theorem detachFirst_cases (firstLine : Option Int) (cs : List Comment) : detachFirst firstLine cs = cs ∨
      ∃ c rest, cs = c :: rest ∧ detachFirst firstLine cs = { c with affinity := some .standalone } :: rest := by
  cases cs with
  | nil => exact .inl rfl
  | cons c rest =>
    rw [detachFirst]
    split
    · exact .inr ⟨c, rest, rfl, rfl⟩
    · exact .inl rfl

theorem census_detachFirst (firstLine : Option Int) (cs : List Comment) :
    census (detachFirst firstLine cs) = census cs := by
  rcases detachFirst_cases firstLine cs with h | ⟨c, rest, rfl, h⟩
  · rw [h]
  · rw [h]
    rfl

theorem Fair.detachFirst (hSteady : Steady P) (h : Fair P cs) (firstLine : Option Int) :
    Fair P (detachFirst firstLine cs) := by
  refine ⟨hSteady.keepsBlank.of_census_le (census_detachFirst firstLine cs).le h.sort, ?_⟩
  rcases detachFirst_cases firstLine cs with hSame | ⟨c, rest, rfl, hSame⟩
  · rw [hSame]
    exact h.ordered
  · rw [hSame]
    exact List.pairwise_cons.2 (List.pairwise_cons.1 h.ordered)

end

/-! ### Nodes that keep comments and nodes that hand them on -/

namespace Traits

variable {P : Comment → Prop} {t : Traits} {handed : List Comment}

@[simp] theorem keepsBlank_adopt (allowsTail : Bool) : (t.adopt handed allowsTail).1.keepsBlank = t.keepsBlank := by
  unfold adopt
  dsimp only
  split <;> rfl

@[simp] theorem span_adopt (allowsTail : Bool) : (t.adopt handed allowsTail).1.span = t.span := by
  unfold adopt
  dsimp only
  split <;> rfl

theorem holds_adopt (hSteady : Steady P) (hNone : t.comments = [])
    (hHanded : ∀ c ∈ handed, P c ∧ c.keepsBlank = false) (allowsTail : Bool) :
    (t.adopt handed allowsTail).1.Holds P := by
  have hPassed : Passed [] handed handed := by simp [Passed]
  have hAdopted := hPassed.adopt hNone allowsTail
  refine hSteady.keepsBlank.of_census_le ?_ hHanded
  rw [← hAdopted, List.append_nil]
  exact Multiset.le_add_right _ _

/-- A node that adopts what its parts hand up holds comments of the right sort, and nothing is lost. -/
theorem placed_adopt {held given shared : List Comment} (hSteady : Steady P) (h : Passed held handed shared)
    (hShared : census shared = census given) (hGiven : ∀ c ∈ given, P c ∧ c.keepsBlank = false)
    (hNone : t.comments = []) (allowsTail : Bool) :
    (t.adopt handed allowsTail).1.Holds P ∧ (t.adopt handed allowsTail).1.keepsBlank = t.keepsBlank ∧
      Passed ((t.adopt handed allowsTail).1.comments ++ held) (t.adopt handed allowsTail).2 given := by
  have hPassed := h.of_census hShared
  exact ⟨holds_adopt hSteady hNone (hPassed.sort hSteady hGiven) allowsTail, keepsBlank_adopt allowsTail,
    hPassed.adopt hNone allowsTail⟩

/-- A node that hands on comments stays as it is. -/
theorem adopt_of_handsOn {rank : Int} (h : t.handsOn? = some rank) (allowsTail : Bool) :
    t.adopt handed allowsTail = (t, handOn rank handed) := by
  have hSame : Keeper.handsOn? { yields := t.yields, allowsTail } = some rank := h
  simp [adopt, hSame]

/-- A node that keeps comments hands nothing on. -/
theorem adopt_of_keeps (h : t.handsOn? = none) (allowsTail : Bool) : t.adopt handed allowsTail =
      ({ t with comments := t.comments ++ Keeper.settle ⟨t.yields, allowsTail⟩ handed }, []) := by
  have hSame : Keeper.handsOn? { yields := t.yields, allowsTail } = none := h
  simp [adopt, hSame]

end Traits

/-- A word treats its comments as any node does. -/
theorem Leaf.receive_eq {l : Leaf} (hNone : l.traits.comments = []) (cs : List Comment) :
    l.receive cs = ({ l with traits := (l.traits.adopt cs).1 }, (l.traits.adopt cs).2) := by
  cases hHands : l.traits.handsOn? with
  | some rank => simp [receive, hHands, Traits.adopt_of_handsOn hHands]
  | none => simp [receive, hHands, Traits.adopt_of_keeps hHands, hNone, Keeper.settle]

theorem Leaf.receive_passed {l : Leaf} (hNone : l.traits.comments = []) (cs : List Comment) :
    Passed (l.receive cs).1.traits.comments (l.receive cs).2 cs := by
  have hPassed : Passed [] cs cs := by simp [Passed]
  simpa [Leaf.receive_eq hNone] using hPassed.adopt hNone true

/-- A token that hands on its comments stays as it is. -/
@[simp] theorem Token.receive_leaf_handsOn (t : Token) {rank : Int} (hRank : rank ≠ 0) (cs : List Comment) :
    (t.leaf (some rank)).receive cs = (t.leaf (some rank), handOn rank cs) := by
  have hHands : (t.leaf (some rank)).traits.handsOn? = some rank := by simp [Token.leaf, Traits.handsOn?, hRank]
  simp [Leaf.receive, hHands]

/-- A word that hands on its comments is silent, and keeps its text. -/
theorem Token.silent_receive (t : Token) (cs : List Comment) :
    (t.leaf.receive cs).1.traits.Silent ∧ (t.leaf.receive cs).1.text = t.text := by
  rw [t.receive_leaf_handsOn (by decide)]
  exact ⟨⟨rfl, rfl⟩, rfl⟩

theorem Token.silent_leaf (t : Token) (yields : Option Int) : (t.leaf yields).traits.Silent :=
  ⟨rfl, rfl⟩

theorem passed_receiveOptional {leaf : Option Leaf} {cs : List Comment}
    (hNone : ∀ l ∈ leaf, l.traits.comments = []) (hMissing : leaf = none → cs = []) :
    Passed (optionalComments (receiveOptional leaf cs).1) (receiveOptional leaf cs).2 cs := by
  cases leaf with
  | none => simp [receiveOptional, optionalComments, Passed, hMissing rfl]
  | some l => exact Leaf.receive_passed (hNone l rfl) cs

/-! ### Lists -/

/-- The share of each element of a list, and what the list's own leaves and its end get. -/
structure ItemList.Planned {α : Type} (g : ItemList α) (rule : ListRule) (span : α → Span)
    (cs inner : List Comment) (slots : List (Slot α)) (plan : Plan) : Prop where
  perm : (plan.opening ++ inner ++ plan.closing).Perm cs
  opening_sublist : plan.opening.Sublist cs
  inner_sublist : inner.Sublist cs
  closing_sublist : plan.closing.Sublist cs
  opening : g.opening = none → plan.opening = []
  closing : g.closing = none → plan.closing = []
  shared : Sharing.Shared { span, inserts := true, owns := fun _ => rule.owns } g.items
    (detachFirst (g.items.head?.map (fun item => (span item).startLine)) inner) slots plan.trailing
  shares : plan.shares = slots.map (fun slot => (slot.before, slot.given))

/-- Comments are cut into two parts, which both keep their order. -/
structure IsSplit (pair : List Comment × List Comment) (cs : List Comment) : Prop where
  perm : (pair.1 ++ pair.2).Perm cs
  left : pair.1.Sublist cs
  right : pair.2.Sublist cs

theorem isSplit_nil (cs : List Comment) : IsSplit ([], cs) cs :=
  ⟨.refl _, List.nil_sublist cs, .refl _⟩

theorem isSplit_partition (p : Comment → Bool) (cs : List Comment) : IsSplit (cs.partition p) cs := by
  rw [List.partition_eq_filter_filter]
  exact ⟨List.filter_append_perm p cs, List.filter_sublist, List.filter_sublist⟩

theorem ItemList.planned_plan {α : Type} (g : ItemList α) (rule : ListRule) (span : α → Span)
    (cs : List Comment) : ∃ inner slots, g.Planned rule span cs inner slots (g.plan rule span cs) := by
  obtain ⟨first, hFirst, hOpening, hNoOpening⟩ : ∃ first : List Comment × List Comment, first = (match g.opening with
        | some leaf =>
          if rule.opensBlock then
            cs.partition (fun (c : Comment) => c.span.start < leaf.traits.span.start)
          else ([], cs)
        | none => ([], cs)) ∧ IsSplit first cs ∧ (g.opening = none → first.1 = []) := by
    refine ⟨_, rfl, ?_, fun h => by simp [h]⟩
    split
    · split
      · exact isSplit_partition _ cs
      · exact isSplit_nil cs
    · exact isSplit_nil cs
  obtain ⟨last, hLast, hClosing, hNoClosing⟩ : ∃ last : List Comment × List Comment, last = (match g.closing with
        | some leaf => first.2.partition (fun c => leaf.traits.span.start < c.span.start)
        | none => ([], first.2)) ∧ IsSplit last first.2 ∧ (g.closing = none → last.1 = []) := by
    refine ⟨_, rfl, ?_, fun h => by simp [h]⟩
    split
    · exact isSplit_partition _ first.2
    · exact isSplit_nil first.2
  obtain ⟨shares, hShares⟩ : ∃ shares, shares =
      Sharing.share { span, inserts := true, owns := fun _ => rule.owns } g.items
        (detachFirst (g.items.head?.map (fun item => (span item).startLine)) last.2) := ⟨_, rfl⟩
  have hPlan : g.plan rule span cs =
      { opening := first.1, closing := last.1, trailing := shares.trailing
        shares := shares.slots.map (fun slot => (slot.before, slot.given)) } := by
    rw [hShares, hLast, hFirst]
    rfl
  refine ⟨last.2, shares.slots, ?_⟩
  rw [hPlan]
  exact {
    perm := by
      rw [List.append_assoc]
      exact ((List.perm_append_comm.trans hClosing.perm).append_left first.1).trans hOpening.perm
    opening_sublist := hOpening.left
    inner_sublist := hClosing.right.trans hOpening.right
    closing_sublist := hClosing.left.trans hOpening.right
    opening := hNoOpening
    closing := hNoClosing
    shared := hShares ▸ Sharing.shared_share _ _ _
    shares := rfl }

/-- What has become of a node and of the comments given to it. -/
structure Placed {α : Type} (F : α → Prop) (held : α → List Comment) (given : List Comment)
    (result : α × List Comment) : Prop where
  formed : F result.1
  passed : Passed (held result.1) result.2 given

section

variable {α : Type} {P : Comment → Prop} {F : α → Prop} {held : α → List Comment}
  {give : α → List Comment → α × List Comment} {slots : List (Slot α)}

/-- The entries of a list whose elements have got their comments. -/
def placedEntries (give : α → List Comment → α × List Comment) (slots : List (Slot α)) : List (Entry α) :=
  slots.flatMap (fun slot => slot.before.map .comment ++ [.item (give slot.node slot.given).1])

/-- What the elements of a list hand up. -/
def handedUp (give : α → List Comment → α × List Comment) (slots : List (Slot α)) : List Comment :=
  slots.flatMap (fun slot => (give slot.node slot.given).2)

theorem receiveEach_eq (give : α → List Comment → α × List Comment) (slots : List (Slot α)) :
    ItemList.receiveEach give ((slots.map (·.node)).map .item) (slots.map (fun slot => (slot.before, slot.given))) =
      (placedEntries give slots, handedUp give slots) := by
  induction slots with
  | nil => rfl
  | cons slot slots ih =>
    simp only [List.map_cons, ItemList.receiveEach, ih]
    simp [placedEntries, handedUp]

theorem Sharing.Shared.fair {s : Sharing α} {nodes : List α} {cs trailing : List Comment}
    (h : s.Shared nodes cs slots trailing) (hFair : Fair P cs) :
    (∀ slot ∈ slots, Fair P slot.before ∧ Fair P slot.given) ∧ Fair P trailing :=
  ⟨fun slot hSlot => ⟨hFair.sublist (h.sublist.1 slot hSlot).1, hFair.sublist (h.sublist.1 slot hSlot).2⟩,
    hFair.sublist h.sublist.2⟩

section

variable (hSlots : ∀ slot ∈ slots, Fair P slot.before ∧ Fair P slot.given)
  (hGive : ∀ slot ∈ slots, Fair P slot.given → Placed F held slot.given (give slot.node slot.given))
include hSlots hGive

theorem item_mem_placedEntries {x : α} (hx : .item x ∈ placedEntries give slots) : F x := by
  obtain ⟨slot, hSlot, hx⟩ := List.mem_flatMap.1 hx
  obtain rfl : x = (give slot.node slot.given).1 := by simpa using hx
  exact (hGive slot hSlot (hSlots slot hSlot).2).formed

theorem passed_placedEntries : Passed ((placedEntries give slots).flatMap (Entry.comments held)) (handedUp give slots)
      (slots.flatMap (fun slot => slot.before ++ slot.given)) := by
  induction slots with
  | nil => simp [placedEntries, handedUp, Passed]
  | cons slot slots ih =>
    have hFirst := (hGive slot (by simp) (hSlots slot (by simp)).2).passed
    have hRest := ih (fun other h => hSlots other (by simp [h])) (fun other h => hGive other (by simp [h]))
    have hBefore : Passed slot.before [] slot.before := by simp [Passed]
    have hComments : (slot.before.map (Entry.comment (α := α))).flatMap (Entry.comments held) = slot.before := by
      simp [List.flatMap_map, Entry.comments]
    simpa [placedEntries, handedUp, Entry.comments, hComments] using (hBefore.append hFirst).append hRest

end

theorem comment_mem_placedEntries (hSlots : ∀ slot ∈ slots, Fair P slot.before ∧ Fair P slot.given)
    {c : Comment} (hc : .comment c ∈ placedEntries give slots) : P c := by
  obtain ⟨slot, hSlot, hc⟩ := List.mem_flatMap.1 hc
  have hMem : c ∈ slot.before := by simpa using hc
  exact ((hSlots slot hSlot).1.sort c hMem).1

theorem items_placedEntries (give : α → List Comment → α × List Comment) (slots : List (Slot α)) :
    (placedEntries give slots).filterMap Entry.item? = slots.map (fun slot => (give slot.node slot.given).1) := by
  induction slots with
  | nil => rfl
  | cons slot slots ih =>
    have hNone : (slot.before.map (Entry.comment (α := α))).filterMap Entry.item? = [] := by
      simp [List.filterMap_map, Function.comp_def, Entry.item?]
    simp only [placedEntries] at ih
    simp [placedEntries, hNone, Entry.item?, ih]

end

/-- A list as it was read has got its comments. Its brackets have shares of their own. -/
structure ListPlaced {α : Type} (P : Comment → Prop) (F : α → Prop) (held : α → List Comment)
    (opening closing : Option Leaf) (items : List α) (given : List Comment)
    (result : ItemList α × List Comment) : Prop where
  formed : result.1.Formed P F
  passed : Passed (result.1.comments held) result.2 given
  opening : ∃ share, Fair P share ∧ result.1.opening = (receiveOptional opening share).1
  closing : ∃ share, Fair P share ∧ result.1.closing = (receiveOptional closing share).1
  items : result.1.items = [] ↔ items = []

section

variable {α : Type} {P : Comment → Prop} {F : α → Prop} {held : α → List Comment}
  {give : α → List Comment → α × List Comment} {items : List α} {opening closing : Option Leaf}

/-- A list that is given comments, in terms of the shares of its elements. -/
theorem receive_listOf {place : Span} {rule : ListRule} {span : α → Span} {cs inner : List Comment}
    {slots : List (Slot α)} {plan : Plan}
    (hPlan : (listOf place opening items closing).plan rule span cs = plan)
    (hPlanned : (listOf place opening items closing).Planned rule span cs inner slots plan) :
    (listOf place opening items closing).receive rule span give cs =
      ({ traits := (listOf place opening items closing).traits
         opening := (receiveOptional opening plan.opening).1
         entries := placedEntries give slots ++ plan.trailing.map .comment
         closing := (receiveOptional closing plan.closing).1 },
        handOn 1 ((receiveOptional opening plan.opening).2 ++ handedUp give slots ++
          (receiveOptional closing plan.closing).2)) := by
  have hItems : slots.map (·.node) = items := by
    simpa using hPlanned.shared.nodes_eq
  have hEach : ItemList.receiveEach give (listOf place opening items closing).entries plan.shares =
      (placedEntries give slots, handedUp give slots) := by
    rw [hPlanned.shares, ← receiveEach_eq]
    simp [listOf, ← hItems]
  have hHands : (listOf place opening items closing).traits.handsOn? = some 1 := rfl
  unfold ItemList.receive
  simp only [hPlan, hEach]
  simp only [ItemList.complete, Traits.adopt_of_handsOn hHands]
  rfl

/-- A list without brackets whose elements hand nothing on hands nothing on. -/
theorem handed_nil_of_listOf (place : Span) (rule : ListRule) (span : α → Span)
    (hEach : ∀ x ∈ items, ∀ given, (give x given).2 = []) (cs : List Comment) :
    ((listOf place none items none).receive rule span give cs).2 = [] := by
  obtain ⟨inner, slots, hPlanned⟩ := (listOf place none items none).planned_plan rule span cs
  have hNodes : slots.map (·.node) = items := by
    simpa using hPlanned.shared.nodes_eq
  have hUp : handedUp give slots = [] :=
    List.flatMap_eq_nil_iff.2 fun slot hSlot => hEach slot.node (hNodes ▸ List.mem_map.2 ⟨slot, hSlot, rfl⟩) _
  rw [receive_listOf rfl hPlanned, hUp]
  rfl

theorem listPlaced_receive (hSteady : Steady P) (place : Span) (opening closing : Option Leaf)
    (rule : ListRule) (span : α → Span) (hOpening : ∀ l ∈ opening, l.traits.comments = [])
    (hClosing : ∀ l ∈ closing, l.traits.comments = [])
    (hGive : ∀ x ∈ items, ∀ cs, Fair P cs → Placed F held cs (give x cs)) {cs : List Comment}
    (hFair : Fair P cs) :
    ListPlaced P F held opening closing items cs
      ((listOf place opening items closing).receive rule span give cs) := by
  obtain ⟨inner, slots, hPlanned⟩ := (listOf place opening items closing).planned_plan rule span cs
  rw [receive_listOf rfl hPlanned]
  set plan := (listOf place opening items closing).plan rule span cs
  have hInner := ((hFair.sublist hPlanned.inner_sublist).detachFirst hSteady
    ((listOf place opening items closing).items.head?.map (fun item => (span item).startLine)))
  obtain ⟨hSlots, hTrailing⟩ := hPlanned.shared.fair hInner
  have hNodes : slots.map (·.node) = items := by
    simpa using hPlanned.shared.nodes_eq
  have hEach : ∀ slot ∈ slots, Fair P slot.given → Placed F held slot.given (give slot.node slot.given) :=
    fun slot hSlot hGiven => hGive slot.node (hNodes ▸ List.mem_map.2 ⟨slot, hSlot, rfl⟩) _ hGiven
  refine ⟨⟨⟨rfl, rfl⟩, ?_, ?_⟩, ?_, ⟨_, hFair.sublist hPlanned.opening_sublist, rfl⟩,
    ⟨_, hFair.sublist hPlanned.closing_sublist, rfl⟩, ?_⟩
  · intro x hx
    rcases List.mem_append.1 hx with hx | hx
    · exact item_mem_placedEntries hSlots hEach hx
    · simp at hx
  · intro c hc
    rcases List.mem_append.1 hc with hc | hc
    · exact comment_mem_placedEntries hSlots hc
    · exact (hTrailing.sort c (by simpa using hc)).1
  · have hEntries := passed_placedEntries hSlots hEach
    have hFirst := passed_receiveOptional hOpening hPlanned.opening
    have hLast := passed_receiveOptional hClosing hPlanned.closing
    have hEnd : Passed plan.trailing [] plan.trailing := by simp [Passed]
    have hShared : census (slots.flatMap (fun slot => slot.before ++ slot.given) ++ plan.trailing) =
        census inner := by
      have hEq := hPlanned.shared.census_eq
      rw [census_detachFirst] at hEq
      simpa only [census_append, census_flatMap] using hEq
    have hGiven : census (plan.opening ++ (slots.flatMap (fun slot => slot.before ++ slot.given) ++
        plan.trailing) ++ plan.closing) = census cs := by
      rw [← census_perm hPlanned.perm]
      simp only [census_append] at hShared ⊢
      rw [hShared]
    have hAll := ((hFirst.append (hEntries.append hEnd)).append hLast).of_census hGiven
    have hComments : (plan.trailing.map (Entry.comment (α := α))).flatMap (Entry.comments held) = plan.trailing := by
      simp [List.flatMap_map, Entry.comments]
    simpa [Passed, ItemList.comments, listOf, hComments] using hAll
  · rw [← hNodes, ItemList.items, List.filterMap_append, items_placedEntries]
    simp [List.filterMap_map, Function.comp_def, Entry.item?]

/-- A list without brackets ends in an element if its last element wants all its comments. -/
theorem endsInItem_receive (place : Span) (span : α → Span) {cs : List Comment} (hEmpty : items = [] → cs = [])
    (hWants : ∀ last ∈ items.getLast?, ∀ c ∈ cs,
      c.span.endLine < (span last).endLine ∨ c.trails (span last) [] = true) :
    ((listOf place none items none).receive {} span give cs).1.EndsInItem := by
  obtain ⟨inner, slots, hPlanned⟩ := (listOf place none items none).planned_plan {} span cs
  rw [receive_listOf rfl hPlanned]
  have hNodes : slots.map (·.node) = items := by
    simpa using hPlanned.shared.nodes_eq
  set firstLine := (listOf place none items none).items.head?.map (fun item => (span item).startLine)
  have hSpan : ∀ c ∈ detachFirst firstLine inner, ∃ d ∈ cs, d.span = c.span := by
    intro c hc
    obtain ⟨d, hd, hSame⟩ := mem_of_census_le (census_detachFirst firstLine inner).le hc
    have hEq : d.unplaced.span = c.unplaced.span := by rw [hSame]
    exact ⟨d, hPlanned.inner_sublist.subset hd, hEq⟩
  have hTrailing : ((listOf place none items none).plan {} span cs).trailing = [] := by
    rcases hLast : items.getLast? with _ | last
    · obtain rfl := List.getLast?_eq_none_iff.1 hLast
      refine List.eq_nil_iff_forall_not_mem.2 fun c hc => ?_
      obtain ⟨d, hd, -⟩ := hSpan c (hPlanned.shared.sublist.2.subset hc)
      simp [hEmpty rfl] at hd
    · refine hPlanned.shared.trailing_nil (show _ = some last by simpa using hLast) fun c hc => ?_
      obtain ⟨d, hd, hSame⟩ := hSpan c hc
      have hWanted := hWants last hLast d hd
      simp only [Comment.trails, hSame] at hWanted
      rcases hWanted with hWanted | hWanted
      · simp [Sharing.wants, hWanted]
      · simp only [Sharing.wants, Comment.trails, List.map_nil, hWanted]
        simp
  intro c hc
  rw [hTrailing, List.map_nil, List.append_nil] at hc
  rcases List.eq_nil_or_concat slots with rfl | ⟨slots, slot, rfl⟩
  · simp [placedEntries] at hc
  · simp [placedEntries] at hc

end

end PolicyFormat.Policy
