import PolicyFormat.Proofs.ValueShown

/-! The layout of a tree. Every tree as it should be is laid out, in one of the inks of a tree that
differs from it only in the blank lines of lists in braces. -/
namespace PolicyFormat.Layout

open Policy

variable {f : Frame} {a : Assignment} {style : ListStyle} {p : Promise}

variable {α : Type} {plain : α → α}

/-! ### Combining layouts -/

variable {β : Type}

/-- What `plain` leaves alone is the same in all that differs only in what it forgets. -/
theorem eq_of_plain {field : α → β} {x y : α} (h : plain y = plain x) (hField : ∀ x, field (plain x) = field x) :
    field y = field x := by
  rw [← hField y, h, hField]

theorem Slimmer.bind {a b : Lines} {g h : List Line → Lines} (hab : Slimmer a b)
    (hNext : ∀ x y, x ≠ [] → Thinner x y → Slimmer (g x) (h y)) : Slimmer (a >>= g) (b >>= h) := by
  obtain ⟨x, y, rfl, rfl, hNonempty, hThinner⟩ := hab
  exact hNext x y hNonempty hThinner

theorem Slimmer.map_indentRest {a b : Lines} (h : Slimmer a b) (f : Frame) :
    Slimmer (f.indentRest <$> a) (f.indentRest <$> b) := by
  obtain ⟨x, y, rfl, rfl, hNonempty, hThinner⟩ := h
  exact ⟨_, _, rfl, rfl, indentRest_ne_nil f hNonempty, hThinner.indentRest f⟩

/-! ### Attributes -/

variable {b : Assignment}

variable {P : Comment → Prop}

/-- The lines of an attribute with its value in the given frame after the given gap. -/
def besideName (gap : List Line) (frame : Frame) (a : Assignment) : Lines := do
  let value ← valueLines a.value frame
  return joinLines [[⟨a.name.text, some 0, []⟩], gap, value]

/-- The frame of the value of an attribute. -/
def valueFrame (a : Assignment) (f : Frame) (indent : Int) : Frame :=
  (if functionAttributes.contains a.name.text then { f with allowsBraceless := false } else f).child indent

/-- An attribute on one line. -/
def besideInline (a : Assignment) (f : Frame) : Lines :=
  besideName [{ text := " => " }] (valueFrame a f (a.name.text.length + 0 + 4)) a

/-- An attribute with its value on the next line. -/
def besideBroken (a : Assignment) (f : Frame) : Lines :=
  besideName [{ text := " =>" }, { text := "", indent := some tabSize }] (valueFrame a f tabSize) a

theorem assignmentBody_eq (hSilent : a.name.traits.Silent) (f : Frame) : assignmentBody a f = firstThatFits f
      (if f.mayBreakConstraint then [fun _ => besideInline a f, fun _ => besideBroken a f]
       else [fun _ => besideInline a f]) := by
  rw [assignmentBody, leafLines_silent hSilent rfl]
  rfl

theorem allowsBraceless_valueFrame (a : Assignment) (f : Frame) (indent : Int) :
    (valueFrame a f indent).allowsBraceless = (f.allowsBraceless && !functionAttributes.contains a.name.text) := by
  unfold valueFrame
  cases functionAttributes.contains a.name.text <;> simp [Frame.child]

theorem keepsBlank_valueFrame (a : Assignment) (f : Frame) (indent : Int) :
    (valueFrame a f indent).keepsBlank = none := rfl

theorem Assignment.formed_of_plain (h : b.plain = a.plain) (ha : a.Formed P) : b.Formed P := by
  rw [← Assignment.formed_plain, h]
  exact Assignment.formed_plain.2 ha

/-- How much the layout of an attribute without its comments shows. -/
def bodySight (braceless : Bool) : Sight Assignment :=
  ⟨Assignment.plain, Assignment.Formed Comment.Never, Assignment.BodyAlike braceless⟩

theorem bodySight_lawful (braceless : Bool) : (bodySight braceless).Lawful where
  quiet_plain _ := Assignment.formed_plain.2
  alike_plain a b h := ⟨h.name, (valueSight_lawful _).alike_plain _ _ h.value⟩
  alike_trans a b c hab hbc := by
    refine ⟨hab.name.trans hbc.name, (valueSight_lawful _).alike_trans _ _ _ hab.value ?_⟩
    have hValue := hbc.value
    rwa [← hab.name] at hValue

/-- Attributes that may have to be laid out alike have the same name, and it hands its comments on. -/
theorem name_of_near {braceless : Bool} (h : a.Formed P) (hNear : (bodySight braceless).Near a b) :
    b.name.text = a.name.text ∧ b.name.traits.Silent := by
  rcases hNear with hPlain | ⟨-, hb, c, hc, hcb⟩
  · have hSame : b.plain = a.plain := hPlain
    have hName : b.name = a.name := eq_of_plain hSame fun _ => rfl
    exact ⟨congrArg Leaf.text hName, hName ▸ h.silent⟩
  · have hSame : c.plain = a.plain := hc
    have hName : c.name = a.name := eq_of_plain hSame fun _ => rfl
    exact ⟨hcb.name.symm.trans (congrArg Leaf.text hName), hb.silent⟩

theorem valueFrame_congr (h : a.name.text = b.name.text) (f : Frame) (indent : Int) :
    valueFrame a f indent = valueFrame b f indent := by
  rw [valueFrame, valueFrame, h]

section

variable (hP : ∀ c, P c → c.Legible) (h : a.Formed P)

include hP h

theorem besideName_shown (f : Frame) (indent : Int)
    {gap : List Line} {mark : Mark} (hMark : mark = .space ∨ mark = .newline)
    (hGap : Spells [.space, .word "=>", mark] gap) :
    Shown (bodySight f.allowsBraceless) (fun b => besideName gap (valueFrame b f indent) b)
      (Assignment.BodyInked f.allowsBraceless) a := by
  have hValue := valueLines_shown hP h.value (keepsBlank_valueFrame a f indent)
  rw [allowsBraceless_valueFrame] at hValue
  refine hValue.bind (fun v => { a with value := v }) (fun v hv => ?_)
    (fun value => pure (joinLines [[⟨a.name.text, some 0, []⟩], gap, value])) (fun v hv => rfl) rfl
    (fun ha => ⟨ha.value, fun v hv => ⟨fun hAlike => ⟨rfl, hAlike⟩, fun b hb hvb => ?_⟩⟩) ?_
  · exact congrArg (fun value => { a with value }) hv
  · have hName : a.name.text = b.name.text := hvb.name
    refine ⟨b.value, hb.value, hvb.value, ?_⟩
    rw [valueFrame_congr hName.symm, besideName, hName]
  · intro v lines own hv hLines hOwn hSpells
    refine inked_ok (joinLines_ne_nil ⟨_, List.mem_cons_self, by simp⟩)
      (.mk (a := { a with value := v }) hMark hOwn) ?_
    simpa using Spells.joinLines (.cons (Spells.word a.name.text (some 0)) (.cons hGap (.cons hSpells .nil)))

theorem besideName_slimmer (f : Frame) (indent : Int) (gap : List Line) :
    Slimmer (besideName gap (valueFrame a.plain f indent) a.plain) (besideName gap (valueFrame a f indent) a) := by
  refine Slimmer.bind (valueLines_slimmer hP h.value _) fun x y hx hThinner => ?_
  refine ⟨_, _, rfl, rfl, joinLines_ne_nil ⟨_, List.mem_cons_self, by simp⟩, ?_⟩
  exact Thinner.joinLines (.cons (.refl _) (.cons (.refl _) (.cons hThinner .nil)))

theorem besideInline_shown (f : Frame) : Shown (bodySight f.allowsBraceless) (fun a => besideInline a f)
      (Assignment.BodyInked f.allowsBraceless) a := by
  have hName : Spells [.space, .word "=>", .space] [{ text := " => " }] := by rfl
  refine (besideName_shown hP h f (a.name.text.length + 0 + 4) (.inl rfl) hName).congr fun b hb => ?_
  rw [besideInline, (name_of_near h hb).1]

theorem besideBroken_shown (f : Frame) : Shown (bodySight f.allowsBraceless) (fun a => besideBroken a f)
      (Assignment.BodyInked f.allowsBraceless) a :=
  besideName_shown hP h f tabSize (.inr rfl) (by rfl)

theorem assignmentBody_shown (f : Frame) : Shown (bodySight f.allowsBraceless) (fun a => assignmentBody a f)
      (Assignment.BodyInked f.allowsBraceless) a := by
  have hEq (b : Assignment) (hb : (bodySight f.allowsBraceless).Near a b) :=
    assignmentBody_eq (name_of_near h hb).2 f
  cases hBreak : f.mayBreakConstraint with
  | true =>
    refine Shown.congr ?_ fun b hb => by rw [hEq b hb, hBreak, if_pos rfl]
    refine firstThatFits_two_shown (besideInline_shown hP h f) (besideBroken_shown hP h f) ?_
    intro b fit hb hFits
    refine fits_of_near (bodySight_lawful _) (besideInline_shown hP (Assignment.formed_plain.2 h) f)
      (fun b hb => ?_) hb hFits
    rcases hb with hPlain | ⟨-, hQuiet, -⟩
    · exact besideName_slimmer hP (Assignment.formed_of_plain hPlain h) f _ _
    · exact besideName_slimmer (fun _ => False.elim) hQuiet f _ _
  | false =>
    refine Shown.congr ?_ fun b hb => by rw [hEq b hb, hBreak, if_neg (by simp)]
    exact firstThatFits_one_shown (besideInline_shown hP h f)

theorem assignmentBody_slimmer (f : Frame) : Slimmer (assignmentBody a.plain f) (assignmentBody a f) := by
  have hInline : Slimmer (besideInline a.plain f) (besideInline a f) := besideName_slimmer hP h f _ _
  have hBroken : Slimmer (besideBroken a.plain f) (besideBroken a f) := besideName_slimmer hP h f _ _
  have hSilent : a.plain.name.traits.Silent := h.silent
  rw [assignmentBody_eq h.silent, assignmentBody_eq hSilent]
  cases f.mayBreakConstraint with
  | true => exact firstThatFits_two_slimmer hInline hBroken
  | false => exact firstThatFits_one_slimmer hInline

/-- How much the layout of an attribute shows. -/
def attributeSight (braceless : Bool) (keeps : Option Bool) : Sight Assignment :=
  ⟨Assignment.plain, Assignment.Formed Comment.Never, Assignment.Alike braceless keeps⟩

/-- An attribute with its comments, if it is known how it is laid out without them. -/
theorem withComments_attribute_shown {braceless : Bool}
    {own : Assignment → Frame → Lines} {R : Assignment → Ink → Prop}
    (hOwn : Shown (bodySight braceless) (fun a => own a f)
      (fun a inner => R a (a.traits.noted f.keepsBlank inner)) a) :
    Shown (attributeSight braceless f.keepsBlank) (fun a => withComments a.traits (own a) f) R a := by
  have hTraits (b : Assignment) (hb : b.plain = a.plain) : b.traits = a.traits :=
    eq_of_plain hb fun _ => rfl
  refine withComments_shown hTraits (Traits.Holds.legible hP h.holds) (fun b hb => hb.holds.comments_nil fun _ => id)
    (fun _ b c hb _ hbc => by rw [← hTraits b hb]; exact hbc.kept) ?_
  exact hOwn.seen (fun b hb => hb) (fun b hb => hb) (fun b hb hba => ⟨hba, by rw [hTraits b hb]⟩)
    (fun b c hbc => hbc.toBodyAlike)

theorem constraintLines_shown (hf : f.allowsBraceless = true) :
    Shown (attributeSight true f.keepsBlank) (fun a => constraintLines a f) (Assignment.Inked f.keepsBlank) a := by
  refine withComments_attribute_shown hP h ?_
  have hBody := assignmentBody_shown hP h f
  rw [hf] at hBody
  exact hBody.mono fun b own hb hOwn => .mk hOwn

theorem constraintLines_slimmer (f : Frame) : Slimmer (constraintLines a.plain f) (constraintLines a f) :=
  withComments_slimmer (Traits.Holds.legible hP h.holds) (assignmentBody_slimmer hP h f)

theorem selectionLines_shown (f : Frame) : Shown (attributeSight false f.keepsBlank) (fun a => selectionLines a f)
      (fun a => Selection.Inked f.keepsBlank (.assignment a)) a := by
  refine withComments_attribute_shown hP h ?_
  refine (assignmentBody_shown hP h { f with allowsBraceless := false }).bind id (fun b hb => hb)
    (fun lines => pure (joinLines [lines, [{ text := ";" }]])) (fun b hb => rfl) rfl
    (fun ha => ⟨ha, fun b hb => ⟨id, fun c hc hbc => ⟨c, hc, hbc, rfl⟩⟩⟩) ?_
  intro b lines own hb hLines hOwn hSpells
  exact inked_ok (joinLines_ne_nil ⟨_, List.mem_cons_self, hLines⟩) (.assignment hOwn)
    (hSpells.joinTwo (Spells.word ";" none))

end

/-! ### Lists with one style -/

variable {q : Piece} {pieces others : List Piece} {ink : InkStyle}

/-- The inks of a list of the given style. -/
def StyleInked (ink : InkStyle) (R : Option Bool → α → Ink → Prop) (first last empty : Ink)
    (entries : List (Entry α)) (own : Ink) : Prop :=
  entries = [] ∧ own = empty ∨ ∃ inner, EntriesInked ink R true entries inner ∧ own = first ++ inner ++ last

section

variable {kind : ListKind} {piece : α → Piece} {R : Option Bool → α → Ink → Prop} {style : ListStyle}
  {ink : InkStyle} {f : Frame} (hf : f.keepsBlank = none)

include hf

variable {g : ItemList α}

theorem groupLines_style (hStyles : ∀ pieces, kind.styles g.opening g.closing pieces f = .ok [style])
    (hSilent : g.traits.Silent) (piece : α → Piece) :
    groupLines kind piece g f =
      f.indentRest <$> firstThatFits f [style.format (g.entries.map (entryPiece piece))] := by
  rw [groupLines_eq, listLines, withComments_silent hSilent hf, hStyles]
  rfl

theorem groupLines_shown (hStyle : style.Draws ink)
    (hStyles : ∀ pieces, kind.styles g.opening g.closing pieces f = .ok [style]) (hSilent : g.traits.Silent)
    {Quiet : α → Prop} {QuietList : ItemList α → Prop} {A : Option Bool → α → α → Prop}
    (hQuiet : ∀ l, QuietList l → EntriesQuiet Quiet l.entries)
    (hOthers : ∀ l, QuietList g → QuietList l → l.traits.Silent ∧
      ∀ pieces, kind.styles l.opening l.closing pieces f = .ok [style]) {first last empty : Ink}
    (hFirst : Spells first style.opening) (hLast : Spells last style.closing) (hEmpty : Spells empty style.empty)
    (hSome : style.empty ≠ []) (hShown : PiecesShown ink f piece plain Quiet A R g.entries) :
    Shown (Sight.list plain QuietList ink.keepsBlank A) (fun g => groupLines kind piece g f)
      (fun g => StyleInked ink R first last empty g.entries) g := by
  have hFormat : Shown ⟨List.map (mapEntry plain), EntriesQuiet Quiet, EntriesAlike ink.keepsBlank A true⟩
      (fun entries => style.format (entries.map (entryPiece piece)) f)
      (StyleInked ink R first last empty) g.entries := by
    by_cases hEntries : g.entries = []
    · rw [hEntries]
      refine Shown.self (fun _ => ⟨.nil, fun l hl hAlike => ?_⟩)
        ⟨style.empty, rfl, hSome, empty, .inl ⟨rfl, rfl⟩, hEmpty⟩
      cases hAlike
      rfl
    · exact (hStyle.format hShown hFirst hLast hEntries).mono fun _ _ _ h => .inr h
  have hOnly : Shown ⟨List.map (mapEntry plain), EntriesQuiet Quiet, EntriesAlike ink.keepsBlank A true⟩
      (fun entries => firstThatFits f [style.format (entries.map (entryPiece piece))])
      (StyleInked ink R first last empty) g.entries :=
    firstThatFits_one_shown hFormat
  refine ((Shown.ofEntries hQuiet hOnly).map_indentRest f).congr fun l hl => ?_
  rcases hl with hPlain | ⟨hg, hl, -⟩
  · have hSame : l.mapItems plain = g.mapItems plain := hPlain
    have hOpening : l.opening = g.opening := eq_of_plain hSame fun _ => rfl
    have hClosing : l.closing = g.closing := eq_of_plain hSame fun _ => rfl
    have hTraits : l.traits = g.traits := eq_of_plain hSame fun _ => rfl
    exact groupLines_style hf (by rwa [hOpening, hClosing]) (by rwa [hTraits]) piece
  · exact groupLines_style hf (hOthers l hg hl).2 (hOthers l hg hl).1 piece

end

/-- Entries whose lines differ in blank rows only. -/
def ListStyle.Slims (style : ListStyle) (f : Frame) (p q : Piece) : Prop :=
  p.outline = q.outline ∧ ∀ depth isFirst, Slimmer (p.lines (f.child depth (style.keepsBlank isFirst)))
    (q.lines (f.child depth (style.keepsBlank isFirst)))

theorem forall₂_intersperse {R : List Line → List Line → Prop} {xs ys : List (List Line)}
    {between : List Line} (hBetween : R between between) (h : List.Forall₂ R xs ys) :
    List.Forall₂ R (xs.intersperse between) (ys.intersperse between) := by
  induction h with
  | nil => exact .nil
  | cons hHead hTail ih =>
    cases hTail with
    | nil => exact .cons hHead .nil
    | cons => exact .cons hHead (.cons hBetween ih)

theorem ListStyle.entryLines_slimmer {p : Piece} (h : style.Slims f p q) {depth other : Nat → Piece → Int}
    {i : Nat} (hDepth : depth i p = other i q) (last : Nat) :
    Slimmer (style.entryLines depth last f (p, i)) (style.entryLines other last f (q, i)) := by
  have hRole : p.role = q.role := congrArg Prod.fst h.1
  simp only [ListStyle.entryLines, hDepth, hRole]
  refine (h.2 _ _).bind fun x y hx hThinner => ?_
  refine ⟨_, _, rfl, rfl, joinLines_ne_nil ⟨_, List.mem_cons_self, by simp⟩, ?_⟩
  exact Thinner.joinLines (.cons (.refl _) (.cons hThinner (.cons (.refl _) (.cons (.refl _) .nil))))

/-- Lists whose entries differ in blank rows only do so too. -/
theorem ListStyle.Draws.format_slimmer (hStyle : style.Draws ink) (hEmpty : style.empty ≠ [])
    (h : List.Forall₂ (style.Slims f) pieces others) :
    Slimmer (style.format pieces f) (style.format others f) := by
  by_cases hNil : pieces = []
  · subst hNil
    cases h
    exact ⟨_, _, rfl, rfl, hEmpty, .refl _⟩
  have hOthers : others ≠ [] := by
    rintro rfl
    cases h
    exact hNil rfl
  have hRuns : ∀ (last i : Nat) {ps qs : List Piece}, List.Forall₂ (style.Slims f) ps qs →
      ∃ xs ys, (ps.zipIdx i).mapM (style.entryLines (style.depth pieces) last f) = .ok xs ∧
        (qs.zipIdx i).mapM (style.entryLines (style.depth others) last f) = .ok ys ∧
        List.Forall₂ Thinner xs ys ∧ (ps ≠ [] → joinLines (xs.intersperse style.between) ≠ []) := by
    intro last i ps qs hSlims
    induction hSlims generalizing i with
    | nil => exact ⟨[], [], rfl, rfl, .nil, by simp⟩
    | @cons p q ps qs hHead _ ih =>
      have hDepth := hStyle.level pieces others i p q (outline_of_forall₂ h) hHead.1
      obtain ⟨xs, ys, hxs, hys, hThinner, -⟩ := ih (i + 1)
      obtain ⟨x, y, hx, hy, hNonempty, hFirst⟩ := style.entryLines_slimmer hHead hDepth last
      refine ⟨x :: xs, y :: ys, mapM_cons_ok hx hxs, mapM_cons_ok hy hys, .cons hFirst hThinner,
        fun _ => joinLines_ne_nil ⟨x, ?_, hNonempty⟩⟩
      cases xs <;> simp [List.intersperse]
  obtain ⟨xs, ys, hxs, hys, hThinner, hNonempty⟩ := hRuns (pieces.length - 1) 0 h
  rw [style.format_eq hNil, style.format_eq hOthers, ← h.length_eq, hxs, hys]
  refine ⟨_, _, rfl, rfl, ?_, ?_⟩
  · exact joinLines_ne_nil ⟨_, List.mem_cons_of_mem _ List.mem_cons_self, hNonempty hNil⟩
  · exact Thinner.joinLines (.cons (.refl _)
      (.cons (Thinner.joinLines (forall₂_intersperse (.refl _) hThinner)) (.cons (.refl _) .nil)))

/-! ### Promises -/

variable {g other : ItemList α} {keepsBlank : Bool → Option Bool} {A : Option Bool → α → α → Prop}
  {QuietList : ItemList α → Prop}

/-- An attribute of a promise as a piece of its list. -/
def constraintPiece (a : Assignment) : Piece :=
  Piece.ofItem .other a.traits (constraintLines a)

theorem constraintsStyle_draws : constraintsStyle.Draws constraintsInk where
  mark := Spells.word "," none
  lastMark := Spells.word ";" none
  between := Spells.newline none none
  after := Spells.nil
  keepsBlank := rfl
  level _ _ _ _ _ _ _ := rfl

/-- The lines of the attributes of a promise. -/
def constraintsLines (g : ItemList Assignment) (f : Frame) : Lines :=
  groupLines .constraints constraintPiece g f

/-- How much the layout of the attributes of a promise shows. -/
def constraintsSight : Sight (ItemList Assignment) :=
  Sight.list Assignment.plain (fun g => g.Formed Comment.Never (Assignment.Constrains Comment.Never))
    constraintsInk.keepsBlank (Assignment.Alike true)

theorem constraintsSight_lawful : constraintsSight.Lawful where
  quiet_plain g hg := by
    simpa [constraintsSight, Sight.list, ItemList.formed_mapItems, Assignment.constrains_plain] using hg
  alike_plain g l hgl := by
    change EntriesAlike _ _ _ (g.mapItems Assignment.plain).entries (l.mapItems Assignment.plain).entries
    rw [entries_mapItems, entries_mapItems]
    exact entriesAlike_plain (fun keeps a b hab => ⟨(bodySight_lawful true).alike_plain a b hab.toBodyAlike, hab.kept⟩)
      hgl
  alike_trans g l m hgl hlm := by
    change EntriesAlike _ _ _ _ (m.mapItems Assignment.plain).entries
    change EntriesAlike _ _ _ _ (l.mapItems Assignment.plain).entries at hgl
    change EntriesAlike _ _ _ (l.mapItems Assignment.plain).entries (m.mapItems Assignment.plain).entries at hlm
    rw [entries_mapItems] at hgl hlm ⊢
    rw [entries_mapItems] at hlm
    exact entriesAlike_trans_plain (fun keeps a b c hab hbc =>
      ⟨(bodySight_lawful true).alike_trans a b c hab.toBodyAlike hbc.toBodyAlike, hab.kept.trans hbc.kept⟩) hgl hlm

section

variable (hP : ∀ c, P c → c.Legible) {g : ItemList Assignment}
  (h : g.Formed P (Assignment.Constrains P)) {f : Frame} (hf : f.keepsBlank = none)

include hP h hf

theorem constraintsLines_shown (hBraceless : f.allowsBraceless = true) :
    Shown constraintsSight (fun g => constraintsLines g f)
      (fun g => StyleInked constraintsInk Assignment.Inked [] [] [.word ";"] g.entries) g := by
  refine groupLines_shown hf constraintsStyle_draws (fun pieces => rfl) h.silent
    (fun l hl => ⟨hl.comments, fun a ha => (hl.items a ha).toFormed⟩) (fun l _ hl => ⟨hl.silent, fun _ => rfl⟩)
    Spells.nil Spells.nil (Spells.word ";" none) (by simp [constraintsStyle]) ?_
  exact ⟨fun _ => (nofun : Role.other ≠ .comment), fun _ => Piece.outline_ofItem rfl _ _ _,
    fun a ha => Piece.quiet_ofItem ha.holds _ _, fun _ _ _ _ => rfl,
    fun a ha _ _ => constraintLines_shown hP (h.items a ha).toFormed hBraceless, fun c hc => hP c (h.comments c hc)⟩

theorem constraintsLines_slimmer :
    Slimmer (constraintsLines (g.mapItems Assignment.plain) f) (constraintsLines g f) := by
  have hEq (entries : List (Entry Assignment)) : constraintsLines { g with entries } f =
      f.indentRest <$> firstThatFits f [constraintsStyle.format (entries.map (entryPiece constraintPiece))] :=
    groupLines_style (g := { g with entries }) hf (fun pieces => rfl) h.silent constraintPiece
  have hPlain : g.mapItems Assignment.plain = { g with entries := g.entries.map (mapEntry Assignment.plain) } := by
    rw [← entries_mapItems]
    rfl
  have hFormat : Slimmer
      (constraintsStyle.format ((g.entries.map (mapEntry Assignment.plain)).map (entryPiece constraintPiece)) f)
      (constraintsStyle.format (g.entries.map (entryPiece constraintPiece)) f) := by
    apply constraintsStyle_draws.format_slimmer (by simp [constraintsStyle])
    rw [List.map_map, List.forall₂_map_left_iff, List.forall₂_map_right_iff, List.forall₂_same]
    rintro (a | c) hEntry
    · exact ⟨rfl, fun depth isFirst => constraintLines_slimmer hP (h.items a hEntry).toFormed _⟩
    · exact ⟨rfl, fun depth isFirst => (commentLines_inked (hP c (h.comments c hEntry)) _).slimmer⟩
  rw [hPlain, hEq, hEq g.entries]
  exact (firstThatFits_one_slimmer hFormat).map_indentRest f

end

/-- The lines of a promiser with its promisee. -/
def headLines (promiser : String) (promisee : Option Value) (f : Frame) : Lines :=
  match promisee with
  | some value => do
    let lines ← valueLines value f.child
    firstThatFits f [ fun _ => .ok (joinLines [[⟨promiser, some 0, []⟩], [{ text := " -> " }], lines]),
      fun _ => .ok (joinLines [[⟨promiser, some 0, []⟩],
        [{ text := "" }, { text := "-> ", indent := some tabSize }], lines])]
  | none => pure [⟨promiser, some 0, []⟩]

/-- A promise with its attributes after a gap. -/
def promiseGap (head gap : List Line) (frame : Frame) (g : ItemList Assignment) : Lines := do
  return joinLines [head, gap, ← constraintsLines g frame]

/-- A promise on one line. -/
def promiseInline (head : List Line) (width : Int) (g : ItemList Assignment) (f : Frame) : Lines :=
  promiseGap head [{ text := " " }] { f.child (width + 1) with mayBreakConstraint := false } g

/-- A promise with its attributes on lines of their own. -/
def promiseLined (head : List Line) (g : ItemList Assignment) (f : Frame) : Lines :=
  promiseGap head [{ text := "" }, { text := "", indent := some tabSize }] (f.child tabSize) g

/-- A promise without attributes. -/
def promiseBare (head : List Line) (g : ItemList Assignment) (f : Frame) : Lines := do
  return joinLines [head, ← constraintsLines g f.child]

/-- The lines of a promise with the given head. -/
def promiseBody (head : List Line) (width : Int) (oneLine : Bool) (g : ItemList Assignment) (f : Frame) : Lines :=
  firstThatFits f (if oneLine then [promiseInline head width g, promiseLined head g]
     else if g.entries.isEmpty then [fun _ => promiseBare head g f]
     else [promiseLined head g])

theorem promiseLines_eq (hSilent : p.promiser.traits.Silent) (f : Frame) :
    promiseLines p f = withComments p.traits (fun f => do
      let head ← headLines p.promiser.text p.promisee f
      promiseBody head (p.promiser.text.length + 0) (allowsOneLine p) p.constraints f) f := by
  rw [promiseLines]
  congr 1
  funext f
  rw [leafLines_silent hSilent rfl]
  unfold headLines
  cases p.promisee with
  | none => rfl
  | some value => exact (bind_assoc (valueLines value f.child) _ _).symm

theorem entries_eq_nil_of_plain (hPlain : other.mapItems plain = g.mapItems plain) :
    other.entries = [] ↔ g.entries = [] := by
  have hLength := congrArg (fun g => g.entries.length) hPlain
  simp only [entries_mapItems, List.length_map] at hLength
  rw [← List.length_eq_zero_iff, hLength, List.length_eq_zero_iff]

theorem length_of_entriesAlike {isFirst : Bool} {xs ys : List (Entry α)}
    (h : EntriesAlike keepsBlank A isFirst xs ys) : xs.length = ys.length := by
  induction h with
  | nil => rfl
  | cons _ _ ih => rw [List.length_cons, List.length_cons, ih]

theorem entries_eq_nil_of_near (hNear : (Sight.list plain QuietList keepsBlank A).Near g other) :
    other.entries = [] ↔ g.entries = [] := by
  rcases hNear with hPlain | ⟨-, -, l, hPlain, hAlike⟩
  · exact entries_eq_nil_of_plain hPlain
  · rw [← entries_eq_nil_of_plain hPlain, ← List.length_eq_zero_iff, ← List.length_eq_zero_iff,
      length_of_entriesAlike hAlike]

/-- What is written for attributes after the given ink. -/
def BodyInked (ink : Ink) (g : ItemList Assignment) (own : Ink) : Prop :=
  ∃ body, ConstraintsInked g.entries body ∧ own = ink ++ body

section

variable (hP : ∀ c, P c → c.Legible) {g : ItemList Assignment}
  (h : g.Formed P (Assignment.Constrains P)) {head : List Line} (hHead : head ≠ []) {ink : Ink}
  (hInk : Spells ink head)

include hP h hHead hInk

variable {frame : Frame}

/-- A promise with attributes after a gap. -/
theorem promiseGap_shown (hEntries : g.entries ≠ []) {gap : List Line} {mark : Mark}
    (hMark : mark = .space ∨ mark = .newline) (hGap : Spells [mark] gap) (hFrame : frame.keepsBlank = none)
    (hBraceless : frame.allowsBraceless = true) :
    Shown constraintsSight (promiseGap head gap frame) (BodyInked ink) g := by
  refine (constraintsLines_shown hP h hFrame hBraceless).bind id (fun _ hb => hb)
    (fun lines => pure (joinLines [head, gap, lines])) (fun _ _ => rfl) rfl
    (fun hg => ⟨hg, fun b hb => ⟨id, fun l hl hbl => ⟨l, hl, hbl, rfl⟩⟩⟩) ?_
  intro b lines own hb hLines hOwn hSpells
  have hBody : ConstraintsInked b.entries ([mark] ++ own) := by
    rcases hOwn with ⟨hNil, -⟩ | ⟨inner, hInner, rfl⟩
    · exact absurd ((entries_eq_nil_of_plain hb).1 hNil) hEntries
    · exact .some hMark (by simpa using hInner)
  refine inked_ok (joinLines_ne_nil ⟨head, List.mem_cons_self, hHead⟩) ⟨_, hBody, rfl⟩ ?_
  simpa using Spells.joinLines (.cons hInk (.cons hGap (.cons hSpells .nil)))

theorem promiseBare_shown (hEntries : g.entries = []) (hf : f.allowsBraceless = true) :
    Shown constraintsSight (fun g => promiseBare head g f) (BodyInked ink) g := by
  have hFrame : (f.child).allowsBraceless = true := hf
  refine (constraintsLines_shown hP h (f := f.child) rfl hFrame).bind id (fun _ hb => hb)
    (fun lines => pure (joinLines [head, lines])) (fun _ _ => rfl) rfl
    (fun hg => ⟨hg, fun b hb => ⟨id, fun l hl hbl => ⟨l, hl, hbl, rfl⟩⟩⟩) ?_
  intro b lines own hb hLines hOwn hSpells
  have hNil : b.entries = [] := (entries_eq_nil_of_plain hb).2 hEntries
  have hBody : ConstraintsInked b.entries own := by
    rcases hOwn with ⟨-, rfl⟩ | ⟨inner, hInner, -⟩
    · exact hNil ▸ .none
    · rw [hNil] at hInner
      cases hInner
  exact inked_ok (joinLines_ne_nil ⟨head, List.mem_cons_self, hHead⟩) ⟨_, hBody, rfl⟩ (hInk.joinTwo hSpells)

omit hInk in
theorem promiseGap_slimmer (gap : List Line) (hFrame : frame.keepsBlank = none) :
    Slimmer (promiseGap head gap frame (g.mapItems Assignment.plain)) (promiseGap head gap frame g) := by
  refine (constraintsLines_slimmer hP h hFrame).bind fun x y hx hThinner => ?_
  refine ⟨_, _, rfl, rfl, joinLines_ne_nil ⟨head, List.mem_cons_self, hHead⟩, ?_⟩
  exact Thinner.joinLines (.cons (.refl _) (.cons (.refl _) (.cons hThinner .nil)))

theorem promiseBody_shown (width : Int) {oneLine : Bool} (hOneLine : oneLine = true → g.entries ≠ [])
    (hf : f.allowsBraceless = true) :
    Shown constraintsSight (fun g => promiseBody head width oneLine g f) (BodyInked ink) g := by
  have hLined (hEntries : g.entries ≠ []) : Shown constraintsSight (fun g => promiseLined head g f) (BodyInked ink) g :=
    promiseGap_shown hP h hHead hInk hEntries (.inr rfl) (Spells.newline none (some tabSize)) rfl hf
  have hPlain : (g.mapItems Assignment.plain).Formed P (Assignment.Constrains P) := by
    simpa [ItemList.formed_mapItems, Assignment.constrains_plain] using h
  cases oneLine with
  | true =>
    have hSpace : Spells [.space] [{ text := " " }] := by rfl
    have hInline {l : ItemList Assignment} (hl : l.Formed P (Assignment.Constrains P)) (hEntries : l.entries ≠ []) :
        Shown constraintsSight (fun g => promiseInline head width g f) (BodyInked ink) l :=
      promiseGap_shown hP hl hHead hInk hEntries (.inl rfl) hSpace rfl hf
    refine firstThatFits_two_shown (hInline h (hOneLine rfl)) (hLined (hOneLine rfl)) ?_
    intro b fit hb hFits
    have hNonempty : (g.mapItems Assignment.plain).entries ≠ [] := by
      simpa [entries_mapItems] using hOneLine rfl
    refine fits_of_near constraintsSight_lawful (hInline hPlain hNonempty) (fun b hb => ?_) hb hFits
    rcases hb with hSame | ⟨-, hQuiet, -⟩
    · have hFormed : b.Formed P (Assignment.Constrains P) := by
        have hSame : b.mapItems Assignment.plain = g.mapItems Assignment.plain := hSame
        rw [← hSame] at hPlain
        simpa [ItemList.formed_mapItems, Assignment.constrains_plain] using hPlain
      exact promiseGap_slimmer hP hFormed hHead _ rfl
    · exact promiseGap_slimmer (fun _ => False.elim) hQuiet hHead _ rfl
  | false =>
    by_cases hEntries : g.entries = []
    · have hBare : Shown constraintsSight (fun g => firstThatFits f [fun _ => promiseBare head g f])
          (BodyInked ink) g :=
        firstThatFits_one_shown (promiseBare_shown hP h hHead hInk hEntries hf)
      refine hBare.congr fun b hb => ?_
      simp [promiseBody, (entries_eq_nil_of_near hb).2 hEntries]
    · refine Shown.congr (firstThatFits_one_shown (hLined hEntries)) fun b hb => ?_
      have hOther : b.entries ≠ [] := fun hNil => hEntries ((entries_eq_nil_of_near hb).1 hNil)
      simp [promiseBody, hOther]

end

/-- How much the layout of a promisee that may be missing shows. -/
def promiseeSight : Sight (Option Value) :=
  ⟨Option.map Value.plain, fun promisee => ∀ v ∈ promisee, v.Formed Comment.Never, Option.Rel (Value.Alike true)⟩

theorem headLines_shown (hP : ∀ c, P c → c.Legible) (promiser : String) {promisee : Option Value}
    (h : ∀ v ∈ promisee, v.Formed P) (hf : f.allowsBraceless = true) :
    Shown promiseeSight (fun promisee => headLines promiser promisee f)
      (fun promisee own => ∃ right, PromiseeInked promisee right ∧ own = [.word promiser] ++ right)
      promisee := by
  have hPromiser := Spells.word promiser (some 0)
  cases promisee with
  | none =>
    refine Shown.self (fun _ => ⟨.none, fun other _ hOther => ?_⟩) ⟨_, rfl, by simp, _, ⟨[], .none, rfl⟩, hPromiser⟩
    cases hOther
    rfl
  | some value =>
    have hValue := valueLines_shown hP (h value rfl) (f := f.child) rfl
    have hFrame : f.child.allowsBraceless = true := hf
    rw [hFrame] at hValue
    refine hValue.bind some (fun v hv => congrArg some hv) (fun lines => firstThatFits f [
        fun _ => .ok (joinLines [[⟨promiser, some 0, []⟩], [{ text := " -> " }], lines]),
        fun _ => .ok (joinLines [[⟨promiser, some 0, []⟩],
          [{ text := "" }, { text := "-> ", indent := some tabSize }], lines])])
      (fun _ _ => rfl) rfl (fun hQuiet => ⟨hQuiet value rfl, fun v hv => ⟨.some, fun other hOther hvo => ?_⟩⟩) ?_
    · cases hvo with
      | @some _ w hvw => exact ⟨w, hOther w rfl, hvw, rfl⟩
    · intro v lines right hv hLines hRight hSpells
      refine (firstThatFits_two_inked ?_ ?_).mono fun _ hOwn => hOwn.elim id id
      · have hGap : Spells [.space, .word "->", .space] [{ text := " -> " }] := by rfl
        refine inked_ok (joinLines_ne_nil ⟨_, List.mem_cons_self, by simp⟩) ⟨_, .some (.inl rfl) hRight, rfl⟩ ?_
        simpa using Spells.joinLines (.cons hPromiser (.cons hGap (.cons hSpells .nil)))
      · have hGap : Spells [.newline, .word "->", .space]
            [{ text := "" }, { text := "-> ", indent := some tabSize }] := by rfl
        refine inked_ok (joinLines_ne_nil ⟨_, List.mem_cons_self, by simp⟩) ⟨_, .some (.inr rfl) hRight, rfl⟩ ?_
        simpa using Spells.joinLines (.cons hPromiser (.cons hGap (.cons hSpells .nil)))

theorem allowsOneLine_plain (p : Promise) : allowsOneLine p.plain = allowsOneLine p := by
  obtain ⟨traits, promiser, promisee, comma, ⟨_, _, entries, _⟩, semicolon⟩ := p
  simp only [allowsOneLine, Promise.plain, Option.isNone_map, entries_mapItems]
  congr 1
  rcases entries with _ | ⟨entry, _ | ⟨next, rest⟩⟩
  · rfl
  · cases entry <;> rfl
  · cases entry <;> rfl

theorem entries_ne_nil_of_allowsOneLine (h : allowsOneLine p = true) : p.constraints.entries ≠ [] := by
  intro hNil
  simp [allowsOneLine, hNil] at h

/-- A promise without comments may stand on one line if it has one attribute, no promisee and a promiser
without line breaks. -/
theorem allowsOneLine_quiet (h : p.Formed Comment.Never) :
    allowsOneLine p = (p.promisee.isNone && lineFeeds p.promiser.text == 0 && p.constraints.entries.length == 1) := by
  have hLines : (p.promiser.traits.span.startLine == p.promiser.traits.span.endLine) =
      (lineFeeds p.promiser.text == 0) := by
    rw [h.lines, Bool.eq_iff_iff, beq_iff_eq, beq_iff_eq]
    omega
  have hItems := h.constraints.items
  have hComments := h.constraints.comments
  rw [allowsOneLine, hLines]
  congr 1
  generalize p.constraints.entries = entries at hItems hComments
  rcases entries with _ | ⟨a | c, _ | ⟨next, rest⟩⟩
  · rfl
  · have hNone := (hItems a List.mem_cons_self).holds.comments_nil fun _ => id
    simp [Traits.leading, hNone]
  · rfl
  · exact (hComments c List.mem_cons_self).elim
  · rfl

theorem allowsOneLine_congr {q : Promise} (hp : p.Formed Comment.Never) (hq : q.Formed Comment.Never)
    (hText : q.promiser.text = p.promiser.text) (hNone : q.promisee.isNone = p.promisee.isNone)
    (hLength : q.constraints.entries.length = p.constraints.entries.length) :
    allowsOneLine q = allowsOneLine p := by
  rw [allowsOneLine_quiet hp, allowsOneLine_quiet hq, hText, hNone, hLength]

theorem isNone_of_rel {γ : Type} {r : β → γ → Prop} {b : Option β} {c : Option γ} (h : Option.Rel r b c) :
    b.isNone = c.isNone := by
  cases h <;> rfl

/-- How much the layout of a promise shows. -/
def promiseSight (keeps : Option Bool) : Sight Promise :=
  ⟨Promise.plain, Promise.Formed Comment.Never, Promise.Alike keeps⟩

theorem promiseLines_shown (hP : ∀ c, P c → c.Legible) (h : p.Formed P) (hf : f.allowsBraceless = true) :
    Shown (promiseSight f.keepsBlank) (fun p => promiseLines p f) (Promise.Inked f.keepsBlank) p := by
  obtain ⟨promisee, hPromisee, hHead, hHeadFirm, head, hLines, hNonempty, ink, ⟨right, hRight, rfl⟩, hSpells⟩ :=
    headLines_shown hP p.promiser.text h.promisee hf
  obtain ⟨g, hPlain, hSame, hFirm, hBody⟩ := promiseBody_shown hP h.constraints hNonempty hSpells
    (p.promiser.text.length + 0) entries_ne_nil_of_allowsOneLine hf
  have hOther : Promise.plain { p with promisee, constraints := g } = p.plain := by
    have hSamePromisee : promisee.map Value.plain = p.promisee.map Value.plain := hPromisee
    have hSameConstraints : g.mapItems Assignment.plain = p.constraints.mapItems Assignment.plain := hPlain
    simp [Promise.plain, hSamePromisee, hSameConstraints]
  have hOneLine : allowsOneLine { p with promisee, constraints := g } = allowsOneLine p := by
    rw [← allowsOneLine_plain, hOther, allowsOneLine_plain]
  have hOwn : Inked (headLines p.promiser.text p.promisee f >>= fun head =>
      promiseBody head (p.promiser.text.length + 0) (allowsOneLine p) p.constraints f)
      (fun own => Promise.Inked f.keepsBlank { p with promisee, constraints := g }
        (p.traits.noted f.keepsBlank own)) := by
    rw [show headLines p.promiser.text p.promisee f = .ok head from hLines]
    refine hBody.mono ?_
    rintro own ⟨body, hBody, rfl⟩
    exact .mk (p := { p with promisee, constraints := g }) hRight hBody
  refine ⟨{ p with promisee, constraints := g }, hOther, ?_, fun hp => ⟨⟨rfl, rfl, ?_, ?_⟩, fun q hq hpq => ?_⟩, ?_⟩
  · change promiseLines { p with promisee, constraints := g } f = promiseLines p f
    rw [promiseLines_eq h.silent, promiseLines_eq (p := { p with promisee, constraints := g }) h.silent]
    apply withComments_congr
    rw [show headLines p.promiser.text promisee f = .ok head from hHead.trans hLines,
      show headLines p.promiser.text p.promisee f = .ok head from hLines, hOneLine]
    exact hSame
  · exact (hHeadFirm hp.promisee).1
  · exact (hFirm hp.constraints).1
  · have hText : q.promiser.text = p.promiser.text := hpq.promiser.symm
    have hQHead : headLines p.promiser.text q.promisee f = .ok head :=
      ((hHeadFirm hp.promisee).2 q.promisee hq.promisee hpq.promisee).trans hLines
    have hQBody := (hFirm hp.constraints).2 q.constraints hq.constraints hpq.constraints
    have hQOneLine : allowsOneLine q = allowsOneLine p :=
      allowsOneLine_congr hp hq hText
        ((isNone_of_rel hpq.promisee).symm.trans (isNone_of_rel (hHeadFirm hp.promisee).1))
        ((length_of_entriesAlike hpq.constraints).symm.trans (length_of_entriesAlike (hFirm hp.constraints).1))
    change promiseLines q f = promiseLines p f
    rw [promiseLines_eq h.silent, promiseLines_eq hq.silent]
    refine withComments_alike (hq.holds.comments_nil fun _ => id) (hp.holds.comments_nil fun _ => id) hpq.kept.symm ?_
    rw [hText, hQHead, show headLines p.promiser.text p.promisee f = .ok head from hLines, hQOneLine]
    exact hQBody
  · change Inked (promiseLines p f) _
    rw [promiseLines_eq h.silent]
    exact withComments_inked (Traits.Holds.legible hP h.holds) hOwn

/-! ### Promise types -/

variable {c : Clause}

theorem guardLines_inked (hP : ∀ c, P c → c.Legible) {g : Guard} (h : g.Formed P) (f : Frame) :
    Inked (guardLines g f) (· = g.ink f.keepsBlank) := by
  apply withComments_inked (Traits.Holds.legible hP h.holds)
  rw [leafLines_silent h.silent rfl]
  exact ⟨_, rfl, by simp, [.word g.expression.text], rfl, Spells.word _ _⟩

theorem guardLines_congr {g l : Guard} (hg : g.Formed Comment.Never) (hl : l.Formed Comment.Never)
    (h : g.Alike f.keepsBlank l) : guardLines l f = guardLines g f := by
  refine withComments_alike (hl.holds.comments_nil fun _ => id) (hg.holds.comments_nil fun _ => id) h.kept.symm ?_
  rw [leafLines_silent hl.silent rfl, leafLines_silent hg.silent rfl, h.expression]

/-- How much the layout of what stands under a promise type shows. -/
def clauseSight (keeps : Option Bool) : Sight Clause :=
  ⟨Clause.plain, Clause.Formed Comment.Never, Clause.Alike keeps⟩

theorem clauseLines_shown (hP : ∀ c, P c → c.Legible) (h : c.Formed P) (hf : f.allowsBraceless = true) :
    Shown (clauseSight f.keepsBlank) (fun c => (clausePiece c).lines f) (Clause.Inked f.keepsBlank) c := by
  cases c with
  | guard g =>
    refine Shown.self (fun hg => ⟨.guard ⟨rfl, rfl⟩, fun d hd hgd => ?_⟩) ((guardLines_inked hP h f).mono ?_)
    · cases hgd with
      | guard hAlike => exact guardLines_congr hg hd hAlike
    · rintro own rfl
      exact .guard
  | promise p =>
    obtain ⟨q, hPlain, hSame, hFirm, hInked⟩ := promiseLines_shown hP h hf
    refine ⟨.promise q, congrArg Clause.promise hPlain, hSame,
      fun hp => ⟨.promise (hFirm hp).1, fun d hd hqd => ?_⟩, hInked.mono fun _ => .promise⟩
    cases hqd with
    | promise hAlike => exact (hFirm hp).2 _ hd hAlike

theorem commentDepth_congr (guardTabs : Int) (h : pieces.map Piece.role = others.map Piece.role) (i : Nat)
    (column : Int) : commentDepth guardTabs pieces i column = commentDepth guardTabs others i column := by
  have hLater (pieces : List Piece) :
      ((pieces.drop i).find? (fun p => p.role = .guard || p.role = .statement)).any (·.role = .statement) =
        (((pieces.map Piece.role).drop i).find? (fun r => r = .guard || r = .statement)).any (· = .statement) := by
    rw [← List.map_drop, List.find?_map, Option.any_map]
    rfl
  have hBefore (pieces : List Piece) : (pieces.take (i + 1)).any (·.role = .statement) =
      ((pieces.map Piece.role).take (i + 1)).any (· = .statement) := by
    rw [← List.map_take, List.any_map]
    rfl
  simp only [commentDepth, hLater, hBefore, h]

theorem guardedDepth_congr (guardTabs : Int) (h : pieces.map Piece.outline = others.map Piece.outline) (i : Nat)
    {p : Piece} (hpq : p.outline = q.outline) :
    guardedDepth guardTabs pieces i p = guardedDepth guardTabs others i q := by
  have hRoles : pieces.map Piece.role = others.map Piece.role := by
    simpa [Piece.outline, Function.comp_def] using congrArg (List.map Prod.fst) h
  have hRole : p.role = q.role := congrArg Prod.fst hpq
  have hColumn : p.column = q.column := congrArg (·.2.1) hpq
  rw [guardedDepth, guardedDepth, hRole, hColumn, commentDepth_congr guardTabs hRoles]

theorem clausesStyle_draws : clausesStyle.Draws clausesInk where
  mark := Spells.blank none
  lastMark := Spells.blank none
  between := Spells.newline none none
  after := Spells.nil
  keepsBlank := rfl
  level _ _ i _ _ h hpq := guardedDepth_congr 2 h i hpq

theorem clausePiece_role (c : Clause) : (clausePiece c).role ≠ .comment := by
  cases c <;> nofun

theorem clausePiece_plain (c : Clause) : (clausePiece c.plain).outline = (clausePiece c).outline := by
  cases c <;> exact Piece.outline_ofItem rfl _ _ _

theorem clausePiece_quiet (h : c.Formed Comment.Never) :
    (clausePiece c).column = 0 ∧ (clausePiece c).hasComments = false := by
  cases c with
  | guard g => exact Piece.quiet_ofItem (Guard.Formed.holds h) _ _
  | promise p => exact Piece.quiet_ofItem (Promise.Formed.holds h) _ _

theorem silent_of_keeps {t : Traits} (h : t.Keeps Comment.Never) : t.Silent :=
  ⟨h.1.comments_nil fun _ => id, h.2⟩

/-- How much the layout of a promise type shows. -/
def promiseTypeSight : Sight PromiseType :=
  ⟨PromiseType.plain, PromiseType.Formed Comment.Never, PromiseType.Alike⟩

theorem promiseTypeLines_shown (hP : ∀ c, P c → c.Legible) {p : PromiseType} (h : p.Formed P)
    (hf : f.allowsBraceless = true) (hKeeps : f.keepsBlank = none) :
    Shown promiseTypeSight (fun p => promiseTypeLines p f) (PromiseType.Inked f.keepsBlank) p := by
  refine withComments_shown (fun q (hq : q.plain = p.plain) => eq_of_plain hq fun _ => rfl)
    (Traits.Holds.legible hP h.keeps.1) (fun q hq => hq.keeps.1.comments_nil fun _ => id)
    (fun hp q r _ hr _ => by rw [hKeeps, kept_eq_false hp.keeps.2, kept_eq_false hr.keeps.2]) ?_
  have hClauses : Shown (Sight.list Clause.plain
        (fun g => g.Formed Comment.Never (Clause.Formed Comment.Never)) clausesInk.keepsBlank Clause.Alike)
      (fun g => groupLines .clauses clausePiece g f.child)
      (fun g => StyleInked clausesInk Clause.Inked [] [] [] g.entries) p.clauses :=
    groupLines_shown rfl clausesStyle_draws (fun _ => rfl) h.clauses.silent (fun l hl => ⟨hl.comments, hl.items⟩)
      (fun l _ hl => ⟨hl.silent, fun _ => rfl⟩) Spells.nil Spells.nil
      (Spells.blank none) (by simp [clausesStyle])
      ⟨clausePiece_role, clausePiece_plain, fun _ => clausePiece_quiet, fun _ _ _ h => by cases h <;> rfl,
        fun c hc _ _ => clauseLines_shown hP (h.clauses.items c hc) hf, fun c hc => hP c (h.clauses.comments c hc)⟩
  obtain ⟨name, hName, hNonempty, nameInk, rfl, hNameSpells⟩ :=
    leafLines_inked (Traits.Holds.legible hP h.nameKeeps.1) f.child
  have hLay {q : PromiseType} (hq : leafLines q.name f.child = .ok name)
      (hEmpty : q.clauses.entries.isEmpty = p.clauses.entries.isEmpty) :
      (do return joinLines [← leafLines q.name f.child,
        (if q.clauses.entries.isEmpty then [] else [{ text := "" }]) ++
          (← groupLines .clauses clausePiece q.clauses f.child)] : Lines) =
      groupLines .clauses clausePiece q.clauses f.child >>= fun clauses => pure (joinLines [name,
        (if p.clauses.entries.isEmpty then [] else [{ text := "" }]) ++ clauses]) := by
    rw [hq, hEmpty]
    rfl
  refine hClauses.bind (fun clauses => { p with clauses })
    (fun g hg => congrArg (fun clauses => { p with clauses }) hg)
    (fun clauses => pure (joinLines [name,
      (if p.clauses.entries.isEmpty then [] else [{ text := "" }]) ++ clauses])) ?_ ?_ ?_ ?_
  · intro g hg
    have hEmpty : g.entries.isEmpty = p.clauses.entries.isEmpty := by
      rw [Bool.eq_iff_iff, List.isEmpty_iff, List.isEmpty_iff]
      exact entries_eq_nil_of_plain hg
    exact hLay (q := { p with clauses := g }) hName hEmpty
  · exact hLay hName rfl
  · refine fun hp => ⟨hp.clauses, fun g hg => ⟨fun hAlike => ⟨rfl, hAlike⟩, fun q hq hgq => ?_⟩⟩
    refine ⟨q.clauses, hq.clauses, hgq.clauses, hLay ?_ ?_⟩
    · have hSame : p.name.text = q.name.text := hgq.name
      rw [← hName, leafLines_silent (silent_of_keeps hq.nameKeeps) rfl,
        leafLines_silent (silent_of_keeps hp.nameKeeps) rfl, hSame]
    · rw [Bool.eq_iff_iff, List.isEmpty_iff, List.isEmpty_iff]
      exact entries_eq_nil_of_near (.inr ⟨hp.clauses, hq.clauses, g, hg, hgq.clauses⟩)
  · intro g lines own hg hLines hOwn hSpells
    have hBody : ∃ body, ClausesInked g.entries body ∧
        Spells body ((if p.clauses.entries.isEmpty then [] else [{ text := "" }]) ++ lines) := by
      rcases hOwn with ⟨hNil, rfl⟩ | ⟨inner, hInner, rfl⟩
      · have hEmpty := (entries_eq_nil_of_plain hg).1 hNil
        refine ⟨[], hNil ▸ .none, ?_⟩
        simpa [hEmpty] using hSpells
      · have hSome : p.clauses.entries ≠ [] := by
          intro hNil
          rw [(entries_eq_nil_of_plain hg).2 hNil] at hInner
          cases hInner
        refine ⟨[.newline] ++ inner, .some hInner, ?_⟩
        have hAll := (Spells.blank none).append hSpells (by simp) hLines
        simpa [hSome] using hAll
    obtain ⟨body, hBody, hBodySpells⟩ := hBody
    exact inked_ok (joinLines_ne_nil ⟨name, List.mem_cons_self, hNonempty⟩)
      (.mk (p := { p with clauses := g }) hBody) (hNameSpells.joinTwo hBodySpells)

/-! ### Blocks -/

variable {leaf : Leaf} {lines : List Line} {s : Selection}

/-- What stands around the list in a block. -/
structure ListStyle.Block (style : ListStyle) : Prop where
  opening : style.opening = [{ text := " \x7b" }, { text := "" }]
  closing : style.closing = [{ text := "\x7d" }]
  empty : style.empty = [{ text := " \x7b" }, { text := "\x7d" }]

/-- The lines of the opening brace of a block. -/
def openingLines (leaf : Leaf) (lines : List Line) : List Line :=
  if leaf.traits.comments = [] then [{ text := " \x7b" }] else { text := "" } :: lines

/-- The lines of the closing brace of a block. -/
def closingLines (leaf : Leaf) (lines : List Line) : List Line :=
  if leaf.traits.comments = [] then [{ text := "\x7d" }] else lines

/-- The style of a block with the lines of its braces. -/
def ListStyle.braced (style : ListStyle) (first last : List Line) : ListStyle :=
  { style with opening := first ++ [{ text := "" }], closing := last, empty := first ++ last }

theorem withBraces_eq (hStyle : style.Block) {opening closing : Leaf} {start stop : List Line}
    (hStart : leafLines opening f = .ok start) (hStop : leafLines closing f = .ok stop) :
    withBraces style (some opening) (some closing) f =
      .ok (style.braced (openingLines opening start) (closingLines closing stop)) := by
  obtain ⟨between, after, empty, first, last, mark, lastMark, keepsBlank, depth⟩ := style
  obtain ⟨rfl : first = _, rfl : last = _, rfl : empty = _⟩ := hStyle
  unfold withBraces ListStyle.braced openingLines closingLines
  by_cases hOpening : opening.traits.comments = [] <;> by_cases hClosing : closing.traits.comments = [] <;>
    simp [Option.filter, hOpening, hClosing, hStart, hStop, bind, Except.bind, pure, Except.pure]

/-- Braces without comments leave the style of a block as it is. -/
theorem withBraces_quiet (hStyle : style.Block) (hf : f.keepsBlank = none) {opening closing : Option Leaf}
    (hOpening : BraceFormed Comment.Never "\x7b" opening) (hClosing : BraceFormed Comment.Never "\x7d" closing) :
    withBraces style opening closing f = .ok (style.braced [{ text := " \x7b" }] [{ text := "\x7d" }]) := by
  obtain ⟨first, rfl, -, hFirst⟩ := hOpening
  obtain ⟨last, rfl, -, hLast⟩ := hClosing
  have hFirstSilent := silent_of_keeps hFirst
  have hLastSilent := silent_of_keeps hLast
  rw [withBraces_eq hStyle (leafLines_silent hFirstSilent hf) (leafLines_silent hLastSilent hf)]
  simp only [openingLines, closingLines, hFirstSilent.1, hLastSilent.1, if_true]

theorem openingLines_ne_nil (leaf : Leaf) (lines : List Line) : openingLines leaf lines ≠ [] := by
  unfold openingLines
  split <;> simp

theorem closingLines_ne_nil (leaf : Leaf) (hLines : lines ≠ []) : closingLines leaf lines ≠ [] := by
  unfold closingLines
  split
  · simp
  · exact hLines

theorem openingInk_spells (h : Spells (leaf.ink none) lines) (hLines : lines ≠ []) :
    Spells (openingInk (some leaf)) (openingLines leaf lines) := by
  unfold openingInk openingLines
  by_cases hComments : leaf.traits.comments = []
  · simp [Option.filter, hComments]
    rfl
  · simpa [Option.filter, hComments] using (Spells.blank none).append h (by simp) hLines

theorem closingInk_spells (h : Spells (leaf.ink none) lines) :
    Spells (closingInk (some leaf)) (closingLines leaf lines) := by
  unfold closingInk closingLines
  by_cases hComments : leaf.traits.comments = []
  · simpa [Option.filter, hComments] using Spells.word "\x7d" none
  · simpa [Option.filter, hComments] using h

/-- The list in a block with its braces is laid out in one of its inks. -/
theorem blockList_shown {kind : ListKind} (hBlock : style.Block) (hStyle : style.Draws ink) {piece : α → Piece}
    {R : Option Bool → α → Ink → Prop} {F : α → Prop} (hP : ∀ c, P c → c.Legible) (h : g.Braced P F)
    (hf : f.keepsBlank = none) {Quiet : α → Prop} (hQuiet : ∀ l, QuietList l → l.Braced Comment.Never Quiet)
    (hKind : ∀ opening closing pieces, kind.styles opening closing pieces f =
      (do return [← withBraces style opening closing f]))
    (hShown : PiecesShown ink f piece plain Quiet A R g.entries) :
    Shown (Sight.list plain QuietList ink.keepsBlank A) (fun g => groupLines kind piece g f)
      (fun g => BlockInked ink R g) g := by
  obtain ⟨opening, hOpening, -, hOpeningKeeps⟩ := h.opening
  obtain ⟨closing, hClosing, -, hClosingKeeps⟩ := h.closing
  obtain ⟨start, hStart, hStartNonempty, _, rfl, hStartSpells⟩ :=
    leafLines_inked (Traits.Holds.legible hP hOpeningKeeps.1) f
  obtain ⟨stop, hStop, hStopNonempty, _, rfl, hStopSpells⟩ :=
    leafLines_inked (Traits.Holds.legible hP hClosingKeeps.1) f
  rw [hf] at hStartSpells hStopSpells
  have hFirst := openingInk_spells hStartSpells hStartNonempty
  have hLast := closingInk_spells hStopSpells
  have hFirstNonempty := openingLines_ne_nil opening start
  have hLastNonempty := closingLines_ne_nil closing hStopNonempty
  have hStyles (pieces : List Piece) : kind.styles g.opening g.closing pieces f =
      .ok [style.braced (openingLines opening start) (closingLines closing stop)] := by
    rw [hKind, hOpening, hClosing, withBraces_eq hBlock hStart hStop]
    rfl
  have hDraws : (style.braced (openingLines opening start) (closingLines closing stop)).Draws ink :=
    ⟨hStyle.mark, hStyle.lastMark, hStyle.between, hStyle.after, hStyle.keepsBlank, hStyle.level⟩
  have hPlainStyles (l : ItemList α) (hl : QuietList l) (pieces : List Piece) :
      kind.styles l.opening l.closing pieces f =
        .ok [style.braced [{ text := " \x7b" }] [{ text := "\x7d" }]] := by
    rw [hKind, withBraces_quiet hBlock hf (hQuiet l hl).opening (hQuiet l hl).closing]
    rfl
  have hOthers (l : ItemList α) (hg : QuietList g) (hl : QuietList l) : l.traits.Silent ∧
      ∀ pieces, kind.styles l.opening l.closing pieces f =
        .ok [style.braced (openingLines opening start) (closingLines closing stop)] :=
    ⟨(hQuiet l hl).silent, fun pieces => (hPlainStyles l hl pieces).trans
      ((hPlainStyles g hg pieces).symm.trans (hStyles pieces))⟩
  refine (groupLines_shown hf hDraws hStyles h.silent
    (fun l hl => ⟨(hQuiet l hl).comments, (hQuiet l hl).items⟩) hOthers
    (hFirst.append (Spells.blank none) hFirstNonempty (by simp)) hLast
    (hFirst.append hLast hFirstNonempty hLastNonempty) (by simp [ListStyle.braced, hFirstNonempty]) hShown).mono ?_
  intro other own hPlain hOwn
  have hOther : other.mapItems plain = g.mapItems plain := hPlain
  have hSameOpening : other.opening = some opening := by
    rw [← hOpening]
    exact eq_of_plain hOther fun _ => rfl
  have hSameClosing : other.closing = some closing := by
    rw [← hClosing]
    exact eq_of_plain hOther fun _ => rfl
  rw [← hSameOpening, ← hSameClosing] at hOwn
  rcases hOwn with ⟨hNil, rfl⟩ | ⟨inner, hInner, rfl⟩
  · simpa using BlockInked.empty (R := R) hNil
  · simpa using BlockInked.some hInner

theorem promiseTypesStyle_draws : promiseTypesStyle.Draws spacedInk where
  mark := Spells.blank none
  lastMark := Spells.blank none
  between := Spells.newline none none
  after := Spells.newline none none
  keepsBlank := rfl
  level _ _ _ _ _ _ _ := rfl

theorem selectionsStyle_draws : selectionsStyle.Draws selectionsInk where
  mark := Spells.blank none
  lastMark := Spells.blank none
  between := Spells.nil
  after := Spells.newline none none
  keepsBlank := rfl
  level _ _ i _ _ h hpq := guardedDepth_congr 1 h i hpq

theorem selectionPiece_role (s : Selection) : (selectionPiece s).role ≠ .comment := by
  cases s <;> nofun

theorem selectionPiece_plain (s : Selection) : (selectionPiece s.plain).outline = (selectionPiece s).outline := by
  cases s <;> exact Piece.outline_ofItem rfl _ _ _

theorem selectionPiece_quiet (h : s.Formed Comment.Never) :
    (selectionPiece s).column = 0 ∧ (selectionPiece s).hasComments = false := by
  cases s with
  | guard g => exact Piece.quiet_ofItem (Guard.Formed.holds h) _ _
  | assignment a => exact Piece.quiet_ofItem (Assignment.Formed.holds h) _ _

/-- How much the layout of what stands in a body shows. -/
def selectionSight (keeps : Option Bool) : Sight Selection :=
  ⟨Selection.plain, Selection.Formed Comment.Never, Selection.Alike keeps⟩

theorem selectionPiece_shown (hP : ∀ c, P c → c.Legible) (h : s.Formed P) (f : Frame) :
    Shown (selectionSight f.keepsBlank) (fun s => (selectionPiece s).lines f) (Selection.Inked f.keepsBlank) s := by
  cases s with
  | guard g =>
    refine Shown.self (fun hg => ⟨.guard ⟨rfl, rfl⟩, fun t ht hgt => ?_⟩) ((guardLines_inked hP h f).mono ?_)
    · cases hgt with
      | guard hAlike => exact guardLines_congr hg ht hAlike
    · rintro own rfl
      exact .guard
  | assignment a =>
    obtain ⟨b, hPlain, hSame, hFirm, hInked⟩ := selectionLines_shown hP h f
    refine ⟨.assignment b, congrArg Selection.assignment hPlain, hSame,
      fun ha => ⟨.assignment (hFirm ha).1, fun t ht hbt => ?_⟩, hInked⟩
    cases hbt with
    | assignment hAlike => exact (hFirm ha).2 _ ht hAlike

/-- A promise type as a piece of a list. -/
def promiseTypePiece (p : PromiseType) : Piece :=
  Piece.ofItem .other p.traits (promiseTypeLines p)

/-- How much the layout of what stands in a block shows. -/
def contentsSight : Sight Contents :=
  ⟨Contents.plain, Contents.Formed Comment.Never, Contents.Alike⟩

theorem contentsLines_shown (hP : ∀ c, P c → c.Legible) {c : Contents} (h : c.Formed P)
    (hf : f.keepsBlank = none) (hBraceless : f.allowsBraceless = true) :
    Shown contentsSight (fun c => contentsLines c f) Contents.Inked c := by
  cases c with
  | bundle statements =>
    have hList : Shown (Sight.list PromiseType.plain
          (fun g => g.Braced Comment.Never (PromiseType.Formed Comment.Never)) spacedInk.keepsBlank
          fun _ => PromiseType.Alike)
        (fun g => groupLines .promiseTypes promiseTypePiece g f)
        (fun g => BlockInked spacedInk PromiseType.Inked g) statements :=
      blockList_shown ⟨rfl, rfl, rfl⟩ promiseTypesStyle_draws hP h hf (fun _ => id) (fun _ _ _ => rfl)
        ⟨fun _ => (nofun : Role.other ≠ .comment), fun _ => Piece.outline_ofItem rfl _ _ _,
          fun p hp => Piece.quiet_ofItem hp.keeps.1 _ _, fun _ _ _ _ => rfl,
          fun p hp _ _ => promiseTypeLines_shown hP (h.items p hp) hBraceless rfl,
          fun c hc => hP c (h.comments c hc)⟩
    obtain ⟨g, hPlain, hSame, hFirm, hInked⟩ := hList
    refine ⟨.bundle g, congrArg Contents.bundle hPlain, hSame,
      fun hs => ⟨.bundle (hFirm hs).1, fun d hd hgd => ?_⟩, hInked.mono fun _ => .bundle⟩
    cases hgd with
    | bundle hAlike => exact (hFirm hs).2 _ hd hAlike
  | body selections =>
    have hList : Shown (Sight.list Selection.plain
          (fun g => g.Braced Comment.Never (Selection.Formed Comment.Never)) selectionsInk.keepsBlank
          Selection.Alike)
        (fun g => groupLines .selections selectionPiece g f)
        (fun g => BlockInked selectionsInk Selection.Inked g) selections :=
      blockList_shown ⟨rfl, rfl, rfl⟩ selectionsStyle_draws hP h.1 hf (fun _ => id) (fun _ _ _ => rfl)
        ⟨selectionPiece_role, selectionPiece_plain, fun _ => selectionPiece_quiet,
          fun _ _ _ h => by cases h <;> rfl, fun s hs _ _ => selectionPiece_shown hP (h.1.items s hs) _,
          fun c hc => hP c (h.1.comments c hc)⟩
    obtain ⟨g, hPlain, hSame, hFirm, hInked⟩ := hList
    refine ⟨.body g, congrArg Contents.body hPlain, hSame,
      fun hs => ⟨.body (hFirm hs.1).1, fun d hd hgd => ?_⟩, hInked.mono fun _ => .body⟩
    cases hgd with
    | body hAlike => exact (hFirm hs.1).2 _ hd.1 hAlike

/-- A parameter as a piece of a list. -/
def parameterPiece (l : Leaf) : Piece :=
  Piece.ofItem .other l.traits (leafLines l)

/-- The first words of a block. -/
def blockHead (b : Block) : List Line :=
  joinLines [[⟨b.keyword.text, some 0, []⟩], [{ text := " " }], [⟨b.type.text, some 0, []⟩],
    [{ text := " " }], [⟨b.name.text, some 0, []⟩]]

theorem blockHead_spells (b : Block) :
    Spells [.word b.keyword.text, .space, .word b.type.text, .space, .word b.name.text] (blockHead b) := by
  have hSpace : Spells [.space] [{ text := " " }] := by rfl
  exact Spells.joinLines (.cons (Spells.word _ _) (.cons hSpace (.cons (Spells.word _ _)
    (.cons hSpace (.cons (Spells.word _ _) .nil)))))

theorem parameters_inked (hP : ∀ c, P c → c.Legible) {g : ItemList Leaf} (h : g.Formed P (Leaf.IsParameter P))
    (hf : f.keepsBlank = none) :
    Inked (groupLines .arguments parameterPiece g f)
      (ArgumentsInked f.allowsBraceless (fun keeps l own => own = Leaf.ink keeps l) g.entries) := by
  rw [groupLines_eq]
  exact arguments_inked h.silent g.opening g.closing hf (fun l => by simp [parameterPiece, Piece.ofItem])
    (fun l hl frame _ => leafLines_inked (Traits.Holds.legible hP (h.items l hl).2.1) frame)
    (fun c hc => hP c (h.comments c hc))

/-- Parameters without comments that are called the same are laid out alike. -/
theorem parameters_congr {g l : ItemList Leaf} (hg : g.Formed Comment.Never (Leaf.IsParameter Comment.Never))
    (hl : l.Formed Comment.Never (Leaf.IsParameter Comment.Never))
    (h : g.items.map Leaf.text = l.items.map Leaf.text) (hf : f.keepsBlank = none) :
    groupLines .arguments parameterPiece g f = groupLines .arguments parameterPiece l f := by
  have hPieces {g : ItemList Leaf} (hg : g.Formed Comment.Never (Leaf.IsParameter Comment.Never)) :
      g.entries.map (entryPiece parameterPiece) = g.items.map parameterPiece := by
    have hQuiet : EntriesQuiet (Leaf.IsParameter Comment.Never) g.entries := ⟨hg.comments, hg.items⟩
    rw [hQuiet.eq_items, List.map_map]
    rfl
  rw [groupLines_eq, groupLines_eq, hPieces hg, hPieces hl]
  refine arguments_congr hg.silent hl.silent hf ?_ _ _ _ _
  rw [List.forall₂_map_left_iff, List.forall₂_map_right_iff]
  refine forall₂_of_map_eq h fun a ha b hb hText => ?_
  have hSilent := silent_of_keeps (hg.of_mem ha).2
  have hOther := silent_of_keeps (hl.of_mem hb).2
  refine ⟨by simp [parameterPiece, Piece.ofItem, Piece.outline, hSilent.1, hOther.1], fun depth => ?_⟩
  change leafLines a (f.child depth) = leafLines b (f.child depth)
  rw [leafLines_silent hSilent rfl, leafLines_silent hOther rfl, hText]

/-- How much the layout of a block shows. -/
def blockSight : Sight Block :=
  ⟨Block.plain, Block.Formed Comment.Never, Block.Alike⟩

theorem blockLines_shown (hP : ∀ c, P c → c.Legible) {b : Block} (h : b.Formed P) (hf : f.allowsBraceless = true)
    (hKeeps : f.keepsBlank = none) :
    Shown blockSight (fun b => blockLines b f) (Block.Inked f.keepsBlank) b := by
  refine withComments_shown (fun c (hc : c.plain = b.plain) => eq_of_plain hc fun _ => rfl)
    (Traits.Holds.legible hP h.keeps.1) (fun c hc => hc.keeps.1.comments_nil fun _ => id)
    (fun hb c d _ hd _ => by rw [hKeeps, kept_eq_false hb.keeps.2, kept_eq_false hd.keeps.2]) ?_
  obtain ⟨width, hWidth⟩ : ∃ width, widthAfter (blockHead b) = .ok width := ⟨_, rfl⟩
  obtain ⟨brackets, hBrackets, -, ink, hInk, hSpells⟩ :=
    parameters_inked hP h.parameters (f := f.child width) rfl
  have hContents := contentsLines_shown hP h.contents (f := f.child) rfl hf
  have hBraceless : (f.child width).allowsBraceless = true := hf
  rw [hBraceless] at hInk
  have hLay {c : Block} (hKeyword : c.keyword.traits.Silent) (hType : c.type.traits.Silent)
      (hName : c.name.traits.Silent) (hHead : blockHead c = blockHead b)
      (hSame : groupLines .arguments parameterPiece c.parameters (f.child width) = .ok brackets) :
      (do
        let space : List Line := [{ text := " " }]
        let head := joinLines [← leafLines c.keyword f.child, space, ← leafLines c.type f.child, space,
          ← leafLines c.name f.child]
        let parameters ← groupLines .arguments parameterPiece c.parameters (f.child (← widthAfter head))
        return joinLines [head, parameters, ← contentsLines c.contents f.child]) =
        contentsLines c.contents f.child >>= fun lines => pure (joinLines [blockHead b, brackets, lines]) := by
    rw [leafLines_silent hKeyword rfl, leafLines_silent hType rfl, leafLines_silent hName rfl]
    change (do
      let parameters ← groupLines .arguments parameterPiece c.parameters (f.child (← widthAfter (blockHead c)))
      return joinLines [blockHead c, parameters, ← contentsLines c.contents f.child]) = _
    rw [hHead, hWidth]
    change (do
      let parameters ← groupLines .arguments parameterPiece c.parameters (f.child width)
      return joinLines [blockHead b, parameters, ← contentsLines c.contents f.child]) = _
    rw [hSame]
    rfl
  refine hContents.bind (fun contents => { b with contents })
    (fun c hc => congrArg (fun contents => { b with contents }) hc)
    (fun lines => pure (joinLines [blockHead b, brackets, lines]))
    (fun c _ => hLay (c := { b with contents := c }) h.keywordSilent h.typeSilent h.nameSilent rfl hBrackets)
    (hLay h.keywordSilent h.typeSilent h.nameSilent rfl hBrackets) ?_ ?_
  · refine fun hb => ⟨hb.contents, fun c hc => ⟨fun hAlike => ⟨rfl, rfl, rfl, hAlike⟩, fun d hd hcd => ?_⟩⟩
    have hWord : d.contents.word = b.contents.word := by
      have hPlain : c.word = b.contents.word := eq_of_plain hc Contents.word_plain
      have hAlike : c.word = d.contents.word := by
        have hBoth : c.Alike d.contents := hcd.contents
        generalize d.contents = other at hBoth
        cases hBoth <;> rfl
      rw [← hAlike, hPlain]
    have hHead : blockHead d = blockHead b := by
      have hType : b.type.text = d.type.text := hcd.type
      have hName : b.name.text = d.name.text := hcd.name
      rw [blockHead, blockHead, hd.keyword, hb.keyword, hWord, hType, hName]
    refine ⟨d.contents, hd.contents, hcd.contents, hLay hd.keywordSilent hd.typeSilent hd.nameSilent hHead ?_⟩
    exact (parameters_congr hd.parameters hb.parameters hcd.parameters.symm rfl).trans hBrackets
  · intro c lines own hc hLines hOwn hOwnSpells
    refine inked_ok (joinLines_ne_nil ⟨lines, by simp, hLines⟩) (.mk (b := { b with contents := c }) hInk hOwn) ?_
    simpa using Spells.joinLines (.cons (blockHead_spells b) (.cons hSpells (.cons hOwnSpells .nil)))

/-- A block as a piece of a list. -/
def blockPiece (b : Block) : Piece :=
  Piece.ofItem .other b.traits (blockLines b)

theorem specificationStyle_draws : specificationStyle.Draws spacedInk where
  mark := Spells.blank none
  lastMark := Spells.blank none
  between := Spells.newline none none
  after := Spells.newline none none
  keepsBlank := rfl
  level _ _ _ _ _ _ _ := rfl

/-- How much the layout of a policy file shows. -/
def specificationSight : Sight Specification :=
  ⟨Specification.plain, Specification.Formed Comment.Never, Specification.Alike⟩

/-- Every policy file as it should be is laid out, in one of the inks of a file that differs from it
only in the blank lines of lists. Files without comments that are alike to that one are laid out like it. -/
theorem specificationLines_shown (hP : ∀ c, P c → c.Legible) {s : Specification} (h : Specification.Formed P s)
    (hf : f.keepsBlank = none) (hBraceless : f.allowsBraceless = true) :
    Shown specificationSight (fun s => specificationLines s f) Specification.Inked s := by
  have hBlocks : Shown (Sight.list Block.plain (Specification.Formed Comment.Never) spacedInk.keepsBlank
        fun _ => Block.Alike)
      (fun s => groupLines .specification blockPiece s f)
      (fun s => StyleInked spacedInk Block.Inked [] [] [] s.entries) s := by
    refine groupLines_shown hf specificationStyle_draws (fun _ => rfl) h.silent
      (fun l hl => ⟨hl.comments, hl.items⟩) (fun l _ hl => ⟨hl.silent, fun _ => rfl⟩) Spells.nil Spells.nil
      (Spells.blank none) (by simp [specificationStyle]) ?_
    exact ⟨fun _ => (nofun : Role.other ≠ .comment), fun _ => Piece.outline_ofItem rfl _ _ _,
      fun b hb => Piece.quiet_ofItem hb.keeps.1 _ _, fun _ _ _ _ => rfl,
      fun b hb _ _ => blockLines_shown hP (h.items b hb) hBraceless rfl, fun c hc => hP c (h.comments c hc)⟩
  refine hBlocks.mono ?_
  rintro other own - (⟨hNil, rfl⟩ | ⟨inner, hInner, rfl⟩)
  · exact .empty hNil
  · exact .some (by simpa using hInner)

end PolicyFormat.Layout
