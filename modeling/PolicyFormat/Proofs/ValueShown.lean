import PolicyFormat.Proofs.Shown
import PolicyFormat.Proofs.ValueLayout

/-! The layout of values. Where a list in braces goes on one line, the inks are those of the list without
its blank lines. Values without comments that are alike have the same layout. -/
namespace PolicyFormat.Layout

open Policy

variable {P : Comment → Prop}

/-! ### Elements that say the same -/

variable {t : Traits} {f : Frame} {e d : Element} {keepsBlank other : Bool}

/-- Arguments with the same lines in all frames are laid out alike. -/
theorem arguments_congr {u : Traits} (ht : t.Silent) (hu : u.Silent) (hf : f.keepsBlank = none)
    {pieces others : List Piece} (h : List.Forall₂ (fun p q => p.outline = q.outline ∧
      ∀ depth, p.lines (f.child depth) = q.lines (f.child depth)) pieces others)
    (opening closing first last : Option Leaf) :
    listLines .arguments t opening closing pieces f = listLines .arguments u first last others f := by
  have hInline : List.Forall₂ ((argumentsInline f).Alike f) pieces others :=
    h.imp fun p q hpq => ⟨hpq.1, fun depth isFirst => hpq.2 depth⟩
  have hLined : List.Forall₂ ((argumentsLined f).Alike f) pieces others :=
    h.imp fun p q hpq => ⟨hpq.1, fun depth isFirst => hpq.2 depth⟩
  have hFormat : ∀ style ∈ inlineOrLined (argumentsInline f) (argumentsLined f) pieces,
      style.format pieces f = style.format others f := by
    have hEither : ∀ style ∈ inlineOrLined (argumentsInline f) (argumentsLined f) pieces,
        style = argumentsInline f ∨ style = argumentsLined f := by
      rcases inlineOrLined_cases (argumentsInline f) (argumentsLined f) pieces with h | ⟨-, h | h⟩ <;> simp [h]
    intro style hStyle
    rcases hEither style hStyle with rfl | rfl
    · exact (draws_inline _ _ _ _).format_congr hInline
    · exact (argumentsLined_draws f).format_congr hLined
  rw [listLines, listLines, withComments_silent ht hf, withComments_silent hu hf]
  refine congrArg _ ?_
  change firstThatFits f ((inlineOrLined (argumentsInline f) (argumentsLined f) pieces).map
      (fun style => style.format pieces)) =
    firstThatFits f ((inlineOrLined (argumentsInline f) (argumentsLined f) others).map
      (fun style => style.format others))
  rw [← inlineOrLined_congr _ _ (outline_of_forall₂ hInline)]
  apply firstThatFits_congr
  rw [List.forall₂_map_left_iff, List.forall₂_map_right_iff, List.forall₂_same]
  exact hFormat

/-- A call without arguments where no brackets are needed. -/
theorem elementOwn_bare {traits : Traits} {name : Leaf} {arguments : ItemList Element}
    (hSilent : arguments.traits.Silent) (hEntries : arguments.entries = []) (hf : f.allowsBraceless = true) :
    elementOwn (.call traits name arguments) f = .ok [⟨name.text, some 0, []⟩] := by
  have hBrackets : listLines .arguments arguments.traits arguments.opening arguments.closing []
      (f.child (name.text.length + 0)) = .ok [{ text := "" }] := by
    have hEmpty : emptyArguments (f.child (name.text.length + 0)) = [{ text := "" }] := by
      simp [emptyArguments, Frame.child, hf]
    have hFormat : (argumentsInline (f.child (name.text.length + 0))).format []
        (f.child (name.text.length + 0)) = .ok [{ text := "" }] := by
      rw [← hEmpty]
      rfl
    rw [listLines, withComments_silent hSilent rfl]
    change Frame.indentRest _ <$> firstThatFits _ [ListStyle.format _ []] = _
    rw [firstThatFits_last hFormat (by simp)]
    rfl
  rw [elementOwn, hEntries, List.map_nil, hBrackets]
  simp [joinLines, joinTwo, Line.join, bind, Except.bind, pure, Except.pure]

section

variable {e : Element} {keepsBlank : Bool} (h : e.Formed Comment.Never keepsBlank)
include h

/-- What an element without comments says: a word, which may be a call without its brackets, or a call. -/
theorem element_word_or_call (f : Frame) :
    (∃ word, e.term.bareIf f.allowsBraceless = .word word ∧ elementOwn e f = .ok [⟨word, some 0, []⟩]) ∨
      ∃ traits name arguments, e = .call traits name arguments ∧ e.term.bareIf f.allowsBraceless =
          .call name.text (arguments.items.map fun d => d.term.bareIf f.allowsBraceless) := by
  cases h with
  | @leaf _ word => exact .inl ⟨word.text, Abstract.Term.bareIf_word _ _, rfl⟩
  | @call _ traits name arguments hHolds hKeeps hName hNameSilent hSilent hItems hComments =>
    by_cases hBare : f.allowsBraceless = true ∧ arguments.entries = []
    · refine .inl ⟨name.text, ?_, elementOwn_bare hSilent hBare.2 hBare.1⟩
      simp [Abstract.Term.bareIf, hBare.1, Abstract.Term.bare, ItemList.items, hBare.2]
    · refine .inr ⟨traits, name, arguments, rfl, ?_⟩
      have hQuiet : EntriesQuiet (fun _ => True) arguments.entries := ⟨hComments, fun _ _ => trivial⟩
      have hShown : f.allowsBraceless = false ∨ arguments.items.map Element.term ≠ [] := by
        rw [or_iff_not_imp_left, Bool.not_eq_false, ne_eq, List.map_eq_nil_iff]
        intro hBraceless hNone
        refine hBare ⟨hBraceless, ?_⟩
        rw [hQuiet.eq_items]
        exact congrArg (List.map Entry.item) hNone
      rw [Element.term_call, Abstract.Term.bareIf_call hShown, List.map_map]
      rfl

end

/-- The lines of elements without comments are their own lines and a blank line that may be kept. -/
theorem elementLines_congr (he : e.Formed Comment.Never keepsBlank) (hd : d.Formed Comment.Never other)
    (hOwn : elementOwn e f = elementOwn d f) (hKept : e.traits.kept f.keepsBlank = d.traits.kept f.keepsBlank) :
    elementLines e f = elementLines d f := by
  rw [elementLines_eq he, elementLines_eq hd]
  exact withComments_alike (he.holds.comments_nil fun _ => id) (hd.holds.comments_nil fun _ => id) hKept hOwn

theorem elementPiece_outline (he : e.traits.comments = []) (hd : d.traits.comments = []) :
    (elementPiece e).outline = (elementPiece d).outline := by
  simp [elementPiece, Piece.ofItem, Piece.outline, he, hd]

theorem kept_eq_false (h : t.keepsBlank = false) : t.kept none = false := by
  simp [Traits.kept, h]

/-- Elements without comments that say the same have the same lines of their own. -/
theorem elementOwn_congr (he : e.Formed Comment.Never keepsBlank) (hd : d.Formed Comment.Never other)
    (h : e.Says f.allowsBraceless d) : elementOwn e f = elementOwn d f := by
  induction e using Element.induction generalizing keepsBlank d other f with
  | leaf word =>
    rcases element_word_or_call hd f with ⟨text, hText, hOwn⟩ | ⟨_, _, _, -, hCall⟩
    · obtain rfl : word.text = text :=
        Abstract.Term.word.inj ((Abstract.Term.bareIf_word _ _).symm.trans (h.trans hText))
      exact hOwn.symm
    · exact absurd ((Abstract.Term.bareIf_word _ _).symm.trans (h.trans hCall)) (by simp)
  | call traits name arguments ih =>
    rcases element_word_or_call he f with ⟨word, hWord, hOwn⟩ | ⟨_, _, _, ⟨⟩, hCall⟩
    · rcases element_word_or_call hd f with ⟨text, hText, hOther⟩ | ⟨_, _, _, -, hCall⟩
      · obtain rfl : word = text := Abstract.Term.word.inj (hWord.symm.trans (h.trans hText))
        rw [hOwn, hOther]
      · exact absurd (hWord.symm.trans (h.trans hCall)) (by simp)
    · rcases element_word_or_call hd f with ⟨text, hText, -⟩ | ⟨_, name', arguments', rfl, hCall'⟩
      · exact absurd (hCall.symm.trans (h.trans hText)) (by simp)
      obtain ⟨hName, hInner⟩ := Abstract.Term.call.inj (hCall.symm.trans (h.trans hCall'))
      obtain _ | ⟨-, -, -, -, hSilent, hItems, hComments, -⟩ := he
      obtain _ | ⟨-, -, -, -, hSilent', hItems', hComments', -⟩ := hd
      have hEach : List.Forall₂ (fun x y => (elementPiece x).outline = (elementPiece y).outline ∧
          ∀ depth, (elementPiece x).lines ((f.child (name.text.length + 0)).child depth) =
            (elementPiece y).lines ((f.child (name.text.length + 0)).child depth))
          arguments.items arguments'.items := by
        refine forall₂_of_map_eq hInner fun x hx y hy hSays => ?_
        have hx' := hItems x (ItemList.mem_items.1 hx)
        have hy' := hItems' y (ItemList.mem_items.1 hy)
        refine ⟨elementPiece_outline (hx'.holds.comments_nil fun _ => id)
          (hy'.holds.comments_nil fun _ => id), fun depth => ?_⟩
        refine elementLines_congr hx' hy' (ih x hx hx' hy' hSays) ?_
        exact (kept_eq_false hx'.keeps).trans (kept_eq_false hy'.keeps).symm
      have hPieces (g : ItemList Element) (hQuiet : ∀ c, .comment c ∉ g.entries) :
          g.entries.map (entryPiece elementPiece) = g.items.map elementPiece := by
        have hEntries : EntriesQuiet (fun _ => True) g.entries := ⟨hQuiet, fun _ _ => trivial⟩
        rw [hEntries.eq_items, List.map_map]
        rfl
      rw [elementOwn, elementOwn, hPieces arguments hComments, hPieces arguments' hComments', ← hName,
        arguments_congr hSilent hSilent' rfl (List.forall₂_map_left_iff.2
          (List.forall₂_map_right_iff.2 hEach)) arguments.opening arguments.closing arguments'.opening
          arguments'.closing]

/-! ### Lists in braces -/

variable {g : ItemList Element}

theorem unmarked_lined (e : Element) : e.lined.unmarked = e.unmarked := by
  cases e <;> rfl

/-- How much the layout of a list in braces shows. -/
def elementsSight (braceless : Bool) : Sight (ItemList Element) :=
  Sight.list Element.unmarked (fun g => g.Formed Comment.Never (Element.Formed Comment.Never true))
    bracedInk.keepsBlank (Element.Alike braceless)

theorem says_of_unmarked (braceless : Bool) (h : e.unmarked = d.unmarked) : e.Says braceless d := by
  have hTerm : e.term = d.term := by
    rw [← Element.term_withTraits _ e, ← Element.term_withTraits _ d]
    exact congrArg Element.term h
  rw [Element.Says, hTerm]

/-- Lists without comments that are alike cannot be told apart on one line. -/
theorem elementsOf_alike {l y : ItemList Element} (hg : g.Formed Comment.Never (Element.Formed Comment.Never true))
    (hl : l.Formed Comment.Never (Element.Formed Comment.Never true))
    (hPlain : y.mapItems Element.unmarked = g.mapItems Element.unmarked)
    (hAlike : (elementsSight f.allowsBraceless).Alike y l) :
    List.Forall₂ (bracedInline.Alike f) (elementsOf l) (elementsOf g) := by
  have hEntries := congrArg ItemList.entries hPlain
  rw [entries_mapItems, entries_mapItems] at hEntries
  refine forall₂_of_entriesAlike ?_ hAlike hEntries ⟨hg.comments, hg.items⟩ ⟨hl.comments, hl.items⟩
  intro keeps x y z hx hz hSame hyz
  refine ⟨elementPiece_outline (hz.holds.comments_nil fun _ => id) (hx.holds.comments_nil fun _ => id),
    fun depth isFirst => ?_⟩
  refine elementLines_congr hz hx (elementOwn_congr hz hx ?_) (by simp [Traits.kept, bracedInline, Frame.child])
  exact hyz.1.symm.trans (says_of_unmarked _ hSame)

theorem entriesAlike_unmarked {braceless isFirst : Bool} {keepsBlank : Bool → Option Bool}
    {entries : List (Entry Element)} (h : ∀ c, .comment c ∉ entries) :
    EntriesAlike keepsBlank (Element.Alike braceless) isFirst (entries.map (mapEntry Element.unmarked)) entries := by
  induction entries generalizing isFirst with
  | nil => exact .nil
  | cons entry rest ih =>
    cases entry with
    | item e =>
      refine .cons ⟨says_of_unmarked _ (unmarked_unmarked e), fun hRank => ?_⟩
        (ih fun c hc => h c (List.mem_cons_of_mem _ hc))
      simp [traits_unmarked] at hRank
    | comment c => exact absurd List.mem_cons_self (h c)

/-- An element that starts a line. -/
theorem elementLines_shown (hP : ∀ c, P c → c.Legible) (h : e.Formed P true) (f : Frame) :
    Shown ⟨Element.unmarked, Element.Formed Comment.Never true, Element.Alike f.allowsBraceless f.keepsBlank⟩
      (fun e => elementLines e f)
      (fun e own => e.Inked f.allowsBraceless f.keepsBlank own ∧ e.traits.yields = none) e := by
  refine ⟨e.lined, unmarked_lined e, elementLines_lined h f, fun he => ⟨⟨?_, fun _ => ?_⟩, fun d hd hed => ?_⟩, ?_⟩
  · exact says_of_unmarked _ (unmarked_lined e)
  · simp [Traits.kept, traits_lined]
  · have hKept : e.traits.kept f.keepsBlank = d.traits.kept f.keepsBlank := by
      simpa [Traits.kept, traits_lined] using hed.2
    refine elementLines_congr hd he (elementOwn_congr hd he ?_) hKept.symm
    exact hed.1.symm.trans (says_of_unmarked _ (unmarked_lined e))
  · have hInked := elementLines_inked hP e.lined (Element.formed_lined.2 h) f
    rw [elementLines_lined h] at hInked
    exact hInked.mono fun own hOwn => ⟨hOwn, by rw [traits_lined]⟩

section

variable (hP : ∀ c, P c → c.Legible) {g : ItemList Element} (h : g.Formed P (Element.Formed P true))
  (hEntries : g.entries ≠ [])

include hP h hEntries

/-- A list on one line is laid out in an ink of the list without its blank lines. -/
theorem bracedInline_shown (hQuiet : ∀ p ∈ elementsOf g, p.hasComments = false ∧ p.role ≠ .comment) (f : Frame) :
    Shown (elementsSight f.allowsBraceless) (fun g => bracedInline.format (elementsOf g) f)
      (fun g => Value.Inked f.allowsBraceless (.list g)) g := by
  have hFormed : (g.mapItems Element.unmarked).Formed P (Element.Formed P true) := by
    simpa [ItemList.formed_mapItems, Element.formed_unmarked] using h
  have hNonempty : (g.mapItems Element.unmarked).entries ≠ [] := by
    simpa [entries_mapItems] using hEntries
  have hPlain := mapItems_unmarked_unmarked g
  have hSame := bracedInline_draws.format_congr (elementsOf_alike_of_plain h hPlain f)
  refine ⟨g.mapItems Element.unmarked, hPlain, hSame, fun hg => ⟨?_, fun l hl hgl => ?_⟩, ?_⟩
  · change EntriesAlike _ _ _ (g.mapItems Element.unmarked).entries g.entries
    rw [entries_mapItems]
    exact entriesAlike_unmarked hg.comments
  · exact bracedInline_draws.format_congr (elementsOf_alike hg hl hPlain hgl)
  · change Inked (bracedInline.format (elementsOf g) f) _
    rw [← hSame]
    refine (bracedInline_inked hP hFormed hNonempty f).mono ?_
    rintro own ⟨inner, hInner, rfl⟩
    refine .inline (fun c hc => ?_) (fun e he => ?_) (fun e he => ?_) hInner
    · exact comment_not_mem_of_role hQuiet c (ItemList.comment_mem_mapItems.1 hc)
    · rw [ItemList.items_mapItems] at he
      obtain ⟨x, -, rfl⟩ := List.mem_map.1 he
      rw [traits_unmarked]
      exact ⟨rfl, rfl⟩
    · rw [ItemList.items_mapItems] at he
      obtain ⟨x, hx, rfl⟩ := List.mem_map.1 he
      have hPiece := (hQuiet _ (List.mem_map_of_mem (ItemList.mem_items.1 hx))).1
      simpa [entryPiece, elementPiece, Piece.ofItem, traits_unmarked] using hPiece

/-- A list on several lines is laid out in an ink of its own. -/
theorem bracedLined_shown (hBreaks : g.mayBreak = true) (f : Frame) :
    Shown (elementsSight f.allowsBraceless) (fun g => bracedLined.format (elementsOf g) f)
      (fun g => Value.Inked f.allowsBraceless (.list g)) g := by
  have hPieces : PiecesShown bracedInk f elementPiece Element.unmarked (Element.Formed Comment.Never true)
      (Element.Alike f.allowsBraceless)
      (fun keeps e own => e.Inked f.allowsBraceless keeps own ∧ e.traits.yields = none) g.entries :=
    ⟨elementPiece_role, fun e => Piece.outline_ofItem (by rw [traits_unmarked]) _ _ _,
      fun e he => Piece.quiet_ofItem he.holds _ _, fun _ _ _ _ => rfl,
      fun e he _ _ => elementLines_shown hP (h.items e he) _, fun c hc => hP c (h.comments c hc)⟩
  have hOpening : Spells [.word "\x7b", .newline] bracedLined.opening := by rfl
  have hClosing : Spells [.word "\x7d"] bracedLined.closing := by rfl
  have hFormat := bracedLined_draws.format hPieces hOpening hClosing hEntries
  refine (Shown.ofEntries (fun l hl => ⟨hl.comments, hl.items⟩) hFormat).mono ?_
  rintro l own hPlain ⟨inner, hInner, rfl⟩
  have hSame : l.mayBreak = g.mayBreak := by
    rw [← l.mayBreak_unmarked, ← g.mayBreak_unmarked]
    exact congrArg _ hPlain
  exact .lined (hSame.trans hBreaks) (fun e he => hInner.and.2 e (ItemList.mem_items.1 he)) hInner.and.1

end

theorem bracedLines_shown (hP : ∀ c, P c → c.Legible) (h : g.Formed P (Element.Formed P true)) (f : Frame) :
    Shown (elementsSight f.allowsBraceless) (fun g => bracedLines (elementsOf g) f)
      (fun g => Value.Inked f.allowsBraceless (.list g)) g := by
  by_cases hEntries : g.entries = []
  · have hNil : elementsOf g = [] := by simp [elementsOf, hEntries]
    have hEmpty : Inked (bracedInline.format [] f) (Value.Inked f.allowsBraceless (.list g)) :=
      ⟨_, rfl, by simp [bracedInline], _, .empty hEntries, by rfl⟩
    refine Shown.self (fun hg => ⟨?_, fun l hl hgl => ?_⟩) ?_
    · change EntriesAlike _ _ _ g.entries g.entries
      rw [hEntries]
      exact .nil
    · have hSame := elementsOf_alike hg hl rfl hgl
      rw [hNil] at hSame ⊢
      rw [List.forall₂_nil_right_iff.1 hSame]
    · rw [hNil]
      exact firstThatFits_one_inked hEmpty
  -- A list that may have to be laid out like this one has the same lines if it is put on one line.
  have hNear {l : ItemList Element} (hl : (elementsSight f.allowsBraceless).Near g l) :
      List.Forall₂ (bracedInline.Alike f) (elementsOf l) (elementsOf g) := by
    rcases hl with hSame | ⟨hg, hl, y, hy, hyl⟩
    · exact elementsOf_alike_of_plain h hSame f
    · exact elementsOf_alike hg hl hy hyl
  have hStyles {l : ItemList Element} (hl : (elementsSight f.allowsBraceless).Near g l) :
      inlineOrLined bracedInline bracedLined (elementsOf l) = inlineOrLined bracedInline bracedLined (elementsOf g) :=
    inlineOrLined_congr _ _ (outline_of_forall₂ (hNear hl))
  rcases inlineOrLined_cases bracedInline bracedLined (elementsOf g) with hLined | ⟨hQuiet, hBoth | hOne⟩
  · refine (firstThatFits_one_shown (bracedLined_shown hP h hEntries (mayBreak_of_styles (by simp [hLined])) f)).congr
      fun l hl => ?_
    rw [bracedLines, hStyles hl, hLined]
    rfl
  · refine (firstThatFits_two_shown (bracedInline_shown hP h hEntries hQuiet f)
      (bracedLined_shown hP h hEntries (mayBreak_of_styles (by simp [hBoth])) f) ?_).congr fun l hl => ?_
    · intro l fit hl hFits
      rwa [bracedInline_draws.format_congr (hNear hl)]
    · rw [bracedLines, hStyles hl, hBoth]
      rfl
  · refine (firstThatFits_one_shown (bracedInline_shown hP h hEntries hQuiet f)).congr fun l hl => ?_
    rw [bracedLines, hStyles hl, hOne]
    rfl

/-! ### Values -/

/-- How much the layout of a value shows. -/
def valueSight (braceless : Bool) : Sight Value :=
  ⟨Value.plain, Value.Formed Comment.Never, Value.Alike braceless⟩

theorem valueLines_shown (hP : ∀ c, P c → c.Legible) {v : Value} (h : v.Formed P) (hf : f.keepsBlank = none) :
    Shown (valueSight f.allowsBraceless) (fun v => valueLines v f) (Value.Inked f.allowsBraceless) v := by
  cases v with
  | single e =>
    refine Shown.self (fun he => ⟨.single rfl, fun z hz hez => ?_⟩)
      ((elementLines_inked hP e h.1 f).mono fun own hOwn => .single ?_)
    · cases hez with
      | single hSays =>
        refine elementLines_congr hz.1 he.1 (elementOwn_congr hz.1 he.1 hSays.symm) ?_
        rw [hf, kept_eq_false hz.1.keeps, kept_eq_false he.1.keeps]
    · rwa [hf] at hOwn
  | list g =>
    have hLay (l : ItemList Element) (hl : l.traits.Silent) :
        valueLines (.list l) f = bracedLines (elementsOf l) f >>= fun lines => pure (f.indentRest lines) := by
      rw [valueLines_list, withComments_silent hl hf, map_eq_pure_bind]
    refine (bracedLines_shown hP h.toFormed f).bind Value.list (fun l hl => congrArg Value.list hl)
      (fun lines => pure (f.indentRest lines)) (fun l hl => ?_) (hLay g h.silent) (fun hg => ?_) ?_
    · have hPlain : l.mapItems Element.unmarked = g.mapItems Element.unmarked := hl
      have hTraits : l.traits = g.traits := by
        simpa [ItemList.mapItems] using congrArg ItemList.traits hPlain
      exact hLay l (hTraits ▸ h.silent)
    · refine ⟨hg.toFormed, fun l hl => ⟨.list, fun z hz hlz => ?_⟩⟩
      cases hlz with
      | @list _ other hAlike => exact ⟨other, hz.toFormed, hAlike, hLay other hz.silent⟩
    · intro l lines own hl hLines hOwn hSpells
      exact inked_ok (indentRest_ne_nil f hLines) hOwn (hSpells.indentRest f)

/-! ### What is alike without its blank lines -/

/-- Things stay alike if what `plain` forgets is taken from them, and then only their rest counts. -/
structure Sight.Lawful {α : Type} (s : Sight α) : Prop where
  quiet_plain : ∀ x, s.Quiet x → s.Quiet (s.plain x)
  alike_plain : ∀ x y, s.Alike x y → s.Alike (s.plain x) (s.plain y)
  alike_trans : ∀ x y z, s.Alike x (s.plain y) → s.Alike (s.plain y) (s.plain z) → s.Alike x (s.plain z)

/-- Whether a layout fits is the same for all that may have to be laid out alike, if what `plain` forgets
only adds blank rows. -/
theorem fits_of_near {α : Type} {s : Sight α} (hLawful : s.Lawful) {lay : α → Lines} {R : α → Ink → Prop} {x : α}
    (hShown : Shown s lay R (s.plain x)) (hSlim : ∀ z, s.Near x z → Slimmer (lay (s.plain z)) (lay z)) {z : α}
    {fit : Bool} (hNear : s.Near x z) (h : Fits f (lay x) fit) : Fits f (lay z) fit := by
  have hSame : lay (s.plain z) = lay (s.plain x) := by
    rcases hNear with hPlain | ⟨hx, hz, y, hy, hyz⟩
    · rw [hPlain]
    · obtain ⟨w, -, -, hFirm, -⟩ := hShown
      obtain ⟨hw, hAll⟩ := hFirm (hLawful.quiet_plain x hx)
      have hxz : s.Alike (s.plain x) (s.plain z) := hy ▸ hLawful.alike_plain y z hyz
      exact hAll _ (hLawful.quiet_plain z hz) (hLawful.alike_trans w x z hw hxz)
  obtain ⟨a, b, ha, hb, -, hab⟩ := hSlim x (s.near_self x)
  obtain ⟨c, d, hc, hd, hNonempty, hcd⟩ := hSlim z hNear
  obtain ⟨lines, hLines, -, hFit⟩ := h
  obtain rfl : lines = b := Except.ok.inj (hLines.symm.trans hb)
  obtain rfl : c = a := Except.ok.inj (hc.symm.trans (hSame.trans ha))
  refine ⟨d, hd, fun hNil => hNonempty (hcd.eq_nil_iff.2 hNil), ?_⟩
  rw [← hcd.fits_eq, hab.fits_eq, hFit]

section

variable {α : Type} {plain : α → α} {keepsBlank : Bool → Option Bool} {A : Option Bool → α → α → Prop}
  {isFirst : Bool} {xs ys zs : List (Entry α)}

theorem entriesAlike_plain (hPlain : ∀ keeps x y, A keeps x y → A keeps (plain x) (plain y))
    (h : EntriesAlike keepsBlank A isFirst xs ys) :
    EntriesAlike keepsBlank A isFirst (xs.map (mapEntry plain)) (ys.map (mapEntry plain)) := by
  induction h with
  | nil => exact .nil
  | cons h _ ih => exact .cons (hPlain _ _ _ h) ih

theorem entriesAlike_trans_plain
    (hTrans : ∀ keeps x y z, A keeps x (plain y) → A keeps (plain y) (plain z) → A keeps x (plain z))
    (hxy : EntriesAlike keepsBlank A isFirst xs (ys.map (mapEntry plain)))
    (hyz : EntriesAlike keepsBlank A isFirst (ys.map (mapEntry plain)) (zs.map (mapEntry plain))) :
    EntriesAlike keepsBlank A isFirst xs (zs.map (mapEntry plain)) := by
  induction ys generalizing isFirst xs zs with
  | nil =>
    cases hxy
    exact hyz
  | cons entry ys ih =>
    cases entry with
    | comment c => cases hxy
    | item y =>
      rcases zs with _ | ⟨z | c, zs⟩
      · cases hyz
      · cases hxy with
        | cons hxy hxyRest =>
          cases hyz with
          | cons hyz hyzRest => exact .cons (hTrans _ _ _ _ hxy hyz) (ih hxyRest hyzRest)
      · cases hyz

end

theorem valueSight_lawful (braceless : Bool) : (valueSight braceless).Lawful where
  quiet_plain _ := Value.formed_plain.2
  alike_plain x y h := by
    cases h with
    | single h => exact .single h
    | list h =>
      refine .list ?_
      rw [entries_mapItems, entries_mapItems]
      refine entriesAlike_plain (fun keeps e d hed => ⟨?_, fun hRank => ?_⟩) h
      · simpa [Element.Says, Element.unmarked] using hed.1
      · simp [traits_unmarked] at hRank
  alike_trans x y z hxy hyz := by
    cases y with
    | single e =>
      cases z with
      | list l => cases hyz
      | single d =>
        cases hxy with
        | single hxy =>
          cases hyz with
          | single hyz => exact .single (hxy.trans hyz)
    | list g =>
      cases z with
      | single d => cases hyz
      | list l =>
        cases hxy with
        | list hxy =>
          cases hyz with
          | list hyz =>
            refine .list ?_
            rw [entries_mapItems] at hxy hyz ⊢
            rw [entries_mapItems] at hyz
            refine entriesAlike_trans_plain (fun keeps e d c hed hdc => ⟨hed.1.trans hdc.1, fun hRank => ?_⟩) hxy hyz
            rw [hed.2 hRank, traits_unmarked, traits_unmarked]
            rfl

end PolicyFormat.Layout
