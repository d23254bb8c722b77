import PolicyFormat.Proofs.BlankWalk
import PolicyFormat.Proofs.Matching

/-! The marks of blank lines in the lists of a tree that was read from a text without comments. Two views of
the entries are related, one of the tree as it is read and one of the tree that is marked, if the line that the
token before an entry ends on tells enough. -/
namespace PolicyFormat.Policy

open Abstract (View Bond Rows Standing)

/-! ### Two views of lists -/

/-- The marks of blank lines that are kept. An entry that starts on the line that the one before it ends on
has none. -/
def byMarks : View (Option Bool) where
  first := none
  next previous t :=
    if t.span.startLine ≤ previous.span.endLine then none else some (t.afterBlank && t.keepsBlank)

/-- Blank lines as they are told by the lines of the entries. -/
def byLines : View (Option Bool) where
  first := none
  next previous t :=
    if t.span.startLine ≤ previous.span.endLine then none
    else some (decide (previous.span.endLine + 2 ≤ t.span.startLine))

/-! ### Entries that are marked -/

/-- Commas and semicolons end on the line that the token before them ends on. -/
def SignsTrail (C : Int → Token → Prop) : Prop :=
  ∀ line t, C line t → t.kind = .comma ∨ t.kind = .semicolon → t.endLine = line

/-- The node is marked as one after the line is, and starts with a token that comes after the line. -/
structure Traits.Noted (C : Int → Token → Prop) (isEmpty : Int → Bool) (line : Int) (t marked : Traits) : Prop
    extends t.Marked isEmpty line marked where
  first : ∃ first : Token, C line first ∧ t.span.startLine = first.line ∧ t.span.start = first.offset

/-- The views of an entry and the one before it that are related: as they are read, and as they are marked. -/
def Surveys {μ ν : Type} (C : Int → Token → Prop) (isEmpty : Int → Bool) (u : View μ) (v : View ν)
    (R : Standing → μ → ν → Prop) : Prop :=
  R .first u.first v.first ∧ ∀ standing line previous before t marked, before.span = previous.span →
      (SignsTrail C → line = previous.span.endLine) → t.keepsBlank = true → t.Noted C isEmpty line marked →
      R standing (u.next previous t) (v.next before marked)

/-- What is known of each token and of the line that the one before it ends on, and of the marks that two views
give. -/
structure Survey {μ ν : Type} (C : Int → Token → Prop) (isEmpty : Int → Bool) (u : View μ) (v : View ν)
    (bond : Bond μ ν) : Prop where
  after : ∀ {line t}, C line t → line ≤ t.line
  single : ∀ {line t}, C line t → t.kind ≠ .quoted → t.endLine = t.line
  statement : Surveys C isEmpty u v bond.statement
  element : Surveys C isEmpty u v bond.element

variable {C : Int → Token → Prop} {isEmpty : Int → Bool}

/-- What is marked of a list, entry by entry. Each relation is given the line that the token before the entry
ends on. -/
inductive Trail {α : Type} (C : Int → Token → Prop) (traits : α → Traits) (R : Int → α → α → Prop) :
    Int → List α → List α → Prop where
  | nil {line : Int} : Trail C traits R line [] []
  | cons {line next : Int} {x y : α} {xs ys : List α} (h : R line x y)
      (hNext : SignsTrail C → next = (traits x).span.endLine) (hRest : Trail C traits R next xs ys) :
      Trail C traits R line (x :: xs) (y :: ys)

section

variable {α β γ μ ν : Type} {traits : α → Traits} {line : Int} {xs ys : List α} {S : α → α → Prop}

/-- The construct is marked as a node after the line, and related to what it was. -/
structure NodeMarked (C : Int → Token → Prop) (isEmpty : Int → Bool) (traits : α → Traits) (S : α → α → Prop)
    (line : Int) (x y : α) : Prop where
  noted : (traits x).Noted C isEmpty line (traits y)
  related : S x y

/-- The construct is marked as a node after the line, and related to what it was. It keeps the blank line
before it. -/
structure EntryMarked (C : Int → Token → Prop) (isEmpty : Int → Bool) (traits : α → Traits) (S : α → α → Prop)
    (line : Int) (x y : α) : Prop extends NodeMarked C isEmpty traits S line x y where
  keeps : (traits x).keepsBlank = true

variable {R : Int → α → α → Prop}

theorem Trail.forall₂ (h : Trail C traits R line xs ys) (hEach : ∀ line x y, R line x y → S x y) :
    List.Forall₂ S xs ys := by
  induction h with
  | nil => exact .nil
  | cons h _ _ ih => exact .cons (hEach _ _ _ h) ih

theorem Trail.map_eq {f g : α → β} (h : Trail C traits R line xs ys) (hEach : ∀ line x y, R line x y → f x = g y) :
    xs.map f = ys.map g := by
  induction h with
  | nil => rfl
  | cons h _ _ ih => rw [List.map_cons, List.map_cons, hEach _ _ _ h, ih]

variable {u : View μ} {v : View ν} {R : Standing → μ → ν → Prop} {isGuard : β → Bool} {f : α → β} {g : α → γ}
  {T : β → γ → Prop}

theorem Trail.rows_after (h : Trail C traits (EntryMarked C isEmpty traits S) line xs ys)
    (hViews : Surveys C isEmpty u v R) (hEach : ∀ x y, S x y → T (f x) (g y)) {previous before : Traits}
    (hSpan : before.span = previous.span) (hLine : SignsTrail C → line = previous.span.endLine)
    (afterGuard : Bool) :
    Rows R isGuard T (some afterGuard) (u.after traits f previous xs) (v.after traits g before ys) := by
  induction h generalizing previous before afterGuard with
  | nil => exact .nil
  | cons h hNext _ ih =>
    refine .cons ?_ (hEach _ _ h.related) (ih h.noted.span hNext _)
    exact hViews.2 _ _ previous before _ _ hSpan hLine h.keeps h.noted

theorem Trail.rows (h : Trail C traits (EntryMarked C isEmpty traits S) line xs ys)
    (hViews : Surveys C isEmpty u v R) (hEach : ∀ x y, S x y → T (f x) (g y)) :
    Rows R isGuard T none (u.along traits f xs) (v.along traits g ys) := by
  cases h with
  | nil => exact .nil
  | cons h hNext hRest =>
    exact .cons hViews.1 (hEach _ _ h.related) (hRest.rows_after hViews hEach h.noted.span hNext _)

end

/-! ### The tokens of a text -/

section

variable {line : Int} {tokens : List Token}

theorem Tracked.le (h : Tracked C line tokens) (hAfter : ∀ {line t}, C line t → line ≤ t.line) :
    line ≤ lineAfter line tokens := by
  induction tokens generalizing line with
  | nil => exact Int.le_refl line
  | cons t rest ih => exact ((hAfter h.1).trans t.line_le_endLine).trans (ih h.2)

theorem lineAfter_eq_spanOf {t : Token} {rest : List Token} :
    lineAfter line (t :: rest) = (spanOf (t :: rest)).endLine := by
  obtain ⟨init, last, hLast⟩ := List.eq_nil_or_concat (t :: rest) |>.resolve_left (by simp)
  rw [hLast, List.concat_eq_append, endLine_spanOf (List.getLast?_concat ..), lineAfter_append]
  rfl

theorem startLine_spanOf (t : Token) (rest : List Token) : (spanOf (t :: rest)).startLine = t.line := by
  obtain ⟨last, hLast⟩ : ∃ last, (t :: rest).getLast? = some last := Option.isSome_iff_exists.1 (by simp)
  simp [spanOf, hLast]

theorem start_spanOf (t : Token) (rest : List Token) : (spanOf (t :: rest)).start = t.offset := by
  obtain ⟨last, hLast⟩ : ∃ last, (t :: rest).getLast? = some last := Option.isSome_iff_exists.1 (by simp)
  simp [spanOf, hLast]

end

/-! ### Sequences -/

/-- Both walks go through what was read from the tokens. It ends with them if commas and semicolons trail. -/
def Walked {α : Type} (C : Int → Token → Prop) (isEmpty : Int → Bool) (traits : α → Traits)
    (note : α → StateM (List Int) α) (mark : α → StateM (List Bool) α) (R : Int → α → α → Prop) (x : α)
    (own : List Token) : Prop :=
  ∀ line, Tracked C line own → Walks isEmpty line (lineAfter line own) x (note x) (mark x) (R line x) ∧
      (SignsTrail C → lineAfter line own = (traits x).span.endLine)

section

variable {α : Type} {traits : α → Traits} {note : α → StateM (List Int) α} {mark : α → StateM (List Bool) α}
  {R : Int → α → α → Prop}

/-- The entries are marked one by one. -/
def EntriesMarked (C : Int → Token → Prop) (traits : α → Traits) (R : Int → α → α → Prop) (line : Int)
    (xs : List α) (entries : List (Entry α)) : Prop :=
  ∃ ys, entries = ys.map .item ∧ Trail C traits R line xs ys

variable {g : ItemList α}

theorem ItemList.items_eq {ys : List α} (h : g.entries = ys.map .item) : g.items = ys := by
  rw [ItemList.items, h, List.filterMap_map]
  simp [Function.comp_def, Entry.item?]

variable {line : Int} {xs : List α}

theorem EntriesMarked.trail (h : EntriesMarked C traits R line xs g.entries) : Trail C traits R line xs g.items := by
  obtain ⟨ys, hEntries, hTrail⟩ := h
  rwa [ItemList.items_eq hEntries]

variable {x : α} {own : List Token}

theorem Walked.mono {S : Int → α → α → Prop} (h : Walked C isEmpty traits note mark R x own)
    (hPost : ∀ line y, R line x y → S line x y) : Walked C isEmpty traits note mark S x own := by
  intro line hTokens
  obtain ⟨hWalks, hEnd⟩ := h line hTokens
  exact ⟨hWalks.imp (hPost line), hEnd⟩

/-- One entry and those that follow it. -/
theorem Walked.cons (h : Walked C isEmpty traits note mark R x own) (hTokens : Tracked C line own)
    (more : List Token) (hRest : Walks isEmpty (lineAfter line own) (lineAfter line (own ++ more)) (xs.map .item)
      (ItemList.visitParts.visitEntries note (xs.map .item))
      (ItemList.visitParts.visitEntries mark (xs.map .item)) fun entries =>
        ∃ next, (SignsTrail C → next = lineAfter line own) ∧ EntriesMarked C traits R next xs entries) :
    Walks isEmpty line (lineAfter line (own ++ more)) ((x :: xs).map .item)
      (ItemList.visitParts.visitEntries note ((x :: xs).map .item))
      (ItemList.visitParts.visitEntries mark ((x :: xs).map .item)) (EntriesMarked C traits R line (x :: xs)) := by
  obtain ⟨hWalks, hEnd⟩ := h line hTokens
  refine hWalks.bind fun y hy => hRest.bind ?_
  rintro _ ⟨next, hNext, ys, rfl, hTrail⟩
  exact .done ⟨y :: ys, rfl, .cons hy (fun h => (hNext h).trans (hEnd h)) hTrail⟩

theorem ManyBefore.walks {D : Option Token → α → List Token → Prop} {next : Option Token} {tokens : List Token}
    (h : ManyBefore D next xs tokens)
    (hEach : ∀ next x own, D next x own → Walked C isEmpty traits note mark R x own)
    (hTokens : Tracked C line tokens) :
    Walks isEmpty line (lineAfter line tokens) (xs.map .item) (ItemList.visitParts.visitEntries note (xs.map .item))
      (ItemList.visitParts.visitEntries mark (xs.map .item)) (EntriesMarked C traits R line xs) := by
  induction h generalizing line with
  | nil => exact .done ⟨[], rfl, .nil⟩
  | @cons x xs own more hOwn _ ih =>
    obtain ⟨hFirst, hRest⟩ := tracked_append.1 hTokens
    refine (hEach _ x own hOwn).cons hFirst more ?_
    rw [lineAfter_append]
    exact (ih hRest).imp fun _ h => ⟨_, fun _ => rfl, h⟩

variable {D : α → List Token → Prop} {xs : List α} {tokens : List Token}

/-- Entries of which each stands behind a comma. If commas trail, the first starts after the given line. -/
theorem AfterCommas.walks (h : AfterCommas D xs tokens)
    (hEach : ∀ x ∈ xs, ∀ own, D x own → Walked C isEmpty traits note mark R x own)
    (hAfter : ∀ {line t}, C line t → line ≤ t.line) (hTokens : Tracked C line tokens) :
    Walks isEmpty line (lineAfter line tokens) (xs.map .item) (ItemList.visitParts.visitEntries note (xs.map .item))
      (ItemList.visitParts.visitEntries mark (xs.map .item)) fun entries =>
        ∃ next, (SignsTrail C → next = line) ∧ EntriesMarked C traits R next xs entries := by
  induction h generalizing line with
  | nil => exact .done ⟨line, fun _ => rfl, [], rfl, .nil⟩
  | @cons comma x xs own more hComma hOwn _ ih =>
    obtain ⟨hFirst, hRest⟩ := tracked_append.1 hTokens
    obtain ⟨hHead, hFirst⟩ := tracked_cons.1 hFirst
    have hWalks := (hEach x (by simp) own hOwn).cons hFirst more (by
      rw [lineAfter_append]
      exact ih (fun x hx => hEach x (by simp [hx])) hRest)
    refine hWalks.mono ((hAfter hHead).trans comma.line_le_endLine) (Int.le_refl _) fun _ h => ?_
    exact ⟨comma.endLine, fun hTrails => hTrails _ _ hHead (.inl hComma), h⟩

theorem Separated.walks (h : Separated D xs tokens)
    (hEach : ∀ x ∈ xs, ∀ own, D x own → Walked C isEmpty traits note mark R x own)
    (hAfter : ∀ {line t}, C line t → line ≤ t.line) (hTokens : Tracked C line tokens) :
    Walks isEmpty line (lineAfter line tokens) (xs.map .item) (ItemList.visitParts.visitEntries note (xs.map .item))
      (ItemList.visitParts.visitEntries mark (xs.map .item))
      (fun entries => ∃ next, EntriesMarked C traits R next xs entries) := by
  cases h with
  | later h =>
    exact (h.walks hEach hAfter hTokens).imp fun _ ⟨next, _, h⟩ => ⟨next, h⟩
  | @first x xs own more hOwn hMore =>
    obtain ⟨hFirst, hRest⟩ := tracked_append.1 hTokens
    have hWalks := (hEach x (by simp) own hOwn).cons hFirst more (by
      rw [lineAfter_append]
      exact hMore.walks (fun x hx => hEach x (by simp [hx])) hAfter hRest)
    exact hWalks.imp fun _ h => ⟨line, h⟩

end

end PolicyFormat.Policy
