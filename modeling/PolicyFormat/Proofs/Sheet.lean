import PolicyFormat.Proofs.Formed
import PolicyFormat.Proofs.ListLayout

/-! Where spaces and line breaks go. An ink is put down on a sheet that refuses a space at the end of a line or at
its start, a blank line at the top, and two blank lines in a row. The inks of trees are never refused. -/
namespace PolicyFormat.Layout

/-- What the sheet shows before the place where the next mark goes: nothing at all, the start of a line, which may
have a blank line before it, or a line that ends in text or in a space. -/
inductive Sheet where
  | top
  | fresh (afterBlank : Bool)
  | inked
  | spaced
deriving Repr, DecidableEq

/-- Puts a mark down, unless it is refused. -/
def Sheet.step : Sheet → Mark → Option Sheet
  | _, .word _ => some .inked
  | _, .note _ => some .inked
  | .inked, .tail _ _ => some .inked
  | .inked, .space => some .spaced
  | .inked, .newline => some (.fresh false)
  | .fresh false, .newline => some (.fresh true)
  | _, _ => none

namespace Sheet

variable {sheet next : Sheet} {text : String}

@[simp] theorem step_word : sheet.step (.word text) = some .inked := by
  cases sheet <;> rfl

@[simp] theorem step_note : sheet.step (.note text) = some .inked := by
  cases sheet <;> rfl

/-- A line break ends a line, or makes a blank one after a line with text. -/
theorem eq_of_step_newline (h : sheet.step .newline = some next) :
    sheet = .inked ∧ next = .fresh false ∨ sheet = .fresh false ∧ next = .fresh true := by
  cases sheet with
  | inked => exact .inl ⟨rfl, (Option.some.inj h).symm⟩
  | fresh afterBlank =>
    cases afterBlank with
    | false => exact .inr ⟨rfl, (Option.some.inj h).symm⟩
    | true => cases h
  | top | spaced => cases h

theorem eq_of_step_space (h : sheet.step .space = some next) : sheet = .inked ∧ next = .spaced := by
  cases sheet <;> simp_all [step]

theorem eq_of_step_tail {spaced : Bool} (h : sheet.step (.tail spaced text) = some next) :
    sheet = .inked ∧ next = .inked := by
  cases sheet <;> simp_all [step]

end Sheet

/-- Puts marks down one after the other. -/
def Ink.cover (sheet : Sheet) (ink : Ink) : Option Sheet :=
  ink.foldlM Sheet.step sheet

@[simp] theorem Ink.cover_nil (sheet : Sheet) : Ink.cover sheet [] = some sheet := rfl

@[simp] theorem Ink.cover_cons (sheet : Sheet) (mark : Mark) (ink : Ink) :
    Ink.cover sheet (mark :: ink) = (sheet.step mark).bind (fun next => Ink.cover next ink) := by
  simp [Ink.cover, List.foldlM_cons, bind]

theorem Ink.cover_append (sheet : Sheet) (a b : Ink) :
    Ink.cover sheet (a ++ b) = (Ink.cover sheet a).bind (fun next => Ink.cover next b) := by
  simp [Ink.cover, List.foldlM_append, bind]

/-- The ink leads from one state of the sheet to another. -/
def Covers (before : Sheet) (ink : Ink) (after : Sheet) : Prop :=
  Ink.cover before ink = some after

namespace Covers

variable {before middle after : Sheet} {a b : Ink}

theorem nil (sheet : Sheet) : Covers sheet [] sheet := rfl

theorem append (hFirst : Covers before a middle) (hSecond : Covers middle b after) : Covers before (a ++ b) after := by
  rw [Covers, Ink.cover_append, hFirst]
  exact hSecond

variable {mark : Mark}

theorem cons (hMark : before.step mark = some middle) (h : Covers middle a after) :
    Covers before (mark :: a) after := by
  rw [Covers, Ink.cover_cons, hMark]
  exact h

theorem uncons (h : Covers before (mark :: a) after) :
    ∃ next, before.step mark = some next ∧ Covers next a after := by
  rwa [Covers, Ink.cover_cons, Option.bind_eq_some_iff] at h

theorem word (sheet : Sheet) (text : String) : Covers sheet [.word text] .inked :=
  .cons Sheet.step_word (.nil _)

theorem note (sheet : Sheet) (text : String) : Covers sheet [.note text] .inked :=
  .cons Sheet.step_note (.nil _)

end Covers

/-- The ink may be put down wherever it is, and ends in text. -/
def Ink.Solid (ink : Ink) : Prop :=
  ∀ sheet, Covers sheet ink .inked

/-- A blank line may be put down after text or at the start of a line. -/
def Sheet.TakesBlank (sheet : Sheet) : Prop :=
  sheet = .inked ∨ sheet = .fresh false

/-- The ink may be put down wherever a blank line may, and ends in text. -/
def Ink.Settles (ink : Ink) : Prop :=
  ∀ sheet : Sheet, sheet.TakesBlank → Covers sheet ink .inked

theorem Ink.Solid.append {a b : Ink} (ha : a.Solid) (hb : Covers .inked b .inked) : Ink.Solid (a ++ b) :=
  fun sheet => (ha sheet).append hb

theorem Ink.solid_word (text : String) : Ink.Solid [.word text] :=
  fun sheet => .word sheet text

/-- After text, a gap may be a space or a line break. -/
theorem Ink.Solid.after_gap {gap : Mark} (hGap : gap = .space ∨ gap = .newline) {ink : Ink} (h : ink.Solid) :
    Covers .inked (gap :: ink) .inked := by
  rcases hGap with rfl | rfl
  · exact .cons rfl (h _)
  · exact .cons rfl (h _)

end PolicyFormat.Layout

namespace PolicyFormat.Policy

open Layout

/-! ### Comments -/

variable {ink : Ink} {c : Comment}

namespace Comment

variable {c : Comment}

theorem covers_aboveInk (h : c.Legible) (sheet : Sheet) : Covers sheet c.aboveInk (.fresh false) := by
  have hLines := h.1
  unfold aboveInk
  generalize c.lines = lines at hLines ⊢
  induction lines generalizing sheet with
  | nil => exact absurd rfl hLines
  | cons line rest ih =>
    have hFirst : Covers sheet [.note (normalNote line), .newline] (.fresh false) :=
      (Covers.note sheet _).append (.cons rfl (.nil _))
    cases rest with
    | nil => simpa using hFirst
    | cons next rest => exact hFirst.append (ih _ (by simp))

theorem solid_ownInk (h : c.Legible) : c.ownInk.Solid := by
  have hLines := h.1
  unfold ownInk
  generalize c.lines = lines at hLines ⊢
  induction lines with
  | nil => exact absurd rfl hLines
  | cons line rest ih =>
    cases rest with
    | nil => exact fun sheet => .note sheet _
    | cons next rest =>
      simp only [List.map_cons, List.intersperse_cons_cons] at ih ⊢
      exact fun sheet => (Covers.note sheet _).append (.cons rfl (ih (by simp) _))

theorem covers_tailInk (c : Comment) : Covers .inked c.tailInk .inked := by
  have hRest : ∀ lines : List String,
      Covers .inked (lines.map (fun line => Mark.tail false (normalNote line))) .inked := by
    intro lines
    induction lines with
    | nil => exact .nil _
    | cons line lines ih => exact .cons rfl ih
  unfold tailInk
  split
  · exact .nil _
  · exact .cons rfl (hRest _)

end Comment

theorem settles_blank (kept : Bool) (h : ink.Solid) : Ink.Settles (blankInk kept ++ ink) := by
  intro sheet hSheet
  cases kept with
  | false => exact h sheet
  | true =>
    rcases hSheet with rfl | rfl
    · exact .cons rfl (h _)
    · exact .cons rfl (h _)

theorem solid_blank {kept : Bool} (hKept : kept = false) (h : ink.Solid) : Ink.Solid (blankInk kept ++ ink) := by
  subst hKept
  exact h

theorem Comment.settles_noted (h : c.Legible) (keeps : Option Bool) : (c.noted keeps).Settles :=
  settles_blank _ (solid_ownInk h)

theorem Comment.solid_noted (h : c.Legible) (hKeeps : c.keepsBlank = false) : (c.noted none).Solid :=
  solid_blank (by simp [hKeeps]) (solid_ownInk h)

namespace Traits

variable {P : Comment → Prop} (hP : ∀ c, P c → c.Legible) {t : Traits} (h : t.Holds P)
include hP h

variable {own : Ink}

/-- The comments of a node go above it and to the end of its line. -/
theorem solid_around (hOwn : own.Solid) :
    Ink.Solid (t.leading.flatMap Comment.aboveInk ++ own ++ t.tail?.elim [] (·.2.tailInk)) := by
  have hLegible : ∀ c ∈ t.leading, c.Legible := fun c hc => hP c (h c (mem_of_mem_leading hc)).1
  have hLeading : ∀ (cs : List Comment), (∀ c ∈ cs, c.Legible) → Ink.Solid (cs.flatMap Comment.aboveInk ++ own) := by
    intro cs hcs
    induction cs with
    | nil => exact hOwn
    | cons c cs ih =>
      intro sheet
      rw [List.flatMap_cons, List.append_assoc]
      exact (Comment.covers_aboveInk (hcs c List.mem_cons_self) sheet).append
        (ih (fun c hc => hcs c (List.mem_cons_of_mem _ hc)) _)
  refine (hLeading _ hLegible).append ?_
  cases t.tail? with
  | none => exact .nil _
  | some found => exact found.2.covers_tailInk

theorem settles_noted (keeps : Option Bool) (hOwn : own.Solid) : (t.noted keeps own).Settles := by
  have hNoted := settles_blank (t.afterBlank && keeps.getD t.keepsBlank) (solid_around hP h hOwn)
  simpa [noted] using hNoted

theorem solid_noted (keeps : Option Bool) (hKeeps : keeps.getD t.keepsBlank = false) (hOwn : own.Solid) :
    (t.noted keeps own).Solid := by
  have hKept : (t.afterBlank && keeps.getD t.keepsBlank) = false := by simp [hKeeps]
  have hNoted := solid_blank hKept (solid_around hP h hOwn)
  simpa [noted] using hNoted

end Traits

/-! ### Lists -/

variable {α : Type} {R : Option Bool → α → Ink → Prop} {entries : List (Entry α)}

/-- What stands between and after entries of the style leads from text to places of the given sort, and after the
last entry to the given state. -/
structure InkStyle.Paces (style : InkStyle) (S : Sheet → Prop) (after : Sheet) : Prop where
  item : ∃ next, S next ∧ Covers .inked (style.mark ++ style.after ++ style.between) next
  comment : ∃ next, S next ∧ Covers .inked (style.after ++ style.between) next
  lastItem : Covers .inked (style.lastMark ++ style.after) after
  lastComment : Covers .inked style.after after

theorem EntriesInked.covers {style : InkStyle} {isFirst : Bool} {S : Sheet → Prop} {after : Sheet}
    (hStyle : style.Paces S after)
    (hItem : ∀ x, .item x ∈ entries → ∀ isFirst own, R (style.keepsBlank isFirst) x own →
      ∀ sheet, S sheet → Covers sheet own .inked)
    (hComment : ∀ c, .comment c ∈ entries → ∀ isFirst sheet, S sheet →
      Covers sheet (c.noted (style.keepsBlank isFirst)) .inked) (h : EntriesInked style R isFirst entries ink)
    (sheet : Sheet) (hSheet : S sheet) : Covers sheet ink after := by
  induction h generalizing sheet with
  | lastItem hOwn =>
    rw [List.append_assoc]
    exact (hItem _ List.mem_cons_self _ _ hOwn sheet hSheet).append hStyle.lastItem
  | lastComment => exact (hComment _ List.mem_cons_self _ sheet hSheet).append hStyle.lastComment
  | @item isFirst x rest own more hOwn hMore ih =>
    obtain ⟨next, hNext, hBetween⟩ := hStyle.item
    have hFirst := (hItem _ List.mem_cons_self _ _ hOwn sheet hSheet).append hBetween
    have hRest := ih (fun x hx => hItem x (List.mem_cons_of_mem _ hx))
      (fun c hc => hComment c (List.mem_cons_of_mem _ hc)) next hNext
    simpa using hFirst.append hRest
  | @comment isFirst c rest more hMore ih =>
    obtain ⟨next, hNext, hBetween⟩ := hStyle.comment
    have hFirst := (hComment _ List.mem_cons_self isFirst sheet hSheet).append hBetween
    have hRest := ih (fun x hx => hItem x (List.mem_cons_of_mem _ hx))
      (fun c hc => hComment c (List.mem_cons_of_mem _ hc)) next hNext
    simpa using hFirst.append hRest

theorem paces_inlineInk (keepsBlank : Bool → Option Bool) : (inlineInk keepsBlank).Paces (fun _ => True) .inked :=
  ⟨⟨_, trivial, rfl⟩, ⟨_, trivial, rfl⟩, rfl, rfl⟩

theorem paces_argumentsInk : argumentsInk.Paces Sheet.TakesBlank .inked :=
  ⟨⟨_, .inr rfl, rfl⟩, ⟨_, .inr rfl, rfl⟩, rfl, rfl⟩

theorem paces_bracedInk : bracedInk.Paces Sheet.TakesBlank (.fresh false) :=
  ⟨⟨_, .inr rfl, rfl⟩, ⟨_, .inr rfl, rfl⟩, rfl, rfl⟩

theorem paces_constraintsInk : constraintsInk.Paces (fun _ => True) .inked :=
  ⟨⟨_, trivial, rfl⟩, ⟨_, trivial, rfl⟩, rfl, rfl⟩

theorem paces_clausesInk : clausesInk.Paces Sheet.TakesBlank .inked :=
  ⟨⟨_, .inr rfl, rfl⟩, ⟨_, .inr rfl, rfl⟩, rfl, rfl⟩

theorem paces_selectionsInk : selectionsInk.Paces Sheet.TakesBlank (.fresh false) :=
  ⟨⟨_, .inr rfl, rfl⟩, ⟨_, .inr rfl, rfl⟩, rfl, rfl⟩

theorem paces_spacedInk : spacedInk.Paces (fun _ => True) (.fresh false) :=
  ⟨⟨_, trivial, rfl⟩, ⟨_, trivial, rfl⟩, rfl, rfl⟩

/-- Arguments go after the name of what they are given to. -/
theorem ArgumentsInked.covers {braceless : Bool}
    (hItem : ∀ x, .item x ∈ entries → ∀ own, R Option.none x own → own.Solid)
    (hComment : ∀ c, .comment c ∈ entries → c.Legible) (h : ArgumentsInked braceless R entries ink) :
    Covers .inked ink .inked := by
  cases h with
  | none => exact .nil _
  | empty => exact .cons rfl (.cons rfl (.nil _))
  | inline hItems h =>
    have hInner := h.covers (paces_inlineInk _) (fun x hx isFirst own hOwn sheet _ => hItem x hx own hOwn sheet)
      (fun c hc => absurd hc (hItems c)) .inked trivial
    exact (Covers.cons rfl hInner).append (.word _ _)
  | lined h =>
    have hInner := h.covers paces_argumentsInk (fun x hx isFirst own hOwn sheet _ => hItem x hx own hOwn sheet)
      (fun c hc isFirst => Comment.settles_noted (hComment c hc) _) .inked (.inl rfl)
    exact .cons rfl hInner

/-! ### Lists that keep no blank lines before comments -/

/-- The comments in the list keep no blank lines before them. -/
def ItemList.Dense {α : Type} (g : ItemList α) : Prop :=
  ∀ c, .comment c ∈ g.entries → c.keepsBlank = false

/-- No comment among the attributes of a promise keeps a blank line. -/
def Clause.Dense : Clause → Prop
  | .guard _ => True
  | .promise p => p.constraints.Dense

/-- The comments between promise types and among attributes keep no blank lines. -/
def Contents.Dense : Contents → Prop
  | .bundle statements =>
    statements.Dense ∧ ∀ p, .item p ∈ statements.entries → ∀ c, .item c ∈ p.clauses.entries → c.Dense
  | .body _ => True

/-- The comments between blocks, between promise types and among attributes keep no blank lines. -/
def Specification.Dense (s : Specification) : Prop :=
  ItemList.Dense s ∧ ∀ b, .item b ∈ s.entries → b.contents.Dense

/-! ### Trees -/

section

variable {P : Comment → Prop} (hP : ∀ c, P c → c.Legible) {ink : Ink}
include hP

theorem Leaf.solid_ink {l : Leaf} (h : l.traits.Keeps P) : (l.ink none).Solid :=
  Traits.solid_noted hP h.1 none h.2 (Ink.solid_word _)

variable {braceless : Bool} {keeps : Option Bool}

theorem Element.Inked.solid_or_settles {keepsBlank : Bool} {e : Element} (h : e.Inked braceless keeps ink)
    (hFormed : e.Formed P keepsBlank) : ink.Settles ∧ (keeps.getD keepsBlank = false → ink.Solid) := by
  induction e using Element.induction generalizing keeps keepsBlank ink with
  | leaf word =>
    cases h
    cases hFormed with
    | leaf hWord hHolds hKeeps =>
      refine ⟨Traits.settles_noted hP hHolds _ (Ink.solid_word _), fun hNone => ?_⟩
      exact Traits.solid_noted hP hHolds _ (by rwa [hKeeps]) (Ink.solid_word _)
  | call traits name arguments ih =>
    cases h with
    | call h =>
      cases hFormed with
      | call hHolds hKeeps hName hNameSilent hSilent hItems hComments hBrackets =>
        have hArguments := h.covers (fun e he own hOwn => (ih e (ItemList.mem_items.2 he) hOwn (hItems e he)).2 rfl)
          (fun c hc => hP c (hComments c hc))
        have hOwn := (Ink.solid_word name.text).append hArguments
        refine ⟨Traits.settles_noted hP hHolds _ hOwn, fun hNone => ?_⟩
        exact Traits.solid_noted hP hHolds _ (by rwa [hKeeps]) hOwn

theorem Value.Inked.solid {v : Value} (h : v.Inked braceless ink) (hFormed : v.Formed P) : ink.Solid := by
  cases h with
  | single h => exact (h.solid_or_settles hP hFormed.1).2 rfl
  | empty => exact (Ink.solid_word _).append (.word _ _)
  | inline hItems hMarks hQuiet h =>
    have hInner := h.covers (paces_inlineInk _)
      (fun e he isFirst own hOwn sheet _ => (hOwn.solid_or_settles hP (hFormed.items e he)).2 rfl sheet)
      (fun c hc => absurd hc (hItems c)) .spaced trivial
    have hLast : Covers .inked [.space, .word "\x7d"] .inked := rfl
    rw [List.append_assoc]
    exact fun sheet => ((Covers.word sheet _).append (.cons rfl (.nil _))).append (hInner.append hLast)
  | lined hBreaks _ h =>
    have hInner := h.covers paces_bracedInk
      (fun e he isFirst own hOwn => (hOwn.solid_or_settles hP (hFormed.items e he)).1)
      (fun c hc isFirst => Comment.settles_noted (hP c (hFormed.comments c hc)) _) (.fresh false) (.inr rfl)
    rw [List.append_assoc]
    exact fun sheet => ((Covers.word sheet _).append (.cons rfl (.nil _))).append (hInner.append (.word _ _))

variable {a : Assignment}

theorem Assignment.BodyInked.solid (h : a.BodyInked braceless ink) (hFormed : a.Formed P) : ink.Solid := by
  cases h with
  | mk hGap h =>
    have hValue := (h.solid hP hFormed.value).after_gap hGap
    exact (Ink.solid_word _).append (.cons rfl (.cons rfl hValue))

theorem Assignment.Inked.solid (h : a.Inked none ink) (hFormed : a.Constrains P) : ink.Solid := by
  cases h with
  | mk h => exact Traits.solid_noted hP hFormed.holds none hFormed.keeps (h.solid hP hFormed.toFormed)

theorem PromiseeInked.covers {promisee : Option Value} (h : PromiseeInked promisee ink)
    (hFormed : ∀ v ∈ promisee, v.Formed P) : Covers .inked ink .inked := by
  cases h with
  | none => exact .nil _
  | some hGap h =>
    have hValue := h.solid hP (hFormed _ rfl)
    have hArrow : Ink.Solid ([.word "->", .space] ++ _) :=
      fun sheet => ((Covers.word sheet _).append (.cons rfl (.nil _))).append (hValue .spaced)
    exact hArrow.after_gap hGap

theorem ConstraintsInked.covers {entries : List (Entry Assignment)} (h : ConstraintsInked entries ink)
    (hItem : ∀ a, .item a ∈ entries → a.Constrains P)
    (hComment : ∀ c, .comment c ∈ entries → P c ∧ c.keepsBlank = false) : Covers .inked ink .inked := by
  cases h with
  | none => exact .word _ _
  | some hGap h =>
    have hBody : Ink.Solid _ := fun sheet => h.covers paces_constraintsInk
      (fun a ha isFirst own hOwn sheet _ => hOwn.solid hP (hItem a ha) sheet)
      (fun c hc isFirst sheet _ => Comment.solid_noted (hP c (hComment c hc).1) (hComment c hc).2 sheet)
      sheet trivial
    exact hBody.after_gap hGap

theorem Promise.Inked.settles {p : Promise} (h : p.Inked keeps ink) (hFormed : p.Formed P)
    (hDense : p.constraints.Dense) : ink.Settles := by
  cases h with
  | mk hPromisee hBody =>
    have hRight := hPromisee.covers hP hFormed.promisee
    have hLines := hBody.covers hP hFormed.constraints.items
      (fun c hc => ⟨hFormed.constraints.comments c hc, hDense c hc⟩)
    exact Traits.settles_noted hP hFormed.holds _ (((Ink.solid_word _).append hRight).append hLines)

theorem Guard.settles_ink {g : Guard} (hFormed : g.Formed P) (keeps : Option Bool) : (g.ink keeps).Settles :=
  Traits.settles_noted hP hFormed.holds _ (Ink.solid_word _)

theorem Clause.Inked.settles {c : Clause} (h : c.Inked keeps ink) (hFormed : c.Formed P) (hDense : c.Dense) :
    ink.Settles := by
  cases h with
  | guard => exact Guard.settles_ink hP hFormed _
  | promise h => exact h.settles hP hFormed hDense

theorem ClausesInked.covers {entries : List (Entry Clause)} (h : ClausesInked entries ink)
    (hItem : ∀ c, .item c ∈ entries → c.Formed P ∧ c.Dense) (hComment : ∀ c, .comment c ∈ entries → P c) :
    Covers .inked ink .inked := by
  cases h with
  | none => exact .nil _
  | some h =>
    have hBody := h.covers paces_clausesInk
      (fun c hc isFirst own hOwn => hOwn.settles hP (hItem c hc).1 (hItem c hc).2)
      (fun c hc isFirst => Comment.settles_noted (hP c (hComment c hc)) _) (.fresh false) (.inr rfl)
    exact .cons rfl hBody

theorem PromiseType.Inked.solid {p : PromiseType} (h : p.Inked none ink) (hFormed : p.Formed P)
    (hDense : ∀ c, .item c ∈ p.clauses.entries → c.Dense) : ink.Solid := by
  cases h with
  | mk h =>
    have hBody := h.covers hP (fun c hc => ⟨hFormed.clauses.items c hc, hDense c hc⟩) hFormed.clauses.comments
    exact Traits.solid_noted hP hFormed.keeps.1 none hFormed.keeps.2
      ((Leaf.solid_ink hP hFormed.nameKeeps).append hBody)

theorem Selection.Inked.settles {s : Selection} (h : s.Inked keeps ink) (hFormed : s.Formed P) : ink.Settles := by
  cases h with
  | guard => exact Guard.settles_ink hP hFormed _
  | assignment h =>
    exact Traits.settles_noted hP (Assignment.Formed.holds hFormed) _ ((h.solid hP hFormed).append (.word _ _))

variable {brace : Option Leaf}

theorem covers_openingInk (h : BraceFormed P "\x7b" brace) : Covers .inked (openingInk brace) .inked := by
  obtain ⟨l, gap, -, -, hKeeps, hInk, ⟨rfl, -⟩ | rfl⟩ := openingInk_cases h <;> rw [hInk] <;>
    exact .cons rfl (Leaf.solid_ink hP hKeeps _)

theorem solid_closingInk (h : BraceFormed P "\x7d" brace) : (closingInk brace).Solid := by
  obtain ⟨l, -, -, hKeeps, hInk⟩ := closingInk_eq h
  exact hInk ▸ Leaf.solid_ink hP hKeeps

theorem BlockInked.covers {α : Type} {style : InkStyle} {R : Option Bool → α → Ink → Prop} {F : α → Prop}
    {g : ItemList α} {S : Sheet → Prop} (hStyle : style.Paces S (.fresh false)) (hFresh : S (.fresh false))
    (hFormed : g.Braced P F)
    (hItem : ∀ x, .item x ∈ g.entries → ∀ isFirst own, R (style.keepsBlank isFirst) x own →
      ∀ sheet, S sheet → Covers sheet own .inked)
    (hComment : ∀ c, .comment c ∈ g.entries → ∀ isFirst sheet, S sheet →
      Covers sheet (c.noted (style.keepsBlank isFirst)) .inked)
    (h : BlockInked style R g ink) : Covers .inked ink .inked := by
  have hOpening : Covers .inked (openingInk g.opening ++ [.newline]) (.fresh false) :=
    (covers_openingInk hP hFormed.opening).append (.cons rfl (.nil _))
  have hClosing := solid_closingInk hP hFormed.closing
  cases h with
  | empty => exact hOpening.append (hClosing _)
  | some h => exact (hOpening.append (h.covers hStyle hItem hComment _ hFresh)).append (hClosing _)

theorem Contents.Inked.covers {c : Contents} (h : c.Inked ink) (hFormed : c.Formed P) (hDense : c.Dense) :
    Covers .inked ink .inked := by
  cases h with
  | bundle h =>
    exact h.covers hP paces_spacedInk trivial hFormed
      (fun p hp isFirst own hOwn sheet _ => hOwn.solid hP (hFormed.items p hp) (hDense.2 p hp) sheet)
      (fun c hc isFirst sheet _ => Comment.solid_noted (hP c (hFormed.comments c hc)) (hDense.1 c hc) sheet)
  | body h =>
    exact h.covers hP paces_selectionsInk (.inr rfl) hFormed.1
      (fun s hs isFirst own hOwn => hOwn.settles hP (hFormed.1.items s hs))
      (fun c hc isFirst => Comment.settles_noted (hP c (hFormed.1.comments c hc)) _)

theorem Block.Inked.solid {b : Block} (h : b.Inked none ink) (hFormed : b.Formed P) (hDense : b.contents.Dense) :
    ink.Solid := by
  obtain ⟨hParameters, hContents⟩ := h
  have hBrackets := hParameters.covers
    (fun l hl own (hOwn : own = l.ink none) => hOwn ▸ Leaf.solid_ink hP (hFormed.parameters.items l hl).2)
    (fun c hc => hP c (hFormed.parameters.comments c hc))
  have hInner := hContents.covers hP hFormed.contents hDense
  have hHead : Covers .inked [.space, .word b.type.text, .space, .word b.name.text] .inked := rfl
  exact Traits.solid_noted hP hFormed.keeps.1 none hFormed.keeps.2
    ((((Ink.solid_word _).append hHead).append hBrackets).append hInner)

/-- The ink of a tree is put down without refusal, from the top of the sheet to the start of a line, unless it is
empty. -/
theorem Specification.Inked.covers {s : Specification} (h : Specification.Inked s ink)
    (hFormed : Specification.Formed P s) (hDense : s.Dense) :
    ink = [] ∨ Covers .top ink (.fresh false) := by
  cases h with
  | empty => exact .inl rfl
  | some h =>
    exact .inr (h.covers paces_spacedInk
      (fun b hb isFirst own hOwn sheet _ => hOwn.solid hP (hFormed.items b hb) (hDense.2 b hb) sheet)
      (fun c hc isFirst sheet _ => Comment.solid_noted (hP c (hFormed.comments c hc)) (hDense.1 c hc) sheet)
      .top trivial)

end

end PolicyFormat.Policy
