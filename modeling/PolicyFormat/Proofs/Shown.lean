import PolicyFormat.Proofs.ListLayout

/-! Combining layouts of which it is known how much they show. -/
namespace PolicyFormat.Layout

open Policy

variable {α : Type} {s : Sight α}

/-- What may have to be laid out like something: what differs from it only in what `plain` forgets, and
what is alike to such a thing if both are quiet. -/
def Sight.Near (s : Sight α) (x z : α) : Prop :=
  s.plain z = s.plain x ∨ s.Quiet x ∧ s.Quiet z ∧ ∃ y, s.plain y = s.plain x ∧ s.Alike y z

theorem Sight.near_self (x : α) : s.Near x x :=
  .inl rfl

variable {lay : α → Lines} {R : α → Ink → Prop} {x : α}

/-- Another layout that gives the same lines wherever this one does. -/
theorem Shown.relaid {other : α → Lines} (h : Shown s lay R x)
    (hLay : ∀ z, s.Near x z → lay z = lay x → other z = lay x) : Shown s other R x := by
  obtain ⟨y, hPlain, hSame, hFirm, hInked⟩ := h
  have hSelf := hLay x (s.near_self x) rfl
  refine ⟨y, hPlain, (hLay y (.inl hPlain) hSame).trans hSelf.symm,
    fun hx => ⟨(hFirm hx).1, fun z hz hyz => ?_⟩, hSelf ▸ hInked⟩
  exact (hLay z (.inr ⟨hx, hz, y, hPlain, hyz⟩) ((hFirm hx).2 z hz hyz)).trans hSelf.symm

theorem Shown.congr {other : α → Lines} (h : Shown s lay R x) (hLay : ∀ z, s.Near x z → other z = lay z) :
    Shown s other R x :=
  h.relaid fun z hNear hSame => (hLay z hNear).trans hSame

/-- The same layout, looked at in another way. -/
theorem Shown.seen {t : Sight α} (h : Shown t lay R x)
    (hPlain : ∀ y, t.plain y = t.plain x → s.plain y = s.plain x) (hQuiet : ∀ z, s.Quiet z → t.Quiet z)
    (hSelf : ∀ y, t.plain y = t.plain x → t.Alike y x → s.Alike y x) (hAlike : ∀ y z, s.Alike y z → t.Alike y z) :
    Shown s lay R x := by
  obtain ⟨y, hy, hSame, hFirm, hInked⟩ := h
  refine ⟨y, hPlain y hy, hSame, fun hx => ?_, hInked⟩
  obtain ⟨hyx, hAll⟩ := hFirm (hQuiet x hx)
  exact ⟨hSelf y hy hyx, fun z hz hyz => hAll z (hQuiet z hz) (hAlike y z hyz)⟩

theorem Shown.map_indentRest (h : Shown s lay R x) (f : Frame) : Shown s (fun x => f.indentRest <$> lay x) R x := by
  obtain ⟨y, hPlain, hSame, hFirm, lines, hLines, hNonempty, ink, hInk, hSpells⟩ := h
  refine ⟨y, hPlain, congrArg _ hSame, fun hx => ⟨(hFirm hx).1, fun z hz hyz => congrArg _ ((hFirm hx).2 z hz hyz)⟩,
    f.indentRest lines, congrArg (f.indentRest <$> ·) hLines, indentRest_ne_nil f hNonempty, ink, hInk,
    hSpells.indentRest f⟩

/-- Something laid out by way of one of its parts. -/
theorem Shown.bind {β : Type} {t : Sight β} {layPart : β → Lines} {S : β → Ink → Prop} {part : β}
    (h : Shown t layPart S part) (set : β → α)
    (hPlain : ∀ b, t.plain b = t.plain part → s.plain (set b) = s.plain x) (g : List Line → Lines)
    (hLay : ∀ b, t.plain b = t.plain part → lay (set b) = layPart b >>= g) (hSelf : lay x = layPart part >>= g)
    (hFirm : s.Quiet x → t.Quiet part ∧ ∀ b, t.plain b = t.plain part →
      (t.Alike b part → s.Alike (set b) x) ∧ ∀ z, s.Quiet z → s.Alike (set b) z →
        ∃ c, t.Quiet c ∧ t.Alike b c ∧ lay z = layPart c >>= g)
    (hNext : ∀ b lines own, t.plain b = t.plain part → lines ≠ [] → S b own → Spells own lines →
      Inked (g lines) (R (set b))) : Shown s lay R x := by
  obtain ⟨b, hb, hSame, hPart, hInked⟩ := h
  refine ⟨set b, hPlain b hb, ?_, fun hx => ?_, ?_⟩
  · rw [hLay b hb, hSelf, hSame]
  · obtain ⟨hQuiet, hAll⟩ := hFirm hx
    obtain ⟨hAlike, hOthers⟩ := hAll b hb
    refine ⟨hAlike (hPart hQuiet).1, fun z hz hbz => ?_⟩
    obtain ⟨c, hc, hbc, hLines⟩ := hOthers z hz hbz
    rw [hLines, hSelf, (hPart hQuiet).2 c hc hbc]
  · rw [hSelf]
    exact hInked.bind fun lines hLines own hOwn hSpells => hNext b lines own hb hLines hOwn hSpells

variable {f : Frame}

theorem firstThatFits_one_shown {only : α → Frame → Lines} (h : Shown s (fun x => only x f) R x) :
    Shown s (fun x => firstThatFits f [only x]) R x := by
  have ⟨_, _, _, _, lines, hLines, hNonempty, _⟩ := h
  exact h.relaid fun z _ hSame => (firstThatFits_last (hSame.trans hLines) hNonempty).trans hLines.symm

/-- The layout succeeds, and it fits or not as said. -/
def Fits (f : Frame) (lay : Lines) (fit : Bool) : Prop :=
  ∃ lines, lay = .ok lines ∧ lines ≠ [] ∧ fits f lines = fit

/-- The first of two layouts that fits, where it is the same for all whether the first one fits. -/
theorem firstThatFits_two_shown {first second : α → Frame → Lines} (hFirst : Shown s (fun x => first x f) R x)
    (hSecond : Shown s (fun x => second x f) R x)
    (hFits : ∀ z fit, s.Near x z → Fits f (first x f) fit → Fits f (first z f) fit) :
    Shown s (fun x => firstThatFits f [first x, second x]) R x := by
  have ⟨_, _, _, _, lines, hLines, hNonempty, _⟩ := hFirst
  cases hFit : fits f lines with
  | true => exact hFirst.relaid fun z _ hSame => (firstThatFits_first (hSame.trans hLines) hFit).trans hLines.symm
  | false =>
    have ⟨_, _, _, _, more, hMore, hMoreNonempty, _⟩ := hSecond
    refine hSecond.relaid fun z hNear hSame => ?_
    obtain ⟨other, hOther, hOtherNonempty, hOtherFit⟩ := hFits z false hNear ⟨lines, hLines, hNonempty, hFit⟩
    have hChosen := firstThatFits_second hOther hOtherNonempty hOtherFit (hSame.trans hMore) hMoreNonempty
    exact hChosen.trans hMore.symm

theorem withComments_congr {t : Traits} {own other : Frame → Lines} (h : own f = other f) :
    withComments t own f = withComments t other f := by
  rw [withComments_eq, withComments_eq, framed, framed, h]

theorem withComments_shown {traits : α → Traits} {own : α → Frame → Lines}
    (hTraits : ∀ y, s.plain y = s.plain x → traits y = traits x) (hHolds : (traits x).Holds Comment.Legible)
    (hQuiet : ∀ x, s.Quiet x → (traits x).comments = [])
    (hKept : s.Quiet x → ∀ y z, s.plain y = s.plain x → s.Quiet z → s.Alike y z →
      (traits x).kept f.keepsBlank = (traits z).kept f.keepsBlank)
    (hOwn : Shown s (fun x => own x f) (fun y inner => R y ((traits y).noted f.keepsBlank inner)) x) :
    Shown s (fun x => withComments (traits x) (own x) f) R x := by
  obtain ⟨y, hPlain, hSame, hFirm, hInked⟩ := hOwn
  simp only [hTraits y hPlain] at hInked
  refine ⟨y, hPlain, ?_, fun hx => ⟨(hFirm hx).1, fun z hz hyz => ?_⟩, withComments_inked hHolds hInked⟩
  · change withComments (traits y) (own y) f = withComments (traits x) (own x) f
    rw [hTraits y hPlain]
    exact withComments_congr hSame
  · exact withComments_alike (hQuiet z hz) (hQuiet x hx) (hKept hx y z hPlain hz hyz).symm ((hFirm hx).2 z hz hyz)

end PolicyFormat.Layout
