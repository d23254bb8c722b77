import PolicyFormat.Proofs.Convergence
import PolicyFormat.Proofs.ShownBlanks

/-! The blank lines between the statements of a text without comments, and between the elements of its lists,
are those of the text that was beautified. -/
namespace PolicyFormat.Policy

open Layout Abstract

/-! ### Places in a text -/

/-- Where the entries of lists stand, with the entries before them. -/
def bySpans : View (Option (Span × Span)) where
  first := none
  next previous t := some (previous.span, t.span)

/-- What stands there is the first on its line: no token before it starts on that line. -/
def LeadsLine (text : String) (place : Span) : Prop :=
  ∀ t ∈ (Scan.ofText text).tokens, t.offset < place.start → t.line ≠ place.startLine

/-- The line is part of a string. -/
def WithinString (text : String) (line : Int) : Prop :=
  ∃ t ∈ (Scan.ofText text).tokens, t.kind = .quoted ∧ t.line ≤ line ∧ line ≤ t.endLine

instance (text : String) (line : Int) : Decidable (WithinString text line) :=
  inferInstanceAs (Decidable (∃ t ∈ (Scan.ofText text).tokens, t.kind = .quoted ∧ t.line ≤ line ∧ line ≤ t.endLine))

/-- The mark of an entry tells whether a blank line stands before it in the text. -/
structure Told (text : String) (place : Span) (mark : Bool) : Prop where
  sound : mark = true → IsBlankLine text.toList (place.startLine - 1)
  blank : LeadsLine text place → IsBlankLine text.toList (place.startLine - 1) →
    ¬ WithinString text (place.startLine - 1) → mark = true

/-- The marks of entries are told by the text. An element that is not laid out on a line of its own has none. -/
def sourced (text : String) : Bond (Option (Span × Span)) (Option Bool) where
  statement standing place mark := standing = .later → ∃ p ∈ place, ∃ kept, mark = some kept ∧ Told text p.2 kept
  element standing place mark := standing = .later → ∃ p ∈ place, ∀ kept, mark = some kept → Told text p.2 kept

/-! ### The text that is read -/

variable {line : Int} {text : String}

/-- The token comes after a line that an earlier one of the tokens ends on. -/
structure Token.Succeeds (tokens : List Token) (line : Int) (t : Token) : Prop where
  after : line ≤ t.line
  single : t.kind ≠ .quoted → t.endLine = t.line
  reached : line = 0 ∨ ∃ before ∈ tokens, before.offset < t.offset ∧ before.endLine = line

theorem Tracked.reached {all tokens : List Token} (hAll : ∀ t ∈ tokens, t ∈ all)
    (hOrder : tokens.Pairwise fun a b => a.offset < b.offset)
    (hLine : ∀ t ∈ tokens, line = 0 ∨ ∃ before ∈ all, before.offset < t.offset ∧ before.endLine = line) :
    Tracked (fun line t => line = 0 ∨ ∃ before ∈ all, before.offset < t.offset ∧ before.endLine = line) line
      tokens := by
  induction tokens generalizing line with
  | nil => trivial
  | cons t tokens ih =>
    obtain ⟨hFirst, hRest⟩ := List.pairwise_cons.1 hOrder
    refine ⟨hLine t (by simp), ih (fun u hu => hAll u (by simp [hu])) hRest fun u hu => ?_⟩
    exact .inr ⟨t, hAll t (by simp), hFirst u hu, rfl⟩

theorem Scan.succeeds (hNone : (Scan.ofText text).comments = []) :
    Tracked (Token.Succeeds (Scan.ofText text).tokens) 0 (Scan.ofText text).tokens := by
  have hOrder : (Scan.ofText text).tokens.Pairwise fun a b => a.offset < b.offset :=
    scanned_ofText.tokens_ordered.imp And.right
  have hReached := Tracked.reached (fun _ h => h) hOrder (fun _ _ => .inl rfl)
  refine ((scanned_ofText.follows hNone (blankSince_ofText text)).and hReached).imp fun t ht line h => ?_
  exact ⟨h.1.after, (scanned_ofText.spelling t ht).endLine_eq, h.2⟩

/-- A node that starts its line gets the mark of the line before it, unless that is part of a string. -/
theorem told_of_noted {t marked : Traits}
    (h : t.Noted (Token.Succeeds (Scan.ofText text).tokens) (emptyLines text).contains line marked) :
    Told text t.span marked.afterBlank := by
  have hBlank : (emptyLines text).contains (t.span.startLine - 1) = true ↔
      IsBlankLine text.toList (t.span.startLine - 1) := by
    rw [List.contains_iff_mem, mem_emptyLines_iff]
  refine ⟨fun hMark => hBlank.1 (h.sound hMark), fun hLeads hLine hString => ?_⟩
  rw [h.blank ?_, hBlank.2 hLine]
  obtain ⟨first, hFirst, hStart, hOffset⟩ := h.first
  obtain ⟨above, hAbove, -⟩ := hLine
  rcases hFirst.reached with rfl | ⟨before, hBefore, hEarlier, rfl⟩
  · omega
  · -- A token that ends on the line must have started earlier, so the line before is part of it.
    have hOther := hLeads before hBefore (hOffset ▸ hEarlier)
    have hAfter := hFirst.after
    have hLines := before.line_le_endLine
    by_contra hReaches
    refine hString ⟨before, hBefore, ?_, by omega, by omega⟩
    by_contra hKind
    have := (scanned_ofText.spelling before hBefore).endLine_eq hKind
    omega

theorem survey_bySpans (text : String) :
    Survey (Token.Succeeds (Scan.ofText text).tokens) (emptyLines text).contains bySpans byKept (sourced text) := by
  have hTold : ∀ {line : Int} {t marked : Traits}, t.keepsBlank = true →
      t.Noted (Token.Succeeds (Scan.ofText text).tokens) (emptyLines text).contains line marked →
      Told text t.span (marked.afterBlank && marked.keepsBlank) := by
    intro line t marked hKeeps h
    have hKept : marked.keepsBlank = true := by rw [h.same, hKeeps]
    rw [hKept, Bool.and_true]
    exact told_of_noted h
  refine ⟨Token.Succeeds.after, Token.Succeeds.single, ⟨fun h => (by cases h), ?_⟩, ⟨fun h => (by cases h), ?_⟩⟩
  · exact fun _ _ previous _ t _ _ _ hKeeps h _ => ⟨(previous.span, t.span), rfl, _, rfl, hTold hKeeps h⟩
  · refine fun _ _ previous _ t _ _ _ hKeeps h _ => ⟨(previous.span, t.span), rfl, fun kept hKept => ?_⟩
    exact Option.some.inj hKept ▸ hTold hKeeps h

/-! ### Blank lines after class expressions -/

section

variable {α β γ μ : Type} {traits : α → Traits} {isGuard : α → Bool} {change : (Traits → Traits) → α → α}
  {f : α → γ} {S : β → γ → Prop} {guards : β → Bool} {R : Standing → μ → Option Bool → Prop}
  (hGuard : ∀ x y, S x (f y) → guards x = isGuard y) (hChange : ∀ alter y, f (change alter y) = f y)
  (hSheltered : ∀ m n, R .sheltered m n)
include hGuard hChange hSheltered

variable {entries : List (Entry α)} {xs : List (μ × β)}

theorem rows_settled_after {afterGuard settles : Bool} (hSettles : settles = true → afterGuard = true)
    {previous : Traits}
    (h : Rows R guards S (some afterGuard) xs (byKept.after traits f previous (entries.filterMap Entry.item?)))
    (other : Traits) :
    Rows R guards S (some afterGuard) xs (byKept.after traits f other
      ((settleAfterGuards isGuard change settles entries).filterMap Entry.item?)) := by
  induction entries generalizing xs afterGuard settles previous other with
  | nil => exact h
  | cons entry entries ih =>
    cases entry with
    | comment c => exact ih (by simp) h other
    | item y =>
      rw [settleAfterGuards]
      cases h with
      | @cons _ m _ x _ xs _ hMark hItem hRest =>
        have hSame := hGuard x y hItem
        have hMore : ∀ other, Rows R guards S (some (guards x)) xs (byKept.after traits f other
            ((settleAfterGuards isGuard change (isGuard y) entries).filterMap Entry.item?)) :=
          ih (fun h => hSame.trans h) hRest
        by_cases hChanged : (settles && !isGuard y) = true
        · obtain ⟨hFlag, hOther⟩ := Bool.and_eq_true_iff.1 hChanged
          rw [if_pos hChanged]
          refine .cons ?_ ((hChange _ y).symm ▸ hItem) (hMore _)
          obtain rfl := hSettles hFlag
          have hPlain : guards x = false := by simpa [hSame] using hOther
          rw [hPlain]
          exact hSheltered _ _
        · rw [if_neg hChanged]
          exact .cons hMark hItem (hMore _)

theorem rows_settled (h : Rows R guards S none xs (byKept.along traits f (entries.filterMap Entry.item?))) :
    Rows R guards S none xs (byKept.along traits f
      ((settleAfterGuards isGuard change false entries).filterMap Entry.item?)) := by
  induction entries with
  | nil => exact h
  | cons entry entries ih =>
    cases entry with
    | comment c => exact ih h
    | item y =>
      cases h with
      | @cons _ m _ x _ xs _ hMark hItem hRest =>
        have hSame := hGuard x y hItem
        refine .cons hMark hItem (rows_settled_after hGuard hChange hSheltered ?_ hRest _)
        exact fun h => hSame.trans h

end

section

variable {μ : Type} {bond : Bond μ (Option Bool)} (hSheltered : ∀ m n, bond.statement .sheltered m n)
include hSheltered

theorem PromiseType.matches_settle {d : Abstract.PromiseType μ} {p : PromiseType}
    (h : d.Matches bond (p.meaning byKept)) : d.Matches bond (p.settle.meaning byKept) := by
  refine ⟨h.name, rows_settled (fun x c hSame => ?_) (fun alter c => by cases c <;> rfl) hSheltered h.clauses⟩
  cases c <;> cases hSame <;> rfl

theorem Contents.matches_settled {d : Abstract.Contents μ} {c : Contents} (h : d.Matches bond (c.meaning byKept)) :
    d.Matches bond ((c.tidy ⟨false, false⟩).meaning byKept) := by
  cases c with
  | bundle statements =>
    cases h with
    | bundle h =>
      refine .bundle ?_
      change List.Forall₂ _ _ ((statements.mapItems PromiseType.settle).items.map (PromiseType.meaning byKept))
      rw [ItemList.items_mapItems, List.map_map]
      exact List.forall₂_map_right_iff.2 ((List.forall₂_map_right_iff.1 h).imp fun _ _ h =>
        PromiseType.matches_settle hSheltered h)
  | body selections =>
    cases h with
    | body h =>
      refine .body (rows_settled (fun x c hSame => ?_) (fun alter c => by cases c <;> rfl) hSheltered h)
      cases c <;> cases hSame <;> rfl

theorem Specification.matches_settled {d : Document μ} {s : Specification} (h : d.Matches bond (s.meaning byKept)) :
    d.Matches bond ((s.tidy ⟨false, false⟩).meaning byKept) := by
  rw [Specification.meaning, Specification.tidy, ItemList.items_mapItems, List.map_map]
  exact List.forall₂_map_right_iff.2 ((List.forall₂_map_right_iff.1 h).imp fun _ _ h =>
    ⟨h.type, h.name, h.parameters, Contents.matches_settled hSheltered h.contents⟩)

end

/-! ### The text that is laid out -/

/-- The mark of an entry is told by the line before it, if it starts on a line after the entry before. -/
def shownAt (text : String) : Bond (Option Bool) (Option (Span × Span)) where
  statement standing mark place := standing = .later → ∃ p ∈ place, mark =
    if p.2.startLine ≤ p.1.endLine then none else some ((emptyLines text).contains (p.2.startLine - 1))
  element standing mark place := standing = .later → ∃ p ∈ place, mark =
    if p.2.startLine ≤ p.1.endLine then none else some ((emptyLines text).contains (p.2.startLine - 1))

theorem survey_shownAt (text : String) :
    Survey (fun line t => t.Stands (emptyLines text).contains line ∧ (emptyLines text).contains line = false)
      (emptyLines text).contains byLines bySpans (shownAt text) := by
  have hMark : ∀ {line : Int} {previous t marked : Traits}, line = previous.span.endLine →
      t.Noted (fun line t => t.Stands (emptyLines text).contains line ∧ (emptyLines text).contains line = false)
        (emptyLines text).contains line marked →
      byLines.next previous t = if t.span.startLine ≤ previous.span.endLine then none
        else some ((emptyLines text).contains (t.span.startLine - 1)) := by
    rintro _ previous t marked rfl h
    simp only [byLines]
    split
    · rfl
    · have hLess : previous.span.endLine < t.span.startLine := by omega
      obtain ⟨first, hFirst, -⟩ := h.first
      rw [← h.afterBlank_eq (fun _ h => h.1.toFollows) hFirst.2 hLess, h.blank hLess]
  refine ⟨fun h => h.1.after, fun h => h.1.single, ⟨fun h => (by cases h), ?_⟩, ⟨fun h => (by cases h), ?_⟩⟩
  · intro _ line previous before t marked hSpan hLine _ h _
    exact ⟨(previous.span, t.span), by simp [bySpans, hSpan, h.span], hMark (hLine signsTrail_stands) h⟩
  · intro _ line previous before t marked hSpan hLine _ h _
    exact ⟨(previous.span, t.span), by simp [bySpans, hSpan, h.span], hMark (hLine signsTrail_stands) h⟩

end PolicyFormat.Policy

namespace PolicyFormat

open Policy Layout Abstract

/-! ### Blank lines that are kept -/

/-- A blank line stands before what was laid out only if one stood before it in the text. It does if it stood
before what was the first on its line, and not within a string. -/
structure BlankKept (text output : String) (old new : Span) : Prop where
  sound : IsBlankLine output.toList (new.startLine - 1) → IsBlankLine text.toList (old.startLine - 1)
  complete : LeadsLine text old → IsBlankLine text.toList (old.startLine - 1) →
    ¬ WithinString text (old.startLine - 1) → IsBlankLine output.toList (new.startLine - 1)

/-- The old and the new place are related for each entry but the first of a list and what directly follows a
class expression without being one. Each statement has a line of its own, and an element counts if it has one. -/
def placesKept (K : Span → Span → Prop) : Bond (Option (Span × Span)) (Option (Span × Span)) where
  statement standing old new := standing = .later → ∃ o ∈ old, ∃ n ∈ new, n.1.endLine < n.2.startLine ∧ K o.2 n.2
  element standing old new := standing = .later → ∃ o ∈ old, ∃ n ∈ new, n.1.endLine < n.2.startLine → K o.2 n.2

theorem blankKept_of_told {text output : String} {old new : Span} {mark : Bool} (h : Told text old mark)
    (hMark : mark = (emptyLines output).contains (new.startLine - 1)) : BlankKept text output old new := by
  have hBlank : mark = true ↔ IsBlankLine output.toList (new.startLine - 1) := by
    rw [hMark, List.contains_iff_mem, mem_emptyLines_iff]
  exact ⟨fun hNew => h.sound (hBlank.2 hNew), fun hLeads hOld hString => hBlank.1 (h.blank hLeads hOld hString)⟩

theorem sourced_laidOut (text : String) : (sourced text).Composes laidOut (sourced text) := by
  refine ⟨fun _ _ _ _ h h' hLater => ?_, fun _ _ _ _ h h' hLater => ?_⟩
  · rw [h' hLater]
    exact h hLater
  · obtain ⟨p, hp, hTold⟩ := h hLater
    refine ⟨p, hp, fun kept hKept => ?_⟩
    rcases h' hLater with hNone | hSame
    · cases hNone.symm.trans hKept
    · exact hTold kept (hSame.symm.trans hKept)

theorem sourced_shownAt (text output : String) :
    (sourced text).Composes (shownAt output) (placesKept (BlankKept text output)) := by
  refine ⟨fun _ _ _ _ h h' hLater => ?_, fun _ _ _ _ h h' hLater => ?_⟩
  · obtain ⟨o, ho, kept, rfl, hTold⟩ := h hLater
    obtain ⟨n, hn, hMark⟩ := h' hLater
    split at hMark
    · cases hMark
    · exact ⟨o, ho, n, hn, by omega, blankKept_of_told hTold (Option.some.inj hMark)⟩
  · obtain ⟨o, ho, hTold⟩ := h hLater
    obtain ⟨n, hn, rfl⟩ := h' hLater
    refine ⟨o, ho, n, hn, fun hLine => ?_⟩
    exact blankKept_of_told (hTold _ (if_neg (by omega))) rfl

/-- Beautifying a text without comments keeps the blank lines between its statements and between the elements
of the lists that are laid out line by line, and puts in no others. -/
theorem beautify_keeps_blank_lines {options : Options} {text output : String}
    (hNone : (Scan.ofText text).comments = [])
    (hEnding : ∀ ending ∈ options.lineEnding, ending = "" ∨ ending = "\n" ∨ ending = "\r\n")
    (h : beautify options text = .ok output) :
    ∃ parsed again, (Scan.ofText text).parse = .ok parsed ∧ (Scan.ofText output).parse = .ok again ∧
      ((parsed.meaning bySpans).normal options.tidying).Matches (placesKept (BlankKept text output))
        (again.meaning bySpans) := by
  obtain ⟨parsed, lines, y, ink, again, hParsed, rfl, -, -, -, -, -, hEcho⟩ := beautify_echo hNone hEnding h
  refine ⟨parsed, again, hParsed, hEcho.parsed, ?_⟩
  obtain ⟨line, offset, -, hDerived⟩ := Scan.parse_eq_ok.1 hParsed
  obtain ⟨last, place, -, hAgain⟩ := Scan.parse_eq_ok.1 hEcho.parsed
  -- The marks of the text that is read, as they are kept in its final form.
  have hMarked := hDerived.matches_markBlankLines (survey_bySpans text) (Scan.succeeds hNone)
  have hSettled := Specification.matches_settled (fun _ _ h => by cases h) hMarked
  have hKept := (hSettled.tidy options.tidying).bare
  rw [← Specification.meaning_tidied (fun _ => id) byKept options.tidying
    ((Specification.formed_markBlankLines _ _).2 (Specification.formed_of_parse hParsed))] at hKept
  -- They are laid out, and told by the lines of the text that is laid out.
  have hShown := hEcho.alike.matches hEcho.formed
    (Specification.formed_tidied hParsed (emptyLines text).contains options.tidying)
  rw [← hEcho.told] at hShown
  have hSeen := hAgain.matches_markBlankLines (survey_shownAt _)
    (hEcho.stands.and_inked (not_mem_emptyLines_zero _))
  rw [Specification.meaning_markBlankLines _ _ fun _ _ => rfl] at hSeen
  exact (hKept.trans (sourced_laidOut text) hShown).trans (sourced_shownAt text _) hSeen

theorem crowdedPolicy_keeps_blank_lines :
    (Scan.ofText crowdedPolicy).comments = [] ∧
      ∃ output parsed again, beautify { pageWidth := 20, tidying := ⟨true, true⟩ } crowdedPolicy = .ok output ∧
        (Scan.ofText crowdedPolicy).parse = .ok parsed ∧ (Scan.ofText output).parse = .ok again ∧
        ((parsed.meaning bySpans).normal ⟨true, true⟩).Matches (placesKept (BlankKept crowdedPolicy output))
          (again.meaning bySpans) := by
  have hNone : (Scan.ofText crowdedPolicy).comments = [] := by decide +kernel
  have hOk : (Scan.ofText crowdedPolicy).parse.isOk = true := by decide +kernel
  obtain ⟨parsed, h⟩ := exists_of_isOk hOk
  obtain ⟨output, hOutput⟩ := beautify_eq_ok_of_parse h { pageWidth := 20, tidying := ⟨true, true⟩ }
  obtain ⟨parsed', again, hParsed, hAgain, hMatches⟩ := beautify_keeps_blank_lines hNone (by simp) hOutput
  exact ⟨hNone, output, parsed', again, hOutput, hParsed, hAgain, hMatches⟩

/-- A body with a string that ends after a blank line, and an attribute behind it. -/
def stringEnd : String :=
  "body a b\x7bc=>\"d\n\n\";e=>\"f\";\x7d"

/-- The blank line in the string counts as one before the attribute. -/
theorem stringEnd_gains_blank_line :
    (Scan.ofText stringEnd).comments = [] ∧ ∃ output parsed again, beautify {} stringEnd = .ok output ∧
      (Scan.ofText stringEnd).parse = .ok parsed ∧ (Scan.ofText output).parse = .ok again ∧
      ¬ ((parsed.meaning bySpans).normal ({} : Options).tidying).Matches
        (placesKept fun old new => IsBlankLine output.toList (new.startLine - 1) →
          ¬ WithinString stringEnd (old.startLine - 1)) (again.meaning bySpans) := by
  have hLines : beautifiedLines {} stringEnd = .ok [⟨"body a b \x7b", some 0, []⟩,
      ⟨"c => \"d\n\n\";", some 4, []⟩, ⟨"", some 4, []⟩, ⟨"e => \"f\";", some 4, []⟩, ⟨"\x7d", some 0, []⟩,
      ⟨"", some 0, []⟩] := by
    decide +kernel
  have hEnding : lineEndingFor stringEnd ({} : Options).lineEnding = "\n" := by decide +kernel
  have hOutput : beautify {} stringEnd =
      .ok "body a b \x7b\n    c => \"d\n\n\";\n\n    e => \"f\";\n\x7d\n" := by
    refine beautify_eq_ok_iff.2 ⟨_, hLines, ?_⟩
    rw [hEnding]
    simp [renderLines, Line.render, List.replicate, String.intercalate_cons_cons]
  have hOld : (Scan.ofText stringEnd).parse.toOption.map (Specification.meaning bySpans) =
      some [⟨"a", "b", [], .body [(none, .assignment ⟨"c", .single (.word "\"d\n\n\"")⟩),
        (some (⟨1, 3, 9, 17⟩, ⟨3, 3, 18, 24⟩), .assignment ⟨"e", .single (.word "\"f\"")⟩)]⟩] := by
    decide +kernel
  have hNew : (Scan.ofText "body a b \x7b\n    c => \"d\n\n\";\n\n    e => \"f\";\n\x7d\n").parse.toOption.map
        (Specification.meaning bySpans) =
      some [⟨"a", "b", [], .body [(none, .assignment ⟨"c", .single (.word "\"d\n\n\"")⟩),
        (some (⟨2, 4, 15, 25⟩, ⟨6, 6, 32, 40⟩), .assignment ⟨"e", .single (.word "\"f\"")⟩)]⟩] := by
    decide +kernel
  obtain ⟨parsed, hParsed, hOld⟩ := exists_of_toOption hOld
  obtain ⟨again, hAgain, hNew⟩ := exists_of_toOption hNew
  refine ⟨by decide +kernel, _, parsed, again, hOutput, hParsed, hAgain, fun h => ?_⟩
  rw [hOld, hNew] at h
  cases h with
  | cons hBlock _ =>
    cases hBlock.contents with
    | body hRows =>
      cases hRows with
      | cons _ _ hRest =>
        cases hRest with
        | cons hMark _ _ =>
          obtain ⟨_, ⟨⟩, _, ⟨⟩, -, hKept⟩ := hMark rfl
          exact hKept (mem_emptyLines_iff.1 (by decide +kernel)) (by decide +kernel)

end PolicyFormat
