import PolicyFormat.Proofs.Parsing
import PolicyFormat.Proofs.TreePlacing

/-! The comments of a text find their places in its tree: each has exactly one, none is left over, and
the tree is as it should be to be laid out. -/
namespace PolicyFormat.Policy

/-! ### The comments of a text -/

/-- What is known of each comment of a text. -/
structure Comment.Found (text : String) (c : Comment) : Prop where
  legible : c.Legible
  apart : c.Apart (Scan.ofText text).tokens

theorem Comment.steady_found (text : String) : Steady (Comment.Found text) := by
  rintro c d hSame ⟨⟨hLines, hNotes⟩, hOrdered, hApart⟩
  simp only [Comment.unplaced, Comment.mk.injEq] at hSame
  obtain ⟨hEqSpan, hEqLines, -⟩ := hSame
  rw [hEqLines] at hLines hNotes
  rw [hEqSpan] at hOrdered hApart
  exact ⟨⟨hLines, hNotes⟩, hOrdered, hApart⟩

section

variable (text : String)

theorem grouped_groupsOf :
    Grouped text.toList (Comment.concluded (emptyLines text).contains (Scan.ofText text).lastLine)
      (Scan.ofText text).comments (groupsOf text) :=
  grouped_group _ _ _ _

/-- The comments of a text are its groups, apart from marks. -/
theorem mem_groupsOf {c : Comment} (hc : c ∈ commentsOf text) :
    ∃ d ∈ groupsOf text, d.span = c.span ∧ d.lines = c.lines ∧ d.keepsBlank = c.keepsBlank := by
  have hMap := Comment.map_markAll (fun c => (c.span, c.lines, c.keepsBlank)) (fun _ _ => rfl)
    (emptyLines text).contains (groupsOf text)
  have hMem := List.mem_map_of_mem (f := fun c => (c.span, c.lines, c.keepsBlank)) hc
  rw [commentsOf, hMap] at hMem
  simpa using hMem

theorem found_of_mem_commentsOf {c : Comment} (hc : c ∈ commentsOf text) : c.Found text ∧ c.keepsBlank = false := by
  obtain ⟨d, hd, hSpan, hLines, hKeeps⟩ := mem_groupsOf text hc
  have hGrouped := grouped_groupsOf text
  have hLegible := hGrouped.legible scanned_ofText.isNote d hd
  obtain ⟨hOrdered, hApart⟩ := hGrouped.apart (Scan.detached text) d hd
  rw [hSpan] at hOrdered hApart
  rw [Comment.Legible, hLines] at hLegible
  exact ⟨⟨hLegible, hOrdered, hApart⟩, hKeeps.symm.trans (hGrouped.keepsBlank_eq d hd)⟩

/-- The comments of a text follow each other in it. -/
theorem commentsOf_ordered :
    (commentsOf text).Pairwise (fun c d => c.span.endLine < d.span.startLine ∧ c.span.start < d.span.start) := by
  have hOrdered := ((grouped_groupsOf text).ordered scanned_ofText.comments_ordered).1
  have hSpans : (commentsOf text).map (·.span) = (groupsOf text).map (·.span) :=
    Comment.map_markAll _ (fun _ _ => rfl) _ _
  have hPairwise : ((groupsOf text).map (·.span)).Pairwise
      (fun a b => a.endLine < b.startLine ∧ a.start < b.start) := List.pairwise_map.2 hOrdered
  rw [← hSpans] at hPairwise
  exact List.pairwise_map.1 hPairwise

theorem fair_commentsOf : Fair (Comment.Found text) (commentsOf text) := by
  refine ⟨fun c hc => found_of_mem_commentsOf text hc, ?_⟩
  refine (commentsOf_ordered text).imp_of_mem fun {c d} hc hd hBefore => ?_
  have hSpan := (found_of_mem_commentsOf text hd).1.apart.ordered
  omega

/-- The comments of a text are all different. -/
theorem nodup_commentsOf : ((commentsOf text).map Comment.unplaced).Nodup := by
  refine List.pairwise_map.2 ((commentsOf_ordered text).imp fun {c d} hBefore hSame => ?_)
  have hSpan : c.unplaced.span.start = d.unplaced.span.start := by rw [hSame]
  exact absurd hSpan (Int.ne_of_lt hBefore.2)

theorem Scan.setting : Setting (Comment.Found text) (Scan.ofText text).tokens :=
  ⟨scanned_ofText.spelling, scanned_ofText.tokens_ordered.imp And.left, fun _ h => h.apart, Comment.steady_found text⟩

/-- A tree that is read from a text holds the comments of the text as it should. -/
theorem Specification.placed_commentsOf {parsed : Specification} (h : (Scan.ofText text).parse = .ok parsed) :
    Placed (Specification.Formed (Comment.Found text)) Specification.comments (commentsOf text)
      (parsed.receive (commentsOf text)) ∧
      (parsed.receive (commentsOf text)).2 = [] := by
  obtain ⟨line, offset, -, hDerived⟩ := Scan.parse_eq_ok.1 h
  exact ⟨Specification.placed (Scan.setting text) hDerived (fair_commentsOf text), hDerived.handed_nil _⟩

/-- A tree holds its comments as it should, whatever else is known of all comments of the text. -/
theorem Specification.formed_received {P : Comment → Prop} (hSteady : Steady P) (hFound : ∀ c, P c → c.Found text)
    (hAll : ∀ c ∈ commentsOf text, P c) {parsed : Specification} (h : (Scan.ofText text).parse = .ok parsed) :
    Specification.Formed P (parsed.receive (commentsOf text)).1 := by
  obtain ⟨line, offset, -, hDerived⟩ := Scan.parse_eq_ok.1 h
  have hSetting : Setting P (Scan.ofText text).tokens :=
    ⟨scanned_ofText.spelling, scanned_ofText.tokens_ordered.imp And.left, fun c hc => (hFound c hc).apart, hSteady⟩
  have hFair : Fair P (commentsOf text) :=
    ⟨fun c hc => ⟨hAll c hc, (found_of_mem_commentsOf text hc).2⟩, (fair_commentsOf text).ordered⟩
  exact (Specification.placed hSetting hDerived hFair).formed

/-- No block of a text passes comments on. -/
theorem Block.handed_nil_of_parse {parsed : Specification} (h : (Scan.ofText text).parse = .ok parsed) :
    ∀ b ∈ ItemList.items parsed, ∀ given, (b.receive given).2 = [] := by
  intro b hb given
  obtain ⟨line, offset, -, hDerived⟩ := Scan.parse_eq_ok.1 h
  cases hDerived with
  | mk hBlocks =>
    obtain ⟨-, own, hBlock, -⟩ := hBlocks.mem (by simpa using hb)
    exact hBlock.handed_nil given

/-- Every comment of a text has exactly one place in its tree, and the tree holds nothing else. No
block hands a comment on. -/
theorem every_comment_has_one_place {parsed : Specification} (h : (Scan.ofText text).parse = .ok parsed) :
    ((commentsOf text).map Comment.unplaced).Nodup ∧
      ((parsed.receive (commentsOf text)).1.comments.map Comment.unplaced).Perm
        ((commentsOf text).map Comment.unplaced) ∧
      (parsed.receive (commentsOf text)).2 = [] ∧
      ∀ b ∈ ItemList.items parsed, ∀ given, (b.receive given).2 = [] := by
  obtain ⟨hPlaced, hNone⟩ := Specification.placed_commentsOf text h
  have hPassed := hPlaced.passed
  rw [hNone, Passed, census_nil, add_zero] at hPassed
  exact ⟨nodup_commentsOf text, Multiset.coe_eq_coe.1 hPassed, hNone, Block.handed_nil_of_parse text h⟩

end

/-- A bundle with comments in its list of parameters, at the ends of lines, before an attribute and
before the closing brace. -/
def commentedBundle : String :=
  "bundle agent a( # one\n)\n\x7b\nvars: \"v\" # two\n# three\nint => \"1\"; # four\n# five\n\x7d"

theorem commentedBundle_has_five_places :
    ∃ parsed, (Scan.ofText commentedBundle).parse = .ok parsed ∧ (Scan.ofText commentedBundle).comments.length = 5 ∧
      ((parsed.receive (commentsOf commentedBundle)).1.comments.map Comment.unplaced).Perm
        ((commentsOf commentedBundle).map Comment.unplaced) := by
  have hOk : (Scan.ofText commentedBundle).parse.isOk = true := by decide +kernel
  obtain ⟨parsed, h⟩ := exists_of_isOk hOk
  exact ⟨parsed, h, by decide +kernel, (every_comment_has_one_place commentedBundle h).2.1⟩

end PolicyFormat.Policy
