import PolicyFormat.Policy.Outline
import PolicyFormat.Proofs.Homes
import PolicyFormat.Proofs.Marking
import PolicyFormat.Proofs.Tidied

/-! What the nodes of a tree are and where they stand. Comments and blank lines leave all nodes at their places,
and a tree in its final form has no node that was not read. -/
namespace PolicyFormat.Policy

/-- A node with its kind, its place and its parts, or a word at its place. -/
inductive Contour where
  | leaf (span : Span) (text : String)
  | node (kind : NodeKind) (span : Span) (parts : List Contour)

mutual

/-- The contour of an outline. A comment has none. -/
def Outline.contours : Outline → List Contour
  | .comment _ => []
  | .leaf l => [.leaf l.traits.span l.text]
  | .node kind traits parts => [.node kind traits.span (Outline.contoursOf parts)]

/-- The contours of the parts of a node. -/
def Outline.contoursOf : List Outline → List Contour
  | [] => []
  | o :: rest => o.contours ++ Outline.contoursOf rest

end

theorem Outline.contoursOf_eq (parts : List Outline) : Outline.contoursOf parts = parts.flatMap Outline.contours := by
  induction parts with
  | nil => simp [Outline.contoursOf]
  | cons o rest ih => simp [Outline.contoursOf, ih]

@[simp] theorem Outline.contours_comment (c : Comment) : (Outline.comment c).contours = [] := by
  simp [Outline.contours]

@[simp] theorem Outline.contours_leaf (l : Leaf) : (Outline.leaf l).contours = [.leaf l.traits.span l.text] := by
  simp [Outline.contours]

@[simp] theorem Outline.contours_node (kind : NodeKind) (traits : Traits) (parts : List Outline) :
    (Outline.node kind traits parts).contours = [.node kind traits.span (parts.flatMap Outline.contours)] := by
  simp [Outline.contours, Outline.contoursOf_eq]

/-! ### The constructs of a policy -/

theorem ItemList.contours_outline {α : Type} (kind : NodeKind) (item : α → Outline) (g : ItemList α) :
    (g.outline kind item).contours =
      [.node kind g.traits.span ((optionalOutline g.opening).flatMap Outline.contours ++
        g.items.flatMap (fun x => (item x).contours) ++
        (optionalOutline g.closing).flatMap Outline.contours)] := by
  obtain ⟨traits, opening, entries, closing⟩ := g
  simp only [ItemList.outline, ItemList.items, Outline.contours_node, List.flatMap_append]
  congr 4
  induction entries with
  | nil => rfl
  | cons entry rest ih => cases entry <;> simp [List.filterMap_cons, Entry.item?, ih]

@[simp] theorem Element.outline_leaf (word : Leaf) : (Element.leaf word).outline = .leaf word := by
  simp [Element.outline]

@[simp] theorem Element.outline_call (traits : Traits) (name : Leaf) (arguments : ItemList Element) :
    (Element.call traits name arguments).outline =
      .node .call traits [.leaf name, arguments.outline .arguments Element.outline] := by
  obtain ⟨argTraits, opening, entries, closing⟩ := arguments
  simp only [Element.outline, ItemList.outline]
  congr 6
  induction entries with
  | nil => simp [Element.outlines]
  | cons entry rest ih => cases entry <;> simp [Element.outlines, ih]

/-! ### Comments -/

theorem Leaf.text_receive (l : Leaf) (cs : List Comment) : (l.receive cs).1.text = l.text := by
  unfold Leaf.receive
  split <;> rfl

section

variable {α β : Type} {give : α → List Comment → α × List Comment} {f : α → β}

theorem map_items_receiveEach {entries : List (Entry α)} (h : ∀ x, .item x ∈ entries → ∀ cs, f (give x cs).1 = f x)
    (shares : List (List Comment × List Comment)) :
    ((ItemList.receiveEach give entries shares).1.filterMap Entry.item?).map f =
      (entries.filterMap Entry.item?).map f := by
  fun_induction ItemList.receiveEach give entries shares with
  | case1 value rest before given shares value' handed hGive entries more hRest ih =>
    have hValue : f value' = f value := by rw [← h value (by simp) given, hGive]
    have hMore := ih fun x hx => h x (List.mem_cons_of_mem _ hx)
    rw [hRest] at hMore
    rw [List.filterMap_append, items_comments]
    simp [Entry.item?, hValue, hMore]
  | case2 c rest shares entries more hRest ih =>
    have hMore := ih fun x hx => h x (List.mem_cons_of_mem _ hx)
    rw [hRest] at hMore
    simpa [List.filterMap_cons, Entry.item?] using hMore
  | case3 entries shares => rfl

theorem map_items_receive {g : ItemList α} (h : ∀ x ∈ g.items, ∀ cs, f (give x cs).1 = f x) (rule : ListRule)
    (span : α → Span) (cs : List Comment) :
    (g.receive rule span give cs).1.items.map f = g.items.map f := by
  have hEach := map_items_receiveEach (fun x hx => h x (ItemList.mem_items.2 hx)) (g.plan rule span cs).shares
  simp only [ItemList.items] at hEach ⊢
  rw [← hEach]
  simp only [ItemList.receive, ItemList.complete, List.filterMap_append, items_comments, List.append_nil]

end

@[simp] theorem Leaf.span_receive (l : Leaf) (cs : List Comment) : (l.receive cs).1.traits.span = l.traits.span := by
  unfold Leaf.receive
  split <;> rfl

theorem contours_receiveOptional (leaf : Option Leaf) (cs : List Comment) :
    (optionalOutline (receiveOptional leaf cs).1).flatMap Outline.contours =
      (optionalOutline leaf).flatMap Outline.contours := by
  cases leaf <;> simp [optionalOutline, receiveOptional, Leaf.text_receive]

section

variable {α : Type} {give : α → List Comment → α × List Comment} {item : α → Outline}

theorem ItemList.contours_receive {g : ItemList α}
    (h : ∀ x ∈ g.items, ∀ cs, (item (give x cs).1).contours = (item x).contours) (kind : NodeKind)
    (rule : ListRule) (span : α → Span) (cs : List Comment) :
    ((g.receive rule span give cs).1.outline kind item).contours = (g.outline kind item).contours := by
  have hItems := congrArg List.flatten (map_items_receive (f := fun x => (item x).contours) h rule span cs)
  simp only [← List.flatMap_def] at hItems
  rw [ItemList.contours_outline, ItemList.contours_outline, hItems]
  simp [ItemList.receive, ItemList.complete, contours_receiveOptional]

end

theorem Element.contours_receive (e : Element) (cs : List Comment) :
    (e.receive cs).1.outline.contours = e.outline.contours := by
  induction e using Element.induction generalizing cs with
  | leaf word => simp [Element.receive, Leaf.text_receive]
  | call traits name arguments ih =>
    rw [Element.receive_call]
    simp [Leaf.text_receive, ItemList.contours_receive ih]

theorem Value.contours_receive (x : Value) (cs : List Comment) :
    (x.receive cs).1.outline.contours = x.outline.contours := by
  cases x with
  | single element => simp [Value.receive, Value.outline, Element.contours_receive]
  | list elements =>
    simp [Value.receive, Value.outline, ItemList.contours_receive fun x _ => Element.contours_receive x]

theorem Assignment.contours_receive (kind : NodeKind) (a : Assignment) (cs : List Comment) :
    ((a.receive cs).1.outline kind).contours = (a.outline kind).contours := by
  simp [Assignment.receive, Assignment.outline, Leaf.text_receive, Value.contours_receive, contours_receiveOptional]

theorem Guard.contours_receive (g : Guard) (cs : List Comment) :
    (g.receive cs).1.outline.contours = g.outline.contours := by
  simp [Guard.receive, Guard.outline, Leaf.text_receive]

theorem Promise.contours_receive (p : Promise) (cs : List Comment) :
    (p.receive cs).1.outline.contours = p.outline.contours := by
  obtain ⟨traits, promiser, promisee, comma, constraints, semicolon⟩ := p
  cases promisee <;>
    simp [Promise.receive, Promise.outline, Leaf.text_receive, Value.contours_receive, contours_receiveOptional,
      ItemList.contours_receive fun x _ => Assignment.contours_receive .constraint x]

theorem Clause.contours_receive (c : Clause) (cs : List Comment) :
    (c.receive cs).1.outline.contours = c.outline.contours := by
  cases c with
  | guard g => exact g.contours_receive cs
  | promise p => exact p.contours_receive cs

theorem PromiseType.contours_receive (p : PromiseType) (cs : List Comment) :
    (p.receive cs).1.outline.contours = p.outline.contours := by
  simp [PromiseType.receive, PromiseType.outline, Leaf.text_receive,
    ItemList.contours_receive fun x _ => Clause.contours_receive x]

theorem Selection.contours_receive (s : Selection) (cs : List Comment) :
    (s.receive cs).1.outline.contours = s.outline.contours := by
  cases s with
  | guard g => exact g.contours_receive cs
  | assignment a => exact a.contours_receive .selection cs

theorem Contents.contours_receive (c : Contents) (cs : List Comment) :
    (c.receive cs).1.outline.contours = c.outline.contours := by
  cases c with
  | bundle statements => exact ItemList.contours_receive (fun x _ => PromiseType.contours_receive x) _ _ _ cs
  | body selections => exact ItemList.contours_receive (fun x _ => Selection.contours_receive x) _ _ _ cs

theorem Block.contours_receive (b : Block) (cs : List Comment) :
    (b.receive cs).1.outline.contours = b.outline.contours := by
  obtain ⟨traits, keyword, type, name, parameters, contents⟩ := b
  have hParameters (rule : ListRule) (span : Leaf → Span) (cs : List Comment) :
      ((parameters.receive rule span Leaf.receive cs).1.outline .parameters .leaf).contours =
        (parameters.outline .parameters .leaf).contours :=
    ItemList.contours_receive (fun x _ cs => by simp [Leaf.text_receive]) _ rule span cs
  have hContents := contents.contours_receive
  cases contents <;> simp_all [Block.receive, Block.outline, Contents.receive, Leaf.text_receive]

theorem Specification.contours_receive (s : Specification) (cs : List Comment) :
    (s.receive cs).1.outline.contours = s.outline.contours :=
  ItemList.contours_receive (fun b _ => Block.contours_receive b) _ _ _ cs

/-! ### Labels -/

section

variable {r : Relabel} (hSpan : ∀ t, (r.node t).span = t.span)
include hSpan

theorem contours_relabelOptional (leaf : Option Leaf) :
    (optionalOutline (leaf.map (Leaf.relabel r))).flatMap Outline.contours =
      (optionalOutline leaf).flatMap Outline.contours := by
  cases leaf <;> simp [optionalOutline, Leaf.relabel, hSpan]

theorem ItemList.contours_relabel {α : Type} {f : α → α} {item : α → Outline} {g : ItemList α}
    (h : ∀ x ∈ g.items, (item (f x)).contours = (item x).contours) (kind : NodeKind) :
    ((g.relabel r f).outline kind item).contours = (g.outline kind item).contours := by
  rw [ItemList.contours_outline, ItemList.contours_outline, ItemList.items_relabel, List.flatMap_map,
    List.flatMap_congr h]
  simp [ItemList.relabel, contours_relabelOptional hSpan, hSpan]

theorem Element.contours_relabel (e : Element) : (e.relabel r).outline.contours = e.outline.contours := by
  induction e using Element.induction with
  | leaf word => simp [Leaf.relabel, hSpan]
  | call traits name arguments ih => simp [Leaf.relabel, ItemList.contours_relabel hSpan ih, hSpan]

theorem Value.contours_relabel (x : Value) : (x.relabel r).outline.contours = x.outline.contours := by
  cases x with
  | single element => exact element.contours_relabel hSpan
  | list elements => exact ItemList.contours_relabel hSpan (fun x _ => x.contours_relabel hSpan) _

theorem Assignment.contours_relabel (kind : NodeKind) (a : Assignment) :
    ((a.relabel r).outline kind).contours = (a.outline kind).contours := by
  simp [Assignment.relabel, Assignment.outline, Leaf.relabel, Value.contours_relabel hSpan,
    contours_relabelOptional hSpan, hSpan]

theorem Guard.contours_relabel (g : Guard) : (g.relabel r).outline.contours = g.outline.contours := by
  simp [Guard.relabel, Guard.outline, Leaf.relabel, hSpan]

theorem Promise.contours_relabel (p : Promise) : (p.relabel r).outline.contours = p.outline.contours := by
  obtain ⟨traits, promiser, promisee, comma, constraints, semicolon⟩ := p
  cases promisee <;> simp [Promise.relabel, Promise.outline, Leaf.relabel, Value.contours_relabel hSpan,
      contours_relabelOptional hSpan, hSpan,
      ItemList.contours_relabel hSpan fun x _ => Assignment.contours_relabel hSpan .constraint x]

theorem Clause.contours_relabel (c : Clause) : (c.relabel r).outline.contours = c.outline.contours := by
  cases c with
  | guard g => exact g.contours_relabel hSpan
  | promise p => exact p.contours_relabel hSpan

theorem PromiseType.contours_relabel (p : PromiseType) : (p.relabel r).outline.contours = p.outline.contours := by
  simp [PromiseType.relabel, PromiseType.outline, Leaf.relabel, hSpan,
    ItemList.contours_relabel hSpan fun x _ => Clause.contours_relabel hSpan x]

theorem Selection.contours_relabel (s : Selection) : (s.relabel r).outline.contours = s.outline.contours := by
  cases s with
  | guard g => exact g.contours_relabel hSpan
  | assignment a => exact a.contours_relabel hSpan .selection

theorem Contents.contours_relabel (c : Contents) : (c.relabel r).outline.contours = c.outline.contours := by
  cases c with
  | bundle statements => exact ItemList.contours_relabel hSpan (fun x _ => x.contours_relabel hSpan) _
  | body selections => exact ItemList.contours_relabel hSpan (fun x _ => x.contours_relabel hSpan) _

theorem Block.contours_relabel (b : Block) : (b.relabel r).outline.contours = b.outline.contours := by
  obtain ⟨traits, keyword, type, name, parameters, contents⟩ := b
  have hParameters := ItemList.contours_relabel hSpan (f := Leaf.relabel r) (g := parameters)
    (fun l _ => show (Outline.leaf (l.relabel r)).contours = (Outline.leaf l).contours by simp [Leaf.relabel, hSpan])
    .parameters
  have hContents := contents.contours_relabel hSpan
  cases contents <;> simp_all [Block.relabel, Block.outline, Contents.relabel, Leaf.relabel]

theorem Specification.contours_relabel (s : Specification) : (s.relabel r).outline.contours = s.outline.contours :=
  ItemList.contours_relabel hSpan (fun b _ => b.contours_relabel hSpan) _

end

theorem Specification.contours_markBlankLines (isEmpty : Int → Bool) (s : Specification) :
    (s.markBlankLines isEmpty).outline.contours = s.outline.contours := by
  have hUnmark := Specification.contours_relabel (r := unmark) fun _ => rfl
  rw [← hUnmark, Specification.relabel_markBlankLines, hUnmark]

theorem Specification.contours_of_plain {s u : Specification} (hPlain : u.plain = s.plain) :
    u.outline.contours = s.outline.contours := by
  have hSame := Specification.contours_relabel (r := unranked) fun _ => rfl
  rw [← hSame u, ← relabel_plain, hPlain, relabel_plain, hSame]

/-! ### The final form of a tree -/

namespace Contour

mutual

/-- The same node, of which parts may be gone and others may have changed places. -/
inductive Stems : Contour → Contour → Prop where
  | leaf {span : Span} {text : String} : Stems (.leaf span text) (.leaf span text)
  | node {kind : NodeKind} {span : Span} {parts origin : List Contour} (h : StemFrom parts origin) :
      Stems (.node kind span parts) (.node kind span origin)

/-- All of the first nodes are among the others. -/
inductive StemFrom : List Contour → List Contour → Prop where
  | nil {origin : List Contour} : StemFrom [] origin
  | cons {part source : Contour} {parts origin : List Contour} (hSource : source ∈ origin)
      (h : Stems part source) (hMore : StemFrom parts origin) : StemFrom (part :: parts) origin

end

theorem StemFrom.of_forall {parts origin : List Contour}
    (h : ∀ part ∈ parts, ∃ source ∈ origin, part.Stems source) : StemFrom parts origin := by
  induction parts with
  | nil => exact .nil
  | cons part rest ih =>
    obtain ⟨⟨source, hSource, hPart⟩, hRest⟩ := List.forall_mem_cons.1 h
    exact .cons hSource hPart (ih hRest)

theorem Stems.refl : ∀ c : Contour, c.Stems c
  | .leaf _ _ => .leaf
  | .node _ _ parts => .node (.of_forall fun part h => ⟨part, h, refl part⟩)

/-- All words of a node are of the given sort. -/
inductive Says (Q : String → Prop) : Contour → Prop where
  | leaf {span : Span} {text : String} (h : Q text) : Says Q (.leaf span text)
  | node {kind : NodeKind} {span : Span} {parts : List Contour} (h : ∀ part ∈ parts, part.Says Q) :
      Says Q (.node kind span parts)

mutual

theorem Stems.said {Q : String → Prop} {c source : Contour} (h : Stems c source) (hSource : source.Says Q) : c.Says Q :=
  match h, hSource with
  | .leaf, hSource => hSource
  | .node h, .node hParts => .node (h.said hParts)

theorem StemFrom.said {Q : String → Prop} {parts origin : List Contour} (h : StemFrom parts origin)
    (hOrigin : ∀ c ∈ origin, c.Says Q) : ∀ c ∈ parts, c.Says Q :=
  match h with
  | .nil => by simp
  | .cons hSource h hMore => List.forall_mem_cons.2 ⟨h.said (hOrigin _ hSource), hMore.said hOrigin⟩

end

namespace StemFrom

variable {parts origin more others : List Contour}

theorem of_subset (h : parts ⊆ origin) : StemFrom parts origin :=
  .of_forall fun part hPart => ⟨part, h hPart, .refl part⟩

theorem forall_mem (h : StemFrom parts origin) : ∀ part ∈ parts, ∃ source ∈ origin, part.Stems source := by
  induction parts with
  | nil => simp
  | cons part rest ih =>
    cases h with
    | cons hSource h hMore => exact List.forall_mem_cons.2 ⟨⟨_, hSource, h⟩, ih hMore⟩

theorem append (h : StemFrom parts origin) (hMore : StemFrom more others) :
    StemFrom (parts ++ more) (origin ++ others) := by
  refine .of_forall fun part hPart => ?_
  rcases List.mem_append.1 hPart with hPart | hPart
  · obtain ⟨source, hSource, hStems⟩ := h.forall_mem part hPart
    exact ⟨source, List.mem_append_left _ hSource, hStems⟩
  · obtain ⟨source, hSource, hStems⟩ := hMore.forall_mem part hPart
    exact ⟨source, List.mem_append_right _ hSource, hStems⟩

theorem flatMap {α : Type} {f g : α → List Contour} {xs : List α} (h : ∀ x ∈ xs, StemFrom (f x) (g x)) :
    StemFrom (xs.flatMap f) (xs.flatMap g) := by
  induction xs with
  | nil => exact .nil
  | cons x rest ih =>
    obtain ⟨hHead, hRest⟩ := List.forall_mem_cons.1 h
    exact hHead.append (ih hRest)

end StemFrom

end Contour

open Contour

theorem Contents.stems_tidy (t : Tidying) (c : Contents) :
    StemFrom (c.tidy t).outline.contours c.outline.contours := by
  have hSame := Contents.contours_relabel (r := unkept) fun _ => rfl
  rw [← hSame c, ← relabel_settled, hSame]
  cases c with
  | bundle statements =>
    simp only [Contents.tidy, Contents.outline, ItemList.contours_outline]
    refine .cons (List.mem_singleton_self _) (.node (.of_subset fun part hPart => ?_)) .nil
    simp only [List.mem_append, List.mem_flatMap, ItemList.mem_items] at hPart ⊢
    refine hPart.imp_left (Or.imp_right ?_)
    rintro ⟨p, hp, hPart⟩
    exact ⟨p, Tidying.mem_apply hp, hPart⟩
  | body selections => exact .of_subset (List.Subset.refl _)

theorem Block.stems_tidy (t : Tidying) (b : Block) :
    StemFrom ({ b with contents := b.contents.tidy t } : Block).outline.contours b.outline.contours := by
  obtain ⟨traits, keyword, type, name, parameters, contents⟩ := b
  have hParts (front : List Outline) : StemFrom ((front ++ [(contents.tidy t).outline]).flatMap Outline.contours)
        ((front ++ [contents.outline]).flatMap Outline.contours) := by
    simpa using (StemFrom.of_subset (List.Subset.refl _)).append (contents.stems_tidy t)
  cases contents <;>
    · simp only [Block.outline, Outline.contours_node]
      exact .cons (List.mem_singleton_self _) (.node (hParts [_, _, _, _])) .nil

theorem Specification.stems_tidy (t : Tidying) (s : Specification) :
    StemFrom (s.tidy t).outline.contours s.outline.contours := by
  simp only [Specification.outline, Specification.tidy, ItemList.contours_outline, ItemList.items_mapItems,
    List.flatMap_map]
  refine .cons (List.mem_singleton_self _) (.node ?_) .nil
  exact ((StemFrom.of_subset (List.Subset.refl _)).append (.flatMap fun b _ => b.stems_tidy t)).append
    (.of_subset (List.Subset.refl _))

/-- The finished tree of a text has no node that was not read from it, and all its nodes are where they were
read. -/
theorem Specification.stems_ofText {tidying : Tidying} {text : String} {s parsed : Specification}
    (hTree : Specification.ofText tidying text = .ok s) (hParsed : (Scan.ofText text).parse = .ok parsed) :
    StemFrom s.outline.contours parsed.outline.contours := by
  rw [Specification.ofText_eq, hParsed] at hTree
  cases hTree
  have hStems := Specification.stems_tidy tidying
    ((parsed.receive (commentsOf text)).1.markBlankLines (emptyLines text).contains)
  rwa [Specification.contours_markBlankLines, Specification.contours_receive] at hStems

end PolicyFormat.Policy
