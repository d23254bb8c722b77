import PolicyFormat.Proofs.Placing
import PolicyFormat.Proofs.Tally

/-! What a tree adds up to is what its comments add up to, wherever in the tree they are. -/
namespace PolicyFormat.Policy

variable {M : Type} [AddCommMonoid M] {t : Tally M} {P : Comment → Prop}

/-- The sum of comments. -/
def commentTally (t : Tally M) (comments : List Comment) : M :=
  (comments.map (Comment.tally t)).sum

@[simp] theorem commentTally_nil : commentTally t [] = 0 := rfl

@[simp] theorem commentTally_append (cs ds : List Comment) :
    commentTally t (cs ++ ds) = commentTally t cs + commentTally t ds := by
  simp [commentTally]

theorem commentTally_traits (x : Traits) : commentTally t x.comments = x.tally t := rfl

theorem optionalComments_of_silent {leaf : Option Leaf} (h : ∀ l ∈ leaf, l.traits.Silent) :
    optionalComments leaf = [] := by
  cases leaf with
  | none => rfl
  | some l => exact (h l rfl).1

theorem commentTally_optional (leaf : Option Leaf) :
    commentTally t (optionalComments leaf) = leaf.elim 0 (Leaf.tally t) := by
  cases leaf <;> rfl

/-! ### Lists -/

section

variable {α : Type} (f : α → M) (held : α → List Comment)

theorem commentTally_entries {g : ItemList α} (hEach : ∀ x, .item x ∈ g.entries → f x = commentTally t (held x)) :
    commentTally t (g.entries.flatMap (Entry.comments held)) = g.tally t f := by
  unfold ItemList.tally
  generalize g.entries = entries at hEach ⊢
  induction entries with
  | nil => rfl
  | cons entry rest ih =>
    have hRest := ih fun x hx => hEach x (List.mem_cons_of_mem _ hx)
    have hEntry : commentTally t (entry.comments held) = entry.tally t f := by
      cases entry with
      | item x => exact (hEach x List.mem_cons_self).symm
      | comment c => simp [Entry.comments, Entry.tally, commentTally]
    simp [hEntry, hRest]

theorem ItemList.commentTally_eq {F : α → Prop} {g : ItemList α} (h : g.Formed P F)
    (hBrackets : g.SilentBrackets) (hEach : ∀ x, F x → f x = commentTally t (held x)) :
    commentTally t (g.comments held) = g.tally t f := by
  rw [ItemList.comments, h.silent.1, optionalComments_of_silent hBrackets.1, optionalComments_of_silent hBrackets.2]
  simpa using commentTally_entries f held fun x hx => hEach x (h.items x hx)

theorem ItemList.Braced.commentTally_eq {F : α → Prop} {g : ItemList α} (h : g.Braced P F)
    (hEach : ∀ x, F x → f x = commentTally t (held x)) :
    commentTally t (g.comments held) = g.blockTally t f := by
  rw [ItemList.comments, h.silent.1]
  simp only [List.nil_append, commentTally_append, commentTally_optional, ItemList.blockTally]
  rw [commentTally_entries f held fun x hx => hEach x (h.items x hx)]

/-- A list is closed, unless it has comments and open lists count. -/
theorem unclosedTally_eq_zero (hClosed : (∃ c, P c) → t.unclosed = 0) {entries : List (Entry α)}
    (h : ∀ c, .comment c ∈ entries → P c) : unclosedTally t entries = 0 := by
  unfold unclosedTally
  split
  · rename_i c hLast
    exact hClosed ⟨c, h c (List.mem_of_getLast? hLast)⟩
  · rfl

end

/-! ### The constructs of a policy -/

section

variable (hHidden : t.hidden = t.note) (hClosed : (∃ c, P c) → t.unclosed = 0)

include hClosed in
theorem Element.Formed.tally_eq {keepsBlank : Bool} {e : Element} (h : e.Formed P keepsBlank) :
    e.tally t = commentTally t e.comments := by
  induction e using Element.induction generalizing keepsBlank with
  | leaf word => rw [Element.tally_leaf, Element.comments_leaf]; rfl
  | call traits name arguments ih =>
    cases h with
    | call hHolds hKeeps hName hNameSilent hSilent hItems hComments hBrackets =>
      rw [Element.tally_call, Element.comments_call, commentTally_append, commentTally_append,
        hNameSilent.1, ItemList.bracketTally, unclosedTally_eq_zero hClosed hComments]
      have hArguments := ItemList.commentTally_eq (P := P) (t := t) (Element.tally t)
        Element.comments (F := fun e => e ∈ arguments.items ∧ e.Formed P false)
        ⟨hSilent, fun e he => ⟨ItemList.mem_items.2 he, hItems e he⟩, hComments⟩ hBrackets
        fun e he => ih e he.1 he.2
      simp [hArguments, commentTally_traits]

include hHidden hClosed

theorem Value.Formed.tally_eq {v : Value} (h : v.Formed P) : v.tally t = commentTally t v.comments := by
  cases v with
  | single element => exact h.1.tally_eq hClosed
  | list elements =>
    have hEntries := commentTally_entries (t := t) (g := elements) (Element.tally t)
      Element.comments fun e he => (h.items e he).tally_eq hClosed
    have hLines : Comment.hiddenTally t = Comment.tally t := by
      funext c
      rw [Comment.hiddenTally, Comment.tally, hHidden]
    rw [Value.comments, ItemList.comments, h.silent.1, optionalComments_of_silent h.opening]
    simp only [List.nil_append, commentTally_append, hEntries, commentTally_optional, Value.tally, hLines]
    rfl

theorem Assignment.Formed.tally_eq {a : Assignment} (h : a.Formed P) : a.tally t = commentTally t a.comments := by
  simp [Assignment.tally, Assignment.comments, h.value.tally_eq hHidden hClosed, h.silent.1, h.arrow.1,
    optionalComments_of_silent h.comma, commentTally_traits]

omit hHidden hClosed in
theorem Guard.Formed.tally_eq {g : Guard} (h : g.Formed P) : g.traits.tally t = commentTally t g.comments := by
  simp [Guard.comments, h.silent.1, commentTally_traits]

theorem Promise.Formed.tally_eq {p : Promise} (h : p.Formed P) : p.tally t = commentTally t p.comments := by
  have hPromisee : p.promisee.elim 0 (Value.tally t) = commentTally t (p.promisee.elim [] Value.comments) := by
    cases hValue : p.promisee with
    | none => rfl
    | some v => exact (h.promisee v hValue).tally_eq hHidden hClosed
  have hConstraints := ItemList.commentTally_eq (t := t) (Assignment.tally t)
    Assignment.comments h.constraints h.brackets
    fun a ha => ha.toFormed.tally_eq hHidden hClosed
  simp [Promise.tally, Promise.comments, hPromisee, hConstraints, h.silent.1, h.semicolon.1,
    optionalComments_of_silent h.comma, commentTally_traits, add_assoc]

theorem Clause.Formed.tally_eq {c : Clause} (h : c.Formed P) : c.tally t = commentTally t c.comments := by
  cases c with
  | guard g => exact Guard.Formed.tally_eq h
  | promise p => exact Promise.Formed.tally_eq hHidden hClosed h

theorem PromiseType.Formed.tally_eq {p : PromiseType} (h : p.Formed P) : p.tally t = commentTally t p.comments := by
  have hClauses := ItemList.commentTally_eq (t := t) (Clause.tally t) Clause.comments
    h.clauses h.brackets fun c hc => Clause.Formed.tally_eq hHidden hClosed hc
  simp [PromiseType.tally, PromiseType.comments, hClauses, commentTally_traits, Leaf.tally, add_assoc]

theorem Selection.Formed.tally_eq {s : Selection} (h : s.Formed P) : s.tally t = commentTally t s.comments := by
  cases s with
  | guard g => exact Guard.Formed.tally_eq h
  | assignment a => exact Assignment.Formed.tally_eq hHidden hClosed h

theorem Contents.Formed.tally_eq {c : Contents} (h : c.Formed P) : c.tally t = commentTally t c.comments := by
  cases c with
  | bundle statements =>
    exact (ItemList.Braced.commentTally_eq _ _ h fun _ hp => hp.tally_eq hHidden hClosed).symm
  | body selections =>
    exact (ItemList.Braced.commentTally_eq _ _ h.1 fun _ hs =>
      Selection.Formed.tally_eq hHidden hClosed hs).symm

theorem Block.Formed.tally_eq {b : Block} (h : b.Formed P) : b.tally t = commentTally t b.comments := by
  have hParameters := ItemList.commentTally_eq (t := t) (Leaf.tally t)
    (fun l : Leaf => l.traits.comments) h.parameters h.brackets fun l _ => rfl
  simp [Block.tally, Block.comments, ItemList.bracketTally, unclosedTally_eq_zero hClosed h.parameters.comments,
    hParameters, h.contents.tally_eq hHidden hClosed, h.keywordSilent.1, h.typeSilent.1, h.nameSilent.1,
    commentTally_traits, add_assoc]

/-- If comments count alike wherever they are, a tree adds up to the sum of its comments. Open lists
must not count if there are comments. -/
theorem Specification.Formed.tally_eq {s : Specification} (h : Specification.Formed P s) :
    s.tally t = commentTally t s.comments :=
  (ItemList.commentTally_eq _ _ h.toFormed h.brackets fun _ hb => hb.tally_eq hHidden hClosed).symm

end

end PolicyFormat.Policy
