import Mathlib.Data.List.Basic
import Mathlib.Data.List.Nodup
import Mathlib.Data.List.TakeWhile
import Mathlib.Order.Nat
import Mathlib.Tactic.Common

/-!
# Singly linked chains in a heap

`Linked next a l` says that the cells reached from the cell `a` through `next`, after `a` itself,
are exactly those of the list `l`, in order, and that the chain ends there.  The chain is determined
by the heap, it splits at each of its cells, and writing one cell in behind another inserts it into
the list.

The second part cuts a sorted chain at a search key, given as a predicate `P` ("before the key")
that is downward closed along the chain.
-/

namespace LinkedChain

variable {α : Type*}

/-- The cells behind `a` are those of `l`, and the last of them has no successor. -/
def Linked (next : α → Option α) : α → List α → Prop
  | a, [] => next a = none
  | a, b :: l => next a = some b ∧ Linked next b l

variable {next next' : α → Option α} {a b x : α} {l l₁ l₂ : List α}

@[simp] lemma linked_nil : Linked next a [] ↔ next a = none := Iff.rfl

@[simp] lemma linked_cons : Linked next a (b :: l) ↔ next a = some b ∧ Linked next b l := Iff.rfl

/-- The successor of `a` is the first cell of its chain. -/
lemma Linked.next_eq (h : Linked next a l) : next a = l.head? := by
  cases l with
  | nil => exact h
  | cons b l => exact h.1

/-- A cell has at most one chain. -/
lemma Linked.unique (h₁ : Linked next a l₁) (h₂ : Linked next a l₂) : l₁ = l₂ := by
  induction l₁ generalizing a l₂ with
  | nil =>
    cases l₂ with
    | nil => rfl
    | cons b l₂ => exact absurd (h₁.symm.trans h₂.1) (by simp)
  | cons b l₁ ih =>
    cases l₂ with
    | nil => exact absurd (h₂.symm.trans h₁.1) (by simp)
    | cons b' l₂ =>
      obtain rfl : b = b' := Option.some.inj (h₁.1.symm.trans h₂.1)
      rw [ih h₁.2 h₂.2]

/-- A chain only depends on the successors of its own cells. -/
lemma Linked.congr (h : Linked next a l) (heq : ∀ b ∈ a :: l, next' b = next b) :
    Linked next' a l := by
  induction l generalizing a with
  | nil => exact (heq a (List.mem_cons_self ..)).trans h
  | cons b l ih =>
    refine ⟨(heq a (List.mem_cons_self ..)).trans h.1, ih h.2 fun c hc => ?_⟩
    exact heq c (List.mem_cons_of_mem a hc)

/-- The tail of a chain is the chain of the cell before it. -/
lemma Linked.drop (h : Linked next a (l₁ ++ l₂)) : Linked next (l₁.getLastD a) l₂ := by
  induction l₁ generalizing a with
  | nil => exact h
  | cons b l₁ ih =>
    rw [List.getLastD_cons]
    exact ih h.2

/-- The successor of the last cell of an initial segment is the first cell of the rest. -/
lemma Linked.next_getLastD (h : Linked next a (l₁ ++ l₂)) : next (l₁.getLastD a) = l₂.head? :=
  h.drop.next_eq

/-- A chain can be put together from an initial segment and the chain of its last cell. -/
lemma Linked.append (h : Linked next a (l₁ ++ l₂)) {l₃ : List α}
    (heq : ∀ b ∈ a :: l₁, b ≠ l₁.getLastD a → next' b = next b)
    (hnd : (a :: l₁).Nodup) (hlast : Linked next' (l₁.getLastD a) l₃) :
    Linked next' a (l₁ ++ l₃) := by
  induction l₁ generalizing a with
  | nil => exact hlast
  | cons b l₁ ih =>
    rw [List.getLastD_cons] at hlast heq
    have hne : a ≠ l₁.getLastD b := by
      intro hab
      have hmem : a ∈ b :: l₁ := hab ▸ List.getLastD_mem_cons
      exact (List.nodup_cons.mp hnd).1 hmem
    refine ⟨(heq a (List.mem_cons_self ..) hne).trans h.1,
      ih h.2 ?_ (List.nodup_cons.mp hnd).2 hlast⟩
    exact fun c hc => heq c (List.mem_cons_of_mem a hc)

/-- **Insertion.**  Linking a new cell `x` in behind the last cell of an initial segment inserts
it into the chain at that place. -/
lemma Linked.insert (h : Linked next a (l₁ ++ l₂)) (hnd : (a :: (l₁ ++ l₂)).Nodup)
    (hx : x ∉ a :: (l₁ ++ l₂)) (hp : next' (l₁.getLastD a) = some x) (hxn : next' x = l₂.head?)
    (heq : ∀ b, b ≠ l₁.getLastD a → b ≠ x → next' b = next b) :
    Linked next' a (l₁ ++ x :: l₂) := by
  have hnd' : (a :: l₁).Nodup ∧ l₂.Nodup ∧ (a :: l₁).Disjoint l₂ := by
    rw [← List.cons_append] at hnd
    exact List.nodup_append'.mp hnd
  refine h.append (fun b hb hne => heq b hne ?_) hnd'.1 ⟨hp, ?_⟩
  · rintro rfl
    refine hx (List.mem_cons.mpr ((List.mem_cons.mp hb).imp id fun hb => ?_))
    exact List.mem_append_left _ hb
  · -- behind `x` nothing has changed
    have hrest : Linked next (l₁.getLastD a) l₂ := h.drop
    cases l₂ with
    | nil => exact hxn
    | cons c l₂ =>
      refine ⟨hxn, hrest.2.congr fun b hb => heq b ?_ ?_⟩
      · rintro rfl
        exact hnd'.2.2 List.getLastD_mem_cons hb
      · rintro rfl
        exact hx (List.mem_cons_of_mem a (List.mem_append_right _ hb))

/-- **Removal.**  Redirecting the last cell of an initial segment past a segment takes that segment
out of the chain. -/
lemma Linked.skip {d : List α} (h : Linked next a (l₁ ++ (d ++ l₂)))
    (hnd : (a :: (l₁ ++ (d ++ l₂))).Nodup) (hp : next' (l₁.getLastD a) = l₂.head?)
    (heq : ∀ b, b ≠ l₁.getLastD a → next' b = next b) : Linked next' a (l₁ ++ l₂) := by
  have hnd' : (a :: l₁).Nodup ∧ (d ++ l₂).Nodup ∧ (a :: l₁).Disjoint (d ++ l₂) := by
    rw [← List.cons_append] at hnd
    exact List.nodup_append'.mp hnd
  refine h.append (fun b _ hne => heq b hne) hnd'.1 ?_
  have hrest : Linked next (d.getLastD (l₁.getLastD a)) l₂ := h.drop.drop
  cases l₂ with
  | nil => exact hp
  | cons c l₂ =>
    refine ⟨hp, hrest.2.congr fun b hb => heq b ?_⟩
    rintro rfl
    exact hnd'.2.2 List.getLastD_mem_cons (List.mem_append_right _ hb)

/-- Every cell of a chain, its start included, ends an initial segment. -/
lemma exists_getLastD_eq (hb : b ∈ a :: l) : ∃ l₁ l₂, l = l₁ ++ l₂ ∧ l₁.getLastD a = b := by
  induction l generalizing a with
  | nil =>
    obtain rfl : b = a := by simpa using hb
    exact ⟨[], [], rfl, rfl⟩
  | cons c l ih =>
    rcases List.mem_cons.mp hb with rfl | hb
    · exact ⟨[], c :: l, rfl, rfl⟩
    · obtain ⟨l₁, l₂, rfl, h⟩ := ih hb
      exact ⟨c :: l₁, l₂, rfl, by rw [List.getLastD_cons, h]⟩

/-- The last cell of a segment is its start or one of its cells. -/
lemma getLastD_eq_or_mem (l : List α) (a : α) : l.getLastD a = a ∨ l.getLastD a ∈ l := by
  have h : l.getLastD a ∈ a :: l := List.getLastD_mem_cons
  simpa only [List.mem_cons] using h

/-- The start of a chain does not come again. -/
lemma Linked.notMem (h : Linked next a l) : a ∉ l := by
  intro ha
  obtain ⟨l₁, l₂, rfl⟩ := List.append_of_mem ha
  have hrest : Linked next a l₂ := by
    have := h.drop
    exact this.2
  have hlen := congrArg List.length (h.unique hrest)
  simp at hlen
  omega

/-! ## Initial parts of chains -/

/-- The cells of `l` are the first ones behind `a`. -/
def Path (next : α → Option α) : α → List α → Prop
  | _, [] => True
  | a, b :: l => next a = some b ∧ Path next b l

/-- A path goes on with the successor of its last cell. -/
lemma Path.concat (h : Path next a l) (hb : next (l.getLastD a) = some b) :
    Path next a (l ++ [b]) := by
  induction l generalizing a with
  | nil => exact ⟨hb, trivial⟩
  | cons c l ih =>
    rw [List.getLastD_cons] at hb
    exact ⟨h.1, ih h.2 hb⟩

/-- A path whose last cell has no successor is a chain. -/
lemma Path.linked (h : Path next a l) (hn : next (l.getLastD a) = none) : Linked next a l := by
  induction l generalizing a with
  | nil => exact hn
  | cons c l ih =>
    rw [List.getLastD_cons] at hn
    exact ⟨h.1, ih h.2 hn⟩

/-! ## Cutting a sorted chain at a search key -/

section Cut

variable {lt : α → α → Prop} {P : α → Bool}

/-- The cells of a sorted chain that come before the search key. -/
abbrev before (P : α → Bool) (l : List α) : List α := l.takeWhile P

/-- The cells of a sorted chain from the search key on. -/
abbrev atLeast (P : α → Bool) (l : List α) : List α := l.dropWhile P

/-- Every cell of the first part comes before the search key. -/
lemma of_mem_before (h : b ∈ before P l) : P b = true := List.mem_takeWhile_imp h

/-- The two parts make up the chain. -/
lemma before_append_atLeast (P : α → Bool) (l : List α) : before P l ++ atLeast P l = l :=
  List.takeWhile_append_dropWhile

/-- No cell of the second part of a sorted chain comes before the search key. -/
lemma of_mem_atLeast (hs : l.Pairwise lt) (hdown : ∀ b c, lt b c → P c = true → P b = true)
    (h : b ∈ atLeast P l) : P b = false := by
  induction l with
  | nil => simp at h
  | cons c l ih =>
    obtain ⟨hc, hl⟩ := List.pairwise_cons.mp hs
    by_cases hP : P c = true
    · rw [atLeast, List.dropWhile_cons_of_pos hP] at h
      exact ih hl h
    · rw [atLeast, List.dropWhile_cons_of_neg hP] at h
      rcases List.mem_cons.mp h with rfl | h
      · exact Bool.eq_false_iff.mpr hP
      · by_contra hb
        exact hP (hdown c b (hc b h) (by simpa using hb))

/-- In a sorted chain the two parts collect the cells that do and do not come before the key. -/
lemma cut_eq_filter (hs : l.Pairwise lt) (hdown : ∀ b c, lt b c → P c = true → P b = true) :
    before P l = l.filter P ∧ atLeast P l = l.filter fun b => !P b := by
  have h₁ : ∀ b ∈ before P l, P b = true := fun _ => of_mem_before
  have h₂ : ∀ b ∈ atLeast P l, P b = false := fun _ => of_mem_atLeast hs hdown
  have hl := before_append_atLeast P l
  generalize before P l = l₁ at h₁ hl ⊢
  generalize atLeast P l = l₂ at h₂ hl ⊢
  subst hl
  rw [List.filter_append, List.filter_append, List.filter_eq_self.mpr h₁,
    List.filter_eq_nil_iff.mpr fun b hb => by simp [h₂ b hb],
    List.filter_eq_nil_iff.mpr fun b hb => by simp [h₁ b hb],
    List.filter_eq_self.mpr fun b hb => by simp [h₂ b hb]]
  exact ⟨(List.append_nil _).symm, rfl⟩

/-- A segmentation of a chain into cells before the key and cells from the key on is the cut. -/
lemma cut_unique (h₁ : ∀ b ∈ l₁, P b = true) (h₂ : ∀ b, l₂.head? = some b → P b = false) :
    before P (l₁ ++ l₂) = l₁ ∧ atLeast P (l₁ ++ l₂) = l₂ := by
  induction l₁ with
  | nil =>
    cases l₂ with
    | nil => exact ⟨rfl, rfl⟩
    | cons b l₂ =>
      have hb : ¬P b = true := by simp [h₂ b rfl]
      exact ⟨List.takeWhile_cons_of_neg hb, List.dropWhile_cons_of_neg hb⟩
  | cons b l₁ ih =>
    have hb : P b = true := h₁ b (List.mem_cons_self ..)
    obtain ⟨ih₁, ih₂⟩ := ih fun c hc => h₁ c (List.mem_cons_of_mem b hc)
    constructor
    · rw [List.cons_append, before, List.takeWhile_cons_of_pos hb]
      exact congrArg (b :: ·) ih₁
    · rw [List.cons_append, atLeast, List.dropWhile_cons_of_pos hb]
      exact ih₂

/-- A cell before the key, or the start, whose successor is missing or not before the key is the
last cell before the key. -/
lemma Linked.eq_cut (h : Linked next a l) (hs : l.Pairwise lt)
    (hdown : ∀ b c, lt b c → P c = true → P b = true)
    (hb : b = a ∨ (b ∈ l ∧ P b = true)) (ha : a ∉ l)
    (hn : ∀ c, next b = some c → P c = false) :
    b = (before P l).getLastD a ∧ next b = (atLeast P l).head? := by
  have hmem : b ∈ a :: l := List.mem_cons.mpr (hb.imp id And.left)
  obtain ⟨l₁, l₂, rfl, rfl⟩ := exists_getLastD_eq hmem
  have hnext := h.next_getLastD
  have hl₁ : ∀ c ∈ l₁, P c = true := by
    intro c hc
    rcases List.eq_nil_or_concat' l₁ with rfl | ⟨l₀, d, rfl⟩
    · simp at hc
    · rw [List.getLastD_concat] at hb
      have hd : P d = true := by
        rcases hb with rfl | hb
        · exact absurd (by simp) ha
        · exact hb.2
      rcases List.mem_append.mp hc with hc | hc
      · refine hdown c d ?_ hd
        rw [List.append_assoc] at hs
        exact (List.pairwise_append.mp hs).2.2 c hc d (by simp)
      · rwa [List.mem_singleton.mp hc]
  obtain ⟨h₁, h₂⟩ := cut_unique hl₁ fun c hc => hn c (hnext.trans hc)
  rw [h₁, h₂]
  exact ⟨rfl, hnext⟩

end Cut

end LinkedChain
