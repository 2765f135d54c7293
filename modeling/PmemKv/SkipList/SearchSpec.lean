import PmemKv.SkipList.Search
import PmemKv.SkipList.SpliceSpec
import Mathlib.Data.List.Perm.Subperm

/-!
# Searches of a list on which one call runs at a time

`FindGreaterOrEqual` finds the first node of level `0` whose key is not smaller than the given one,
and `Contains` tells whether a node with an equal key is stored.  The walk never has to look at more
than all nodes of every level, which bounds the fuel.
-/

namespace PmemKv

open AtomicProg AtomicProg.Prog LinkedChain

namespace InlineSkipList

variable {Key DecodedKey Node : Type} {L : InlineSkipList Key DecodedKey Node}
  {s : Links Node} {chain : ℕ → List Node} {a : Key} {i : ℕ} {n p x : Node}

/-- An equal key is stored. -/
def Stored (L : InlineSkipList Key DecodedKey Node) (chain : ℕ → List Node) (a : Key) : Prop :=
  ∃ b ∈ chain 0, L.cmp.Equiv a (L.key b)

instance (chain : ℕ → List Node) (a : Key) : Decidable (L.Stored chain a) :=
  inferInstanceAs (Decidable (∃ b ∈ chain 0, L.cmp.Equiv a (L.key b)))

namespace Shape

/-- Every level is at most as long as level `0`. -/
lemma length_le (h : L.Shape s chain) (i : ℕ) : (chain i).length ≤ (chain 0).length := by
  have hnodup := nodup_of_pairwise_nodeLt (h.sorted i)
  exact (List.Nodup.subperm hnodup fun n hn => h.mem_of_le (Nat.zero_le i) hn).length_le

/-- A node of a level, or the head, splits the level below behind it. -/
lemma split_below (h : L.Shape s chain) (hx : x = L.head ∨ x ∈ chain (i + 1)) :
    ∃ l₁ l₂, chain i = l₁ ++ l₂ ∧ l₁.getLastD L.head = x ∧ l₂.length ≤ (chain 0).length := by
  obtain ⟨l₁, l₂, hl, hx⟩ := exists_getLastD_eq (List.mem_cons.mpr (hx.imp id (h.nested i x)))
  refine ⟨l₁, l₂, hl, hx, ?_⟩
  have hlen := h.length_le i
  rw [hl, List.length_append] at hlen
  omega

/-- A node of level `0` with an equal key is the successor of the key. -/
lemma succAt_eq_of_equiv (h : L.Shape s chain) (hn : n ∈ chain i)
    (he : L.cmp.Equiv a (L.key n)) : L.succAt chain a i = some n := by
  obtain ⟨h₁, h₂⟩ := Comparator.equiv_iff.mp he
  obtain ⟨c, hc, hnc⟩ := h.leNext_succAt (a := a) (m := some n)
    (fun b hb => Option.some.inj hb ▸ hn) (right_some.mpr h₂) n rfl
  have hac := h.succAt_right c hc
  rw [hc, h.eq_of_equiv (succAt_mem hc) hn (Comparator.equiv_iff.mpr ⟨fun hlt => ?_, hnc⟩)]
  exact h₁ (Comparator.lt_of_not_lt_of_lt hac hlt)

/-- The key is stored exactly if the successor of the key has an equal key. -/
lemma stored_iff (h : L.Shape s chain) :
    L.Stored chain a ↔ ∃ n, L.succAt chain a 0 = some n ∧ L.cmp.Equiv a (L.key n) := by
  constructor
  · rintro ⟨b, hb, he⟩
    exact ⟨b, h.succAt_eq_of_equiv hb he, he⟩
  · rintro ⟨n, hn, he⟩
    exact ⟨n, succAt_mem hn, he⟩

end Shape

variable [DecidableEq Node] {c : Solo Node}

/-- The comparison with the next node: its sign says where the node stands relative to the key,
and a repeated comparison may be left out if the node is known to stand to the right. -/
lemma compareNext_spec (nxt : Option Node) {lastBigger : Option Node}
    (hlast : L.Right a lastBigger) :
    (L.compareNext (L.cmp.decodeKey a) nxt lastBigger < 0 →
      ∃ n, nxt = some n ∧ L.cmp.Lt (L.key n) a) ∧
    (L.compareNext (L.cmp.decodeKey a) nxt lastBigger = 0 →
      ∃ n, nxt = some n ∧ L.cmp.Equiv (L.key n) a) ∧
    (0 < L.compareNext (L.cmp.decodeKey a) nxt lastBigger → L.Right a nxt) := by
  cases nxt with
  | none => exact ⟨by simp [compareNext], by simp [compareNext], fun _ => right_none⟩
  | some n =>
    rw [compareNext]
    split
    · next he => exact ⟨by simp, by simp, fun _ => he ▸ hlast⟩
    · rw [L.cmp.compareDecoded_decodeKey]
      refine ⟨fun hlt => ⟨n, rfl, hlt⟩, fun he => ⟨n, rfl, he⟩, fun hgt => ?_⟩
      exact right_some.mpr (Comparator.compare_nonneg_iff.mp hgt.le)

omit [DecidableEq Node] in
/-- The steps of a walk from the head on the highest level in use down to the end of level `0`. -/
lemma Shape.steps_le (h : L.Shape c.links chain) :
    (chain (c.links.maxHeight - 1)).length + (c.links.maxHeight - 1) * ((chain 0).length + 1) ≤
      L.kMaxHeight * ((chain 0).length + 1) := by
  have hpos := h.maxHeight_pos
  have hle := h.maxHeight_le
  have hlen := h.length_le (c.links.maxHeight - 1)
  have hmul : (c.links.maxHeight - 1 + 1) * ((chain 0).length + 1) ≤
      L.kMaxHeight * ((chain 0).length + 1) := Nat.mul_le_mul_right _ (by omega)
  rw [Nat.succ_mul] at hmul
  omega

/-- The loop of `FindGreaterOrEqual`, started to the left of the key, finds the successor of the
key on level `0`. -/
theorem findGreaterOrEqualLoop_returns (h : L.Shape c.links chain) {level fuel : ℕ}
    {lastBigger : Option Node} (hlevel : level < L.kMaxHeight) (l₁ l₂ : List Node)
    (hl : chain level = l₁ ++ l₂) (hx : l₁.getLastD L.head = x) (hleft : L.Left a x)
    (hlast : L.Right a lastBigger)
    (hfuel : l₂.length + level * ((chain 0).length + 1) < fuel) :
    Returns execSolo
      (L.findGreaterOrEqualLoop (L.cmp.decodeKey a) fuel level x lastBigger) c fun r c' =>
        c' = c ∧ r = L.succAt chain a 0 := by
  -- induction on the fuel, which covers the rest of this level and all levels below
  induction fuel generalizing level l₁ l₂ x lastBigger with
  | zero => exact absurd hfuel (Nat.not_lt_zero _)
  | succ fuel ih =>
    obtain ⟨hmem, hnext⟩ := h.next_of_split hlevel hl hx
    obtain ⟨hneg, hzero, hpos⟩ := compareNext_spec (c.links.next x level) hlast
    rw [findGreaterOrEqualLoop, returns_next, check_bind_of (h.isSorted_next hlevel hmem),
      check_bind_of (keyIsAfterNode_of_left hleft)]
    generalize L.compareNext (L.cmp.decodeKey a) (c.links.next x level) lastBigger = cmp
      at hneg hzero hpos ⊢
    dsimp only
    by_cases hstop : cmp = 0 ∨ (0 < cmp ∧ level = 0)
    · rw [if_pos (by simpa using hstop)]
      refine ⟨rfl, ?_⟩
      rcases hstop with he | ⟨hgt, rfl⟩
      · -- an equal key on any level is the answer
        obtain ⟨n, hn, heq⟩ := hzero he
        have hn0 := h.mem_of_le (Nat.zero_le level) (h.next_mem hlevel hmem hn).1
        rw [hn, h.succAt_eq_of_equiv hn0 heq.symm]
      · exact (h.eq_neighbours hlevel hmem hleft (hpos hgt)).2
    rw [if_neg (by simpa using hstop)]
    by_cases hlt : cmp < 0
    · obtain ⟨n, hn, hna⟩ := hneg hlt
      rw [if_pos hlt]
      rw [hn] at hnext ⊢
      cases l₂ with
      | nil => simp at hnext
      | cons m l₂ =>
        obtain rfl : n = m := Option.some.inj hnext
        refine ih hlevel (l₁ ++ [n]) l₂ ?_ List.getLastD_concat (Or.inr hna) hlast ?_
        · rw [hl, List.append_assoc, List.singleton_append]
        · simp only [List.length_cons] at hfuel
          omega
    · -- the walk goes down: the level is not the lowest and the next node is beyond the key
      rw [if_neg hlt]
      have hcmp : 0 < cmp := by omega
      obtain ⟨level, rfl⟩ : ∃ j, level = j + 1 := ⟨level - 1, by omega⟩
      obtain ⟨l₁', l₂', hl', hx', hlen⟩ := h.split_below hmem
      refine ih (Nat.lt_of_succ_lt hlevel) l₁' l₂' hl' hx' hleft (hpos hcmp) ?_
      rw [Nat.succ_mul] at hfuel
      rw [Nat.add_sub_cancel]
      omega

/-- `FindGreaterOrEqual` finds the successor of the key on level `0`. -/
theorem findGreaterOrEqual_returns (h : L.Shape c.links chain) {fuel : ℕ}
    (hfuel : L.kMaxHeight * ((chain 0).length + 1) < fuel) :
    Returns execSolo (L.findGreaterOrEqual fuel a) c fun r c' =>
      c' = c ∧ r = L.succAt chain a 0 := by
  have hpos := h.maxHeight_pos
  have hle := h.maxHeight_le
  rw [findGreaterOrEqual, returns_getMaxHeight]
  exact findGreaterOrEqualLoop_returns h (by omega) [] (chain _) rfl rfl
    (Or.inl rfl) right_none (lt_of_le_of_lt h.steps_le hfuel)

/-! ## The predecessors of a key -/

/-- An array whose entries from `bottom` up to below `top` are replaced by the predecessors of the
key on their levels. -/
def fillLevels (L : InlineSkipList Key DecodedKey Node) (chain : ℕ → List Node) (a : Key)
    (bottom top : ℕ) (prev : ℕ → Node) : ℕ → Node :=
  fun j => if bottom ≤ j ∧ j < top then L.predAt chain a j else prev j

omit [DecidableEq Node] in
/-- Filling a level and then those below it fills them all. -/
lemma fillLevels_update {bottom level : ℕ} (hb : bottom ≤ level) (prev : ℕ → Node) :
    L.fillLevels chain a bottom level (Function.update prev level (L.predAt chain a level)) =
      L.fillLevels chain a bottom (level + 1) prev := by
  funext j
  simp only [fillLevels, Function.update_apply]
  by_cases hj : j = level
  · simp [hj, hb]
  · have hiff : j < level ↔ j < level + 1 := by omega
    simp [hj, hiff]

omit [DecidableEq Node] in
/-- No level is filled from `bottom` up to below `bottom`. -/
lemma fillLevels_self (bottom : ℕ) : L.fillLevels chain a bottom bottom = id := by
  funext prev j
  exact if_neg (by omega)

/-- The loop of `FindLessThan`, started to the left of the key, finds the predecessors of the key on
its own level and on all levels down to the bottom level. -/
theorem findLessThanLoop_returns (h : L.Shape c.links chain) {bottom level fuel : ℕ}
    {lastNotAfter : Option Node} {prev : Option (ℕ → Node)} (hlevel : level < L.kMaxHeight)
    (hbottom : bottom ≤ level) (l₁ l₂ : List Node) (hl : chain level = l₁ ++ l₂)
    (hx : l₁.getLastD L.head = x) (hleft : L.Left a x) (hlast : L.Right a lastNotAfter)
    (hfuel : l₂.length + level * ((chain 0).length + 1) < fuel) :
    Returns execSolo (L.findLessThanLoop (L.cmp.decodeKey a) bottom fuel level x
      lastNotAfter prev) c
      fun r c' => c' = c ∧
        r = (L.predAt chain a bottom, prev.map (L.fillLevels chain a bottom (level + 1))) := by
  -- induction on the fuel, which covers the rest of this level and all levels below
  induction fuel generalizing level l₁ l₂ x lastNotAfter prev with
  | zero => exact absurd hfuel (Nat.not_lt_zero _)
  | succ fuel ih =>
    obtain ⟨hmem, hnext⟩ := h.next_of_split hlevel hl hx
    rw [findLessThanLoop, returns_next, check_bind_of (h.isSorted_next hlevel hmem),
      check_bind_of (keyIsAfterNode_of_left hleft)]
    by_cases hgo : c.links.next x level ≠ lastNotAfter ∧
        L.keyIsAfterNode (L.cmp.decodeKey a) (c.links.next x level) = true
    · rw [if_pos (by simpa using hgo)]
      cases l₂ with
      | nil =>
        rw [hnext] at hgo
        exact absurd hgo.2 (by simp)
      | cons n l₂ =>
        rw [hnext] at hgo ⊢
        have hna : L.cmp.Lt (L.key n) a := by simpa using hgo.2
        refine ih hlevel hbottom (l₁ ++ [n]) l₂ ?_ List.getLastD_concat (Or.inr hna) hlast ?_
        · rw [hl, List.append_assoc, List.singleton_append]
        · simp only [List.length_cons] at hfuel
          omega
    · rw [if_neg (by simpa using hgo)]
      -- the walk stops on this level: the next node is known or found to be not before the key
      have hright : L.Right a (c.links.next x level) := by
        by_cases he : c.links.next x level = lastNotAfter
        · rwa [he]
        · intro n hn hlt
          refine hgo ⟨he, ?_⟩
          rw [hn, keyIsAfterNode_some, decide_eq_true_eq]
          exact hlt
      obtain ⟨rfl, -⟩ := h.eq_neighbours hlevel hmem hleft hright
      have hfill : ∀ prev : Option (ℕ → Node),
          (prev.map fun prev => Function.update prev level (L.predAt chain a level)).map
            (L.fillLevels chain a bottom level) =
              prev.map (L.fillLevels chain a bottom (level + 1)) := by
        intro prev
        rw [Option.map_map]
        exact congrArg (prev.map ·) (funext fun prev => fillLevels_update hbottom prev)
      split
      · next he =>
        subst he
        rw [← hfill prev, fillLevels_self, Option.map_id]
        exact ⟨rfl, rfl⟩
      · next hne =>
        obtain ⟨level, rfl⟩ : ∃ j, level = j + 1 := ⟨level - 1, by omega⟩
        obtain ⟨l₁', l₂', hl', hx', hlen⟩ := h.split_below hmem
        rw [← hfill prev]
        refine ih (Nat.lt_of_succ_lt hlevel) (by omega) l₁' l₂' hl' hx' hleft hright ?_
        rw [Nat.succ_mul] at hfuel
        rw [Nat.add_sub_cancel]
        omega

/-- `FindLessThan` with a range of levels, started from the head or from a node to the left of the
key on the highest of them, finds the predecessors of the key on all of them. -/
theorem findLessThanFrom_returns (h : L.Shape c.links chain) {fuel bottom top : ℕ} {root : Node}
    (hbt : bottom < top) (htop : top ≤ c.links.maxHeight)
    (hroot : root = L.head ∨ (root ∈ chain (top - 1) ∧ L.cmp.Lt (L.key root) a))
    (hfuel : L.kMaxHeight * ((chain 0).length + 1) < fuel) (prev : Option (ℕ → Node)) :
    Returns execSolo (L.findLessThanFrom fuel a prev root top bottom) c fun r c' => c' = c ∧
      r = (L.predAt chain a bottom, prev.map (L.fillLevels chain a bottom top)) := by
  obtain ⟨level, rfl⟩ : ∃ j, top = j + 1 := ⟨top - 1, by omega⟩
  rw [Nat.add_sub_cancel] at hroot
  have hle := htop.trans h.maxHeight_le
  obtain ⟨l₁, l₂, hl, hx⟩ := exists_getLastD_eq (List.mem_cons.mpr (hroot.imp id And.left))
  have hlen := h.length_le level
  rw [hl, List.length_append] at hlen
  have hmul := Nat.mul_le_mul_right ((chain 0).length + 1) hle
  rw [Nat.succ_mul] at hmul
  rw [findLessThanFrom, check_bind_of (by simpa using hbt), Nat.add_sub_cancel]
  exact findLessThanLoop_returns h hle (Nat.le_of_lt_succ hbt) l₁ l₂ hl hx (hroot.imp id And.right)
    right_none (by omega)

/-- `FindLessThan` finds the predecessors of the key on all levels in use. -/
theorem findLessThan_returns (h : L.Shape c.links chain) {fuel : ℕ}
    (hfuel : L.kMaxHeight * ((chain 0).length + 1) < fuel) (prev : Option (ℕ → Node)) :
    Returns execSolo (L.findLessThan fuel a prev) c fun r c' => c' = c ∧
      r = (L.predAt chain a 0, prev.map (L.fillLevels chain a 0 c.links.maxHeight)) := by
  rw [findLessThan, returns_getMaxHeight]
  exact findLessThanFrom_returns h h.maxHeight_pos le_rfl (Or.inl rfl) hfuel prev

/-! ## The last node -/

/-- The loop of `FindLast` finds the last node of level `0`, or the head. -/
theorem findLastLoop_returns (h : L.Shape c.links chain) {level fuel : ℕ}
    (hlevel : level < L.kMaxHeight) (l₁ l₂ : List Node) (hl : chain level = l₁ ++ l₂)
    (hx : l₁.getLastD L.head = x) (hfuel : l₂.length + level * ((chain 0).length + 1) < fuel) :
    Returns execSolo (findLastLoop fuel level x) c fun r c' =>
      c' = c ∧ r = (chain 0).getLastD L.head := by
  induction fuel generalizing level l₁ l₂ x with
  | zero => exact absurd hfuel (Nat.not_lt_zero _)
  | succ fuel ih =>
    obtain ⟨hmem, hnext⟩ := h.next_of_split hlevel hl hx
    rw [findLastLoop, returns_next, hnext]
    cases l₂ with
    | nil =>
      change Returns execSolo (if level = 0 then pure x else findLastLoop fuel (level - 1) x) c _
      split
      · next h0 =>
        subst h0
        exact ⟨rfl, by rw [hl, List.append_nil, hx]⟩
      · next hne =>
        obtain ⟨level, rfl⟩ : ∃ j, level = j + 1 := ⟨level - 1, by omega⟩
        obtain ⟨l₁', l₂', hl', hx', hlen⟩ := h.split_below hmem
        refine ih (Nat.lt_of_succ_lt hlevel) l₁' l₂' hl' hx' ?_
        rw [Nat.succ_mul] at hfuel
        rw [Nat.add_sub_cancel]
        omega
    | cons n l₂ =>
      refine ih hlevel (l₁ ++ [n]) l₂ ?_ List.getLastD_concat ?_
      · rw [hl, List.append_assoc, List.singleton_append]
      · simp only [List.length_cons] at hfuel
        omega

/-- `FindLast` finds the last node of level `0`, or the head. -/
theorem findLast_returns (h : L.Shape c.links chain) {fuel : ℕ}
    (hfuel : L.kMaxHeight * ((chain 0).length + 1) < fuel) :
    Returns execSolo (L.findLast fuel) c fun r c' => c' = c ∧ r = (chain 0).getLastD L.head := by
  have hpos := h.maxHeight_pos
  have hle := h.maxHeight_le
  rw [findLast, returns_getMaxHeight]
  exact findLastLoop_returns h (by omega) [] (chain _) rfl rfl (lt_of_le_of_lt h.steps_le hfuel)

/-! ## Membership -/

/-- `Contains` tells whether an equal key is stored. -/
theorem contains_returns (h : L.Shape c.links chain) {fuel : ℕ}
    (hfuel : L.kMaxHeight * ((chain 0).length + 1) < fuel) :
    Returns execSolo (L.contains fuel a) c fun r c' =>
      c' = c ∧ r = decide (L.Stored chain a) := by
  rw [contains]
  refine Returns.bind_of (findGreaterOrEqual_returns (a := a) h hfuel) ?_
  rintro r c' ⟨rfl, rfl⟩
  refine ⟨rfl, ?_⟩
  rw [Bool.eq_iff_iff, Option.any_eq_true, decide_eq_true_iff, h.stored_iff]
  simp only [decide_eq_true_eq]
  rfl

end InlineSkipList

end PmemKv
