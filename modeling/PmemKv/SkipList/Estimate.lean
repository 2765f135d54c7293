import PmemKv.Basic
import PmemKv.SkipList.Reachable
import Mathlib.Algebra.BigOperators.Group.Finset.Basic
import Mathlib.Algebra.BigOperators.Ring.Finset

/-!
# The estimated number of smaller keys

`EstimateCount` walks to a key as the searches do, counts its steps, and multiplies the count by
`kBranching_` whenever it goes down one level.  The count is an unsigned word of 64 bits, and no
assertion of the source keeps it from wrapping.

`estimateCountSteps` is the same walk with the number of steps that it takes on every level.  These
numbers only depend on the list: on a level the walk steps on the nodes with smaller keys that come
behind all such nodes of the level above.  The count is exact if the sum over all levels, weighted
by the powers of the branching factor, fits into the word, and otherwise it is a different number.
-/

namespace PmemKv

open AtomicProg AtomicProg.Prog LinkedChain Finset

namespace InlineSkipList

variable {Key DecodedKey Node ι : Type} [DecidableEq Node] [DecidableEq ι]
  (L : InlineSkipList Key DecodedKey Node)

/-- The loop of `EstimateCount`. -/
def estimateCountLoop (kBranching : ℕ) (key : DecodedKey) :
    ℕ → ℕ → Node → ℕ → ListProg Node ℕ
  | 0, _, _, _ => .exhausted
  | fuel + 1, level, x, count => do
    check (x = L.head || L.cmp.compareDecoded (L.key x) key < 0)
    let nxt ← next x level
    if nxt.all fun n => 0 ≤ L.cmp.compareDecoded (L.key n) key then
      if level = 0 then pure count
      else estimateCountLoop kBranching key fuel (level - 1) x (toUInt64 (count * kBranching))
    else
      match nxt with
      | some n => estimateCountLoop kBranching key fuel level n (toUInt64 (count + 1))
      | none => .fault

/-- `EstimateCount`. -/
def estimateCount (kBranching fuel : ℕ) (key : Key) : ListProg Node ℕ := do
  let maxHeight ← getMaxHeight
  L.estimateCountLoop kBranching (L.cmp.decodeKey key) fuel (maxHeight - 1) L.head 0

/-! ## The steps of the walk -/

/-- The loop of `EstimateCount`, which also counts its steps on every level. -/
def estimateCountStepsLoop (kBranching : ℕ) (key : DecodedKey) :
    ℕ → ℕ → Node → ℕ → (ℕ → ℕ) → ListProg Node (ℕ × (ℕ → ℕ))
  | 0, _, _, _, _ => .exhausted
  | fuel + 1, level, x, count, steps => do
    check (x = L.head || L.cmp.compareDecoded (L.key x) key < 0)
    let nxt ← next x level
    if nxt.all fun n => 0 ≤ L.cmp.compareDecoded (L.key n) key then
      if level = 0 then pure (count, steps)
      else
        estimateCountStepsLoop kBranching key fuel (level - 1) x
          (toUInt64 (count * kBranching)) steps
    else
      match nxt with
      | some n =>
        estimateCountStepsLoop kBranching key fuel level n (toUInt64 (count + 1))
          (Function.update steps level (steps level + 1))
      | none => .fault

/-- `EstimateCount` with the number of its steps on every level. -/
def estimateCountSteps (kBranching fuel : ℕ) (key : Key) : ListProg Node (ℕ × (ℕ → ℕ)) := do
  let maxHeight ← getMaxHeight
  L.estimateCountStepsLoop kBranching (L.cmp.decodeKey key) fuel (maxHeight - 1) L.head 0 fun _ => 0

/-- The node has a smaller key and comes behind all nodes of `l` with smaller keys. -/
def IsStepped (a : Key) (l : List Node) (n : Node) : Prop :=
  L.cmp.Lt (L.key n) a ∧ ∀ c ∈ l, L.cmp.Lt (L.key c) a → L.NodeLt c n

instance (a : Key) (l : List Node) : DecidablePred (L.IsStepped a l) := fun n =>
  inferInstanceAs (Decidable (L.cmp.Lt (L.key n) a ∧ ∀ c ∈ l, L.cmp.Lt (L.key c) a → L.NodeLt c n))

/-- The nodes of level `i` on which the walk steps: those with smaller keys behind all such nodes of
the level above. -/
def stepped (chain : ℕ → List Node) (a : Key) (i : ℕ) : List Node :=
  (chain i).filter fun n => L.IsStepped a (chain (i + 1)) n

/-- The nodes on the levels in use, and none on the levels above. -/
def Levels (s : Links Node) (chain : ℕ → List Node) : Prop :=
  (∀ i < s.maxHeight, L.LevelChain s i (chain i)) ∧ ∀ i, s.maxHeight ≤ i → chain i = []

variable {L} {chain : ℕ → List Node} {c : Solo Node} {a : Key} {x : Node}
  {kBranching level fuel count i : ℕ} {l₁ l₂ : List Node} {steps : ℕ → ℕ}

/-- Leaving the numbers of steps out gives the loop of `EstimateCount`. -/
lemma estimateCountStepsLoop_fst (kBranching : ℕ) (key : DecodedKey) :
    (L.estimateCountStepsLoop kBranching key fuel level x count steps >>= fun r => pure r.1) =
      L.estimateCountLoop kBranching key fuel level x count := by
  induction fuel generalizing level x count steps with
  | zero => rfl
  | succ fuel ih =>
    rw [estimateCountStepsLoop, estimateCountLoop]
    by_cases hcheck : (x = L.head || L.cmp.compareDecoded (L.key x) key < 0) = true
    · rw [check_bind_of hcheck, check_bind_of hcheck]
      refine congrArg (Prog.step (LinkOp.next x level)) (funext fun nxt => ?_)
      change Prog.bind (if _ then _ else _) _ = if _ then _ else _
      split
      · split
        · rfl
        · exact ih
      · cases nxt with
        | none => rfl
        | some n => exact ih
    · simp only [check, if_neg hcheck]
      rfl

/-- Leaving the numbers of steps out gives `EstimateCount`. -/
lemma estimateCountSteps_fst (kBranching : ℕ) (a : Key) :
    (L.estimateCountSteps kBranching fuel a >>= fun r => pure r.1) =
      L.estimateCount kBranching fuel a :=
  congrArg (Prog.step LinkOp.loadMaxHeight) (funext fun _ => estimateCountStepsLoop_fst ..)

omit [DecidableEq Node] in
/-- A node of a sorted chain is its last node or has a smaller key. -/
lemma getLastD_of_mem {l : List Node} {n : Node} (hs : l.Pairwise L.NodeLt)
    (hn : n ∈ l) (p : Node) :
    l.getLastD p ∈ l ∧ (n = l.getLastD p ∨ L.NodeLt n (l.getLastD p)) := by
  obtain rfl | ⟨l, q, rfl⟩ := List.eq_nil_or_concat l
  · cases hn
  · rw [List.concat_eq_append] at hs hn ⊢
    rw [List.getLastD_concat]
    refine ⟨List.mem_append_right _ (List.mem_singleton_self q), ?_⟩
    rcases List.mem_append.mp hn with hn | hn
    · exact Or.inr ((List.pairwise_append.mp hs).2.2 n hn q (List.mem_singleton_self q))
    · exact Or.inl (List.mem_singleton.mp hn)

omit [DecidableEq Node] in
/-- The walk enters a level at the predecessor of the key on the level above, and steps on the nodes
with smaller keys behind it. -/
lemma Shape.stepped_eq {s : Links Node} (h : L.Shape s chain) (hl : chain i = l₁ ++ l₂)
    (hlast : l₁.getLastD L.head = L.predAt chain a (i + 1)) :
    L.stepped chain a i = before (L.isBefore a) l₂ := by
  have hs := h.sorted i
  have hhead := h.head_notMem i
  rw [hl] at hs hhead
  obtain ⟨hs₁, hs₂, hcross⟩ := List.pairwise_append.mp hs
  have hpred : ∀ n ∈ l₁, ¬L.IsStepped a (chain (i + 1)) n := by
    rintro n hn ⟨-, hall⟩
    obtain ⟨hmem, hle⟩ := getLastD_of_mem hs₁ hn L.head
    rw [hlast] at hmem hle
    have hne : L.predAt chain a (i + 1) ≠ L.head :=
      fun he => hhead (he ▸ List.mem_append_left _ hmem)
    have hlt := hall _ ((predAt_mem L chain a (i + 1)).resolve_left hne)
      ((predAt_left L chain a (i + 1)).resolve_left hne)
    rcases hle with rfl | hle
    · exact Comparator.lt_irrefl _ hlt
    · exact hlt.asymm hle
  have hrest : ∀ n ∈ l₂, L.IsStepped a (chain (i + 1)) n ↔ L.cmp.Lt (L.key n) a := by
    refine fun n hn => ⟨And.left, fun hna => ⟨hna, fun c hc hca => ?_⟩⟩
    -- the node `c` comes before the key on the level above, so it is not behind its last such node
    have hcb : c ∈ before (L.isBefore a) (chain (i + 1)) := by
      rw [(cut_eq_filter (h.sorted (i + 1)) (isBefore_of_nodeLt a)).1]
      exact List.mem_filter.mpr ⟨hc, isBefore_iff.mpr hca⟩
    obtain ⟨hmem, hle⟩ := getLastD_of_mem
      ((h.sorted (i + 1)).sublist (List.takeWhile_sublist _)) hcb L.head
    have hp : l₁.getLastD L.head ∈ l₁ := by
      refine (getLastD_eq_or_mem l₁ L.head).resolve_left fun he => ?_
      rw [hlast] at he
      exact h.head_notMem (i + 1) (he ▸ (List.takeWhile_prefix _).subset hmem)
    have hpn := hcross _ hp n hn
    rw [hlast] at hpn
    rcases hle with rfl | hle
    · exact hpn
    · exact hle.trans hpn
  rw [stepped, hl, List.filter_append, List.filter_eq_nil_iff.mpr (by simpa using hpred),
    List.nil_append, (cut_eq_filter hs₂ (isBefore_of_nodeLt a)).1]
  exact List.filter_congr fun n hn => decide_eq_decide.mpr (hrest n hn)

omit [DecidableEq Node] in
/-- The walk stops on a level if the next node may stand to the right of the key. -/
lemma stops_iff {nxt : Option Node} :
    (nxt.all fun n => 0 ≤ L.cmp.compareDecoded (L.key n) (L.cmp.decodeKey a)) = true ↔
      L.Right a nxt := by
  cases nxt with
  | none => exact iff_of_true rfl right_none
  | some n =>
    rw [Option.all_some, decide_eq_true_iff, L.cmp.compareDecoded_decodeKey, right_some]
    exact Comparator.compare_nonneg_iff

omit [DecidableEq Node] in
/-- No node comes before the key if the first one may stand to its right. -/
lemma before_eq_nil {l : List Node} (h : L.Right a l.head?) : before (L.isBefore a) l = [] := by
  cases l with
  | nil => rfl
  | cons n l => exact List.takeWhile_cons_of_neg (by simpa using right_some.mp h)

/-- The product and the sum wrap around once. -/
lemma toUInt64_linear (u k m z : ℕ) :
    toUInt64 ((toUInt64 u + k) * m + z) = toUInt64 ((u + k) * m + z) := by
  simp [toUInt64, Nat.add_mod, Nat.mul_mod]

/-- The numbers of steps that the walk has ahead, on a level whose rest is `l₂` and on those
below. -/
def stepsAhead (L : InlineSkipList Key DecodedKey Node) (chain : ℕ → List Node) (a : Key)
    (level : ℕ) (l₂ : List Node) (j : ℕ) : ℕ :=
  if j = level then (before (L.isBefore a) l₂).length
  else if j < level then (L.stepped chain a j).length else 0

omit [DecidableEq Node] in
/-- On level `0` no step is ahead when the next node is beyond the key. -/
lemma stepsAhead_zero (hnil : before (L.isBefore a) l₂ = []) : L.stepsAhead chain a 0 l₂ = 0 := by
  funext j
  rw [stepsAhead, hnil, if_neg (Nat.not_lt_zero j)]
  exact ite_self 0

omit [DecidableEq Node] in
/-- Going down does not change which steps are ahead. -/
lemma stepsAhead_succ {l₂' : List Node} (hnil : before (L.isBefore a) l₂ = [])
    (hstepped : L.stepped chain a level = before (L.isBefore a) l₂') :
    L.stepsAhead chain a (level + 1) l₂ = L.stepsAhead chain a level l₂' := by
  funext j
  unfold stepsAhead
  rcases lt_trichotomy j level with hj | rfl | hj
  · rw [if_neg (by omega), if_pos (by omega), if_neg (by omega), if_pos hj]
  · rw [if_neg (by omega), if_pos (by omega), if_pos rfl, hstepped]
  · rw [if_neg (show ¬j < level + 1 by omega), if_neg (show ¬j = level by omega), hnil,
      if_neg (show ¬j < level by omega)]
    exact ite_self 0

omit [DecidableEq Node] in
/-- A step that was ahead is counted. -/
lemma update_add_stepsAhead {n : Node} (hn : L.isBefore a n = true) :
    Function.update steps level (steps level + 1) + L.stepsAhead chain a level l₂ =
      steps + L.stepsAhead chain a level (n :: l₂) := by
  funext j
  by_cases hj : j = level
  · subst hj
    simp only [Pi.add_apply, Function.update_self, stepsAhead, if_pos, before,
      List.takeWhile_cons_of_pos hn, List.length_cons]
    omega
  · simp only [Pi.add_apply, Function.update_of_ne hj, stepsAhead, if_neg hj]

/-- The loop of `EstimateCount`, started to the left of the key. -/
theorem estimateCountStepsLoop_returns (h : L.Shape c.links chain) (steps : ℕ → ℕ)
    (hlevel : level < L.kMaxHeight) (l₁ l₂ : List Node) (hl : chain level = l₁ ++ l₂)
    (hx : l₁.getLastD L.head = x)
    (hleft : L.Left a x) (hcount : count < 2 ^ 64)
    (hfuel : l₂.length + level * ((chain 0).length + 1) < fuel) :
    Returns execSolo
      (L.estimateCountStepsLoop kBranching (L.cmp.decodeKey a) fuel level x count
        steps) c fun r c' =>
        c' = c ∧ r.2 = steps + L.stepsAhead chain a level l₂ ∧
        r.1 = toUInt64 ((count + (before (L.isBefore a) l₂).length) * kBranching ^ level +
          ∑ j ∈ range level, (L.stepped chain a j).length * kBranching ^ j) := by
  -- induction on the fuel, which covers the rest of this level and all levels below
  induction fuel generalizing level l₁ l₂ x count steps with
  | zero => exact absurd hfuel (Nat.not_lt_zero _)
  | succ fuel ih =>
    obtain ⟨hmem, hnext⟩ := h.next_of_split hlevel hl hx
    have hcheck : (x = L.head || L.cmp.compareDecoded (L.key x) (L.cmp.decodeKey a) < 0) = true :=
      keyIsAfterNode_of_left hleft
    rw [estimateCountStepsLoop, check_bind_of hcheck, returns_next]
    by_cases hright : L.Right a (c.links.next x level)
    · rw [if_pos (stops_iff.mpr hright)]
      have hnil : before (L.isBefore a) l₂ = [] := before_eq_nil (hnext ▸ hright)
      rw [hnil, List.length_nil, Nat.add_zero]
      cases level with
      | zero =>
        refine ⟨rfl, ?_, ?_⟩
        · rw [stepsAhead_zero hnil]
          exact (add_zero steps).symm
        · rw [range_zero, sum_empty, Nat.pow_zero, Nat.mul_one, Nat.add_zero, toUInt64_of_lt hcount]
      | succ level =>
        -- the walk goes down, to the part of the level below behind the predecessor
        obtain ⟨hpred, -⟩ := h.eq_neighbours hlevel hmem hleft hright
        obtain ⟨l₁', l₂', hl', hx', hlen⟩ := h.split_below hmem
        have hstepped := h.stepped_eq hl' (hx'.trans hpred)
        refine (ih _ (Nat.lt_of_succ_lt hlevel) l₁' l₂' hl' hx' hleft (toUInt64_lt _) ?_).mono ?_
        · rw [Nat.succ_mul] at hfuel
          omega
        · rintro r c' ⟨rfl, hsteps, hr⟩
          refine ⟨rfl, ?_, ?_⟩
          · rw [hsteps, stepsAhead_succ hnil hstepped]
          · rw [hr, toUInt64_linear, sum_range_succ, hstepped, add_mul,
              Nat.pow_succ', Nat.mul_assoc,
              add_assoc, add_comm (_ * kBranching ^ level)]
    · rw [if_neg (mt stops_iff.mp hright)]
      cases l₂ with
      | nil => exact absurd right_none (hnext ▸ hright)
      | cons n l₂ =>
        rw [hnext] at hright ⊢
        have hna : L.cmp.Lt (L.key n) a := not_not.mp (mt right_some.mpr hright)
        have hbefore : before (L.isBefore a) (n :: l₂) = n :: before (L.isBefore a) l₂ :=
          List.takeWhile_cons_of_pos (isBefore_iff.mpr hna)
        refine (ih _ hlevel (l₁ ++ [n]) l₂ ?_ List.getLastD_concat (Or.inr hna)
          (toUInt64_lt _) ?_).mono ?_
        · rw [hl, List.append_assoc, List.singleton_append]
        · simp only [List.length_cons] at hfuel
          omega
        · rintro r c' ⟨rfl, hsteps, hr⟩
          refine ⟨rfl, ?_, ?_⟩
          · rw [hsteps, update_add_stepsAhead (isBefore_iff.mpr hna)]
          · rw [hr, toUInt64_linear, hbefore, List.length_cons, add_assoc, add_comm 1]

omit [DecidableEq Node] in
/-- The walk starts at the head, which is the predecessor of the key on all levels that are not in
use. -/
lemma predAt_of_nil (hnil : before (L.isBefore a) (chain i) = []) :
    L.predAt chain a i = L.head := by
  rw [predAt, hnil]
  rfl

omit [DecidableEq Node] in
/-- No node is linked on the levels that are not in use. -/
lemma Shape.eq_nil {s : Links Node} (h : L.Shape s chain) (hi : s.maxHeight ≤ i) : chain i = [] :=
  List.eq_nil_iff_forall_not_mem.mpr fun _ hn => absurd (h.lt_maxHeight hn) (not_lt.mpr hi)

omit [DecidableEq Node] in
/-- The chains are the levels of the list. -/
lemma Shape.levels {s : Links Node} (h : L.Shape s chain) : L.Levels s chain :=
  ⟨fun i hi => h.linked i (lt_of_lt_of_le hi h.maxHeight_le), fun _ hi => h.eq_nil hi⟩

/-- `EstimateCount` steps on the nodes that the list determines, and its count is the weighted sum,
wrapped around. -/
theorem estimateCountSteps_returns (h : L.Shape c.links chain) (kBranching : ℕ) (a : Key)
    (hfuel : L.kMaxHeight * ((chain 0).length + 1) < fuel) :
    Returns execSolo (L.estimateCountSteps kBranching fuel a) c fun r c' => c' = c ∧
      (∀ i, r.2 i = (L.stepped chain a i).length) ∧
      r.1 = toUInt64 (∑ i ∈ range c.links.maxHeight,
        (L.stepped chain a i).length * kBranching ^ i) := by
  have hpos := h.maxHeight_pos
  have hle := h.maxHeight_le
  obtain ⟨top, htop⟩ : ∃ top, c.links.maxHeight = top + 1 := ⟨c.links.maxHeight - 1, by omega⟩
  have hnil : ∀ i, top < i → chain i = [] := fun i hi => h.eq_nil (by omega)
  have hlen := h.length_le top
  have hmul := Nat.mul_le_mul_right ((chain 0).length + 1) (htop ▸ hle)
  rw [Nat.succ_mul] at hmul
  have hstepped : L.stepped chain a top = before (L.isBefore a) (chain top) := by
    refine h.stepped_eq (List.nil_append _).symm (predAt_of_nil ?_).symm
    rw [hnil (top + 1) (Nat.lt_succ_self top)]
    rfl
  rw [estimateCountSteps, returns_getMaxHeight, htop, Nat.add_sub_cancel]
  refine (estimateCountStepsLoop_returns h (fun _ => 0) (by omega) [] (chain top) rfl rfl
    (Or.inl rfl) (by decide) (by omega)).mono ?_
  rintro r c' ⟨rfl, hsteps, hr⟩
  refine ⟨rfl, fun i => ?_, ?_⟩
  · rw [hsteps, Pi.add_apply, Nat.zero_add, stepsAhead]
    rcases lt_trichotomy i top with hi | rfl | hi
    · rw [if_neg (by omega), if_pos hi]
    · rw [if_pos rfl, hstepped]
    · rw [if_neg (by omega), if_neg (by omega), stepped, hnil i hi]
      rfl
  · rw [hr, sum_range_succ, hstepped, Nat.zero_add, add_comm]

/-! ## When the count is exact -/

variable {s : Links Node}

/-- What the count says, if nothing wraps around: it is the weighted sum of the steps, it is `0`
exactly if no smaller key is stored, and it is the number of smaller keys if all nodes have height
`1`. -/
structure CountExact (L : InlineSkipList Key DecodedKey Node) (kBranching : ℕ) (s : Links Node)
    (chain : ℕ → List Node) (a : Key) (count : ℕ) (steps : ℕ → ℕ) : Prop where
  /-- The weighted sum. -/
  sum : count = ∑ i ∈ range s.maxHeight, steps i * kBranching ^ i
  /-- Smaller keys are noticed. -/
  zero_iff : count = 0 ↔ ∀ n ∈ chain 0, ¬L.cmp.Lt (L.key n) a
  /-- Without upper levels the count is the number of smaller keys. -/
  flat : (∀ n ∈ chain 0, L.unstashHeight n = 1) →
    count = ((chain 0).filter (L.isBefore a)).length

omit [DecidableEq Node] in
/-- If the walk steps nowhere, no node comes before the key. -/
lemma Shape.before_eq_nil (h : L.Shape s chain) (hnone : ∀ i, L.stepped chain a i = [])
    (hi : i ≤ s.maxHeight) : before (L.isBefore a) (chain i) = [] := by
  -- from the highest level down
  induction hi using Nat.decreasingInduction with
  | self =>
    rw [h.eq_nil le_rfl]
    rfl
  | of_succ i _ ih =>
    rw [← h.stepped_eq (List.nil_append _).symm (predAt_of_nil ih).symm, hnone]

omit [DecidableEq Node] in
/-- The weighted sum is `0` exactly if no smaller key is stored. -/
lemma Shape.sum_stepped_eq_zero_iff (h : L.Shape s chain) (hbranching : 1 < kBranching) :
    ∑ i ∈ range s.maxHeight, (L.stepped chain a i).length * kBranching ^ i = 0 ↔
      ∀ n ∈ chain 0, ¬L.cmp.Lt (L.key n) a := by
  have hpow : ∀ i, kBranching ^ i ≠ 0 := fun i => pow_ne_zero i (by omega)
  rw [sum_eq_zero_iff]
  constructor
  · intro hsum n hn hna
    have hnone : ∀ i, L.stepped chain a i = [] := by
      intro i
      by_cases hi : i < s.maxHeight
      · have hi0 := (Nat.mul_eq_zero.mp (hsum i (mem_range.mpr hi))).resolve_right (hpow i)
        exact List.length_eq_zero_iff.mp hi0
      · rw [stepped, h.eq_nil (not_lt.mp hi)]
        rfl
    have hnil := h.before_eq_nil hnone (Nat.zero_le _)
    rw [(cut_eq_filter (h.sorted 0) (isBefore_of_nodeLt a)).1, List.filter_eq_nil_iff] at hnil
    exact hnil n hn (isBefore_iff.mpr hna)
  · intro hnot i _
    have hnone : L.stepped chain a i = [] := List.filter_eq_nil_iff.mpr fun n hn hstep =>
      hnot n (h.mem_of_le (Nat.zero_le i) hn) (decide_eq_true_iff.mp hstep).1
    rw [hnone, List.length_nil, Nat.zero_mul]

omit [DecidableEq Node] in
/-- If all nodes have height `1`, the weighted sum is the number of smaller keys. -/
lemma Shape.sum_stepped_of_flat (h : L.Shape s chain)
    (hflat : ∀ n ∈ chain 0, L.unstashHeight n = 1) :
    ∑ i ∈ range s.maxHeight, (L.stepped chain a i).length * kBranching ^ i =
      ((chain 0).filter (L.isBefore a)).length := by
  have hnil : ∀ i, chain (i + 1) = [] := by
    refine fun i => List.eq_nil_iff_forall_not_mem.mpr fun n hn => ?_
    have hlt := (h.height (i + 1) n hn).1
    rw [hflat n (h.mem_of_le (Nat.zero_le _) hn)] at hlt
    omega
  rw [sum_eq_single_of_mem 0 (mem_range.mpr h.maxHeight_pos) fun i _ hi => ?_, Nat.pow_zero,
    Nat.mul_one, h.stepped_eq (List.nil_append _).symm (predAt_of_nil ?_).symm,
    (cut_eq_filter (h.sorted 0) (isBefore_of_nodeLt a)).1]
  · rw [hnil 0]
    rfl
  · obtain ⟨j, rfl⟩ := Nat.exists_eq_succ_of_ne_zero hi
    rw [stepped, hnil j]
    exact Nat.zero_mul _

omit [DecidableEq Node] in
/-- The count is exact if and only if the weighted sum is not wrapped around. -/
lemma Shape.countExact_iff (h : L.Shape s chain) (hbranching : 1 < kBranching)
    (hsteps : ∀ i, steps i = (L.stepped chain a i).length)
    (hcount : count = toUInt64 (∑ i ∈ range s.maxHeight,
      (L.stepped chain a i).length * kBranching ^ i)) :
    L.CountExact kBranching s chain a count steps ↔
      ∑ i ∈ range s.maxHeight, (L.stepped chain a i).length * kBranching ^ i < 2 ^ 64 := by
  have hsum : ∑ i ∈ range s.maxHeight, steps i * kBranching ^ i =
      ∑ i ∈ range s.maxHeight, (L.stepped chain a i).length * kBranching ^ i :=
    sum_congr rfl fun i _ => by rw [hsteps]
  constructor
  · intro hexact
    rw [← hsum, ← hexact.sum, hcount]
    exact toUInt64_lt _
  · intro hfits
    rw [toUInt64_of_lt hfits] at hcount
    refine ⟨hcount.trans hsum.symm, ?_, fun hflat => hcount.trans (h.sum_stepped_of_flat hflat)⟩
    rw [hcount]
    exact h.sum_stepped_eq_zero_iff hbranching

/-- **When `EstimateCount` is exact.**  On a reachable list and for every key, the walk steps on
each level on the nodes with smaller keys that come behind all such nodes of the level above.  The
count is exact if and only if the sum of their numbers, weighted by the powers of the branching
factor, fits into 64 bits. -/
theorem estimateCount_exact_iff {s : ListState Node ι} (h : L.Reachable s)
    (hbranching : 1 < kBranching) : ∃ chain, L.Levels s.links chain ∧
      ∃ N, ∀ fuel ≥ N, ∀ c : Solo Node, c.links = s.links → ∀ a : Key, ∃ count steps,
        run execSolo (L.estimateCount kBranching fuel a) c = .done count c ∧
        run execSolo (L.estimateCountSteps kBranching fuel a) c = .done (count, steps) c ∧
        (∀ i, steps i = (L.stepped chain a i).length) ∧
        (L.CountExact kBranching s.links chain a count steps ↔
          ∑ i ∈ range s.links.maxHeight, (L.stepped chain a i).length * kBranching ^ i <
            2 ^ 64) := by
  obtain ⟨chain, hc⟩ := h.consistent
  have hS := hc.shape
  refine ⟨chain, hS.levels, L.kMaxHeight * ((chain 0).length + 1) + 1, ?_⟩
  rintro fuel hfuel c hlinks a
  rw [← hlinks] at hS ⊢
  obtain ⟨⟨count, steps⟩, c', hrun, rfl, hsteps, hcount⟩ := returns_iff_run.mp
    (estimateCountSteps_returns hS kBranching a hfuel)
  have hcount' : run execSolo (L.estimateCount kBranching fuel a) c' = .done count c' := by
    rw [← estimateCountSteps_fst, run_bind_of hrun]
    rfl
  exact ⟨count, steps, hcount', hrun, hsteps, hS.countExact_iff hbranching hsteps hcount⟩

/-! ## A count that is exact, and one that is not -/

/-- `estimateCount_exact_iff` for the list with three integers: the walk to the key `3` takes two
steps, both on the highest level, where each counts for `16`. -/
theorem integers_estimateCount_exact_iff : ∃ fuel steps,
    run execSolo (integers.estimateCount 4 fuel 3) ⟨(integersAfter threeCalls).links, 0⟩ =
      .done 32 ⟨(integersAfter threeCalls).links, 0⟩ ∧
    run execSolo (integers.estimateCountSteps 4 fuel 3) ⟨(integersAfter threeCalls).links, 0⟩ =
      .done (32, steps) ⟨(integersAfter threeCalls).links, 0⟩ ∧
    (steps 0, steps 1, steps 2) = (0, 0, 2) := by
  obtain ⟨chain, ⟨hlevels, hnone⟩, N, h⟩ :=
    estimateCount_exact_iff threeCalls_reachable (by decide : 1 < 4)
  have h0 : chain 0 = [2, 5, 7] := (hlevels 0 (by decide)).unique ⟨rfl, rfl, rfl, rfl⟩
  have h1 : chain 1 = [2, 5, 7] := (hlevels 1 (by decide)).unique ⟨rfl, rfl, rfl, rfl⟩
  have h2 : chain 2 = [2, 5] := (hlevels 2 (by decide)).unique ⟨rfl, rfl, rfl⟩
  have h3 : chain 3 = [] := hnone 3 (by decide)
  obtain ⟨count, steps, hrun, hrun', hsteps, hexact⟩ := h N le_rfl ⟨_, 0⟩ rfl (3 : ℤ)
  have hs0 : steps 0 = 0 := by
    rw [hsteps, stepped, h0, h1]
    rfl
  have hs1 : steps 1 = 0 := by
    rw [hsteps, stepped, h1, h2]
    rfl
  have hs2 : steps 2 = 2 := by
    rw [hsteps, stepped, h2, h3]
    rfl
  have hmax : (integersAfter threeCalls).links.maxHeight = 3 := rfl
  simp only [← hsteps, hmax, sum_range_succ, range_zero, sum_empty, hs0, hs1, hs2] at hexact
  have hcount := (hexact.mpr (by decide)).sum
  simp only [hmax, sum_range_succ, range_zero, sum_empty, hs0, hs1, hs2] at hcount
  obtain rfl : count = 32 := hcount
  exact ⟨N, steps, hrun, hrun', by rw [hs0, hs1, hs2]⟩

/-- A list of six levels, all of whose nodes have height `6`. -/
def tower : InlineSkipList ℤ ℤ ℕ :=
  { integers with
    kMaxHeight := 6
    unstashHeight := fun _ => 6 }

/-- The list that the constructor leaves behind. -/
def towerStart : ListState ℕ Unit := tower.initial (fun _ _ => none) (fun _ _ => 0) fun _ _ => none

/-- The list after the insertion of the node `2`, which has the key `1`. -/
def towerState : ListState ℕ Unit :=
  match tower.runCall 20 ⟨2, .insert, 0⟩ towerStart with
  | .done _ s => s
  | _ => towerStart

/-- The list with one integer is reachable. -/
lemma towerState_reachable : tower.Reachable towerState := by
  have hstart : tower.Reachable towerStart := .initial _ _ _ (by decide)
  have hempty : tower.LevelChain towerStart.links 0 [] := rfl
  refine .call ⟨2, .insert, 0⟩ true hstart ⟨by decide, by decide, by decide⟩
    (hempty.not_linkedAt (by decide)) ⟨12, fun fuel h => ?_⟩
  obtain ⟨k, rfl⟩ := Nat.exists_eq_add_of_le' h
  rfl

/-- With a branching factor of `32768` the only smaller key counts for `2 ^ 75`, and the returned
count is `0`. -/
theorem estimateCount_wraps : tower.kMaxHeight ≤ kMaxPossibleHeight ∧
    tower.Reachable towerState ∧ tower.LinkedAt towerState.links 0 2 ∧
    tower.cmp.Lt (tower.key 2) 2 ∧ ∃ steps, ∀ fuel ≥ 8,
      run execSolo (tower.estimateCount 32768 fuel 2) ⟨towerState.links, 0⟩ =
        .done 0 ⟨towerState.links, 0⟩ ∧
      run execSolo (tower.estimateCountSteps 32768 fuel 2) ⟨towerState.links, 0⟩ =
        .done (0, steps) ⟨towerState.links, 0⟩ ∧
      ∑ i ∈ range towerState.links.maxHeight, steps i * 32768 ^ i = 2 ^ 75 := by
  refine ⟨by decide, towerState_reachable, ⟨[2], ⟨rfl, rfl⟩, by decide⟩, by decide,
    Function.update (fun _ => 0) 5 1, fun fuel h => ?_⟩
  obtain ⟨k, rfl⟩ := Nat.exists_eq_add_of_le' h
  exact ⟨rfl, rfl, rfl⟩

end InlineSkipList

end PmemKv
