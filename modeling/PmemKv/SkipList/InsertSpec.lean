import PmemKv.SkipList.SearchSpec

/-!
# The specification of `Insert<UseCAS>`

An insertion that runs alone, through any splice that is empty or nested, with or without
compare-and-swap and with or without partial repair, does one of two things: if an equal key is
stored it leaves every chain as it is and returns `false`, otherwise it puts the new node at its
place on each level below its height and returns `true`.  It violates no assertion, and the splice
it leaves behind is again empty or nested.  In particular the outcome does not depend on the splice.
-/

namespace PmemKv

open AtomicProg AtomicProg.Prog LinkedChain

namespace InlineSkipList

variable {Key DecodedKey Node : Type} (L : InlineSkipList Key DecodedKey Node)

/-- The chains after the node `x` has been linked on the levels below `k`. -/
def linkUpTo (x : Node) (chain : ℕ → List Node) (k : ℕ) : ℕ → List Node := fun j =>
  if j < k then L.insertNode x (chain j) else chain j

/-- A node that may be inserted: it is in no chain and its stashed height is one that the list
admits. -/
structure Fresh (chain : ℕ → List Node) (x : Node) : Prop where
  /-- It is not the head. -/
  ne_head : x ≠ L.head
  /-- It is not linked. -/
  notMem : ∀ i, x ∉ chain i
  /-- Its height is positive. -/
  height_pos : 1 ≤ L.unstashHeight x
  /-- Its height is at most `kMaxHeight_`. -/
  height_le : L.unstashHeight x ≤ L.kMaxHeight

/-- What holds in front of the level `i` when the new node has been linked on the levels below and
the levels below `m` of the splice were recomputed. -/
structure Linking (chain : ℕ → List Node) (x : Node) (m : ℕ) (s : Links Node)
    (splice : Splice Node) (i : ℕ) : Prop where
  /-- The node is in the chains below `i`. -/
  shape : L.Shape s (L.linkUpTo x chain i)
  /-- Below `i` the splice holds the neighbours the node was linked between, and below `m` those
  that the recomputation found. -/
  exact : ∀ j, j < i ∨ j < m → L.Exact chain (L.key x) splice j
  /-- From `i` on the splice brackets the key. -/
  brackets : L.BracketsFrom s chain (L.key x) splice i

variable {L} {chain : ℕ → List Node} {x p : Node} {i m : ℕ} {s : Links Node} {splice : Splice Node}

@[simp] lemma linkUpTo_zero : L.linkUpTo x chain 0 = chain := by
  funext j
  simp [linkUpTo]

lemma linkUpTo_self (i : ℕ) : L.linkUpTo x chain i i = chain i := by simp [linkUpTo]

lemma linkUpTo_succ (i : ℕ) : L.linkUpTo x chain (i + 1) =
    Function.update (L.linkUpTo x chain i) i (L.insertNode x (L.linkUpTo x chain i i)) := by
  funext j
  rcases lt_trichotomy j i with h | rfl | h
  · simp [linkUpTo, h.ne, h, Nat.lt_succ_of_lt h]
  · simp [linkUpTo]
  · simp [linkUpTo, h.ne', not_lt.mpr h.le, not_lt.mpr (Nat.succ_le_of_lt h)]

lemma mem_linkUpTo {n : Node} {j k : ℕ} :
    n ∈ L.linkUpTo x chain k j ↔ (j < k ∧ n = x) ∨ n ∈ chain j := by
  unfold linkUpTo
  split
  · next h => simp [Shape.mem_insertNode, h]
  · next h => simp [h]

lemma predAt_linkUpTo (a : Key) (i : ℕ) :
    L.predAt (L.linkUpTo x chain i) a i = L.predAt chain a i := by
  simp [predAt, linkUpTo_self]

lemma succAt_linkUpTo (a : Key) (i : ℕ) :
    L.succAt (L.linkUpTo x chain i) a i = L.succAt chain a i := by
  simp [succAt, linkUpTo_self]

/-- The bracketing levels from `i` on include those from `i + 1` on. -/
lemma BracketsFrom.succ {a : Key} (hb : L.BracketsFrom s chain a splice i)
    (hi : i < splice.height) : L.BracketsFrom s chain a splice (i + 1) where
  height_le := hb.height_le
  le_height := hi
  prev_height := hb.prev_height
  next_height := hb.next_height
  prev_mem j hj := hb.prev_mem j (Nat.le_of_succ_le hj)
  next_mem j hj := hb.next_mem j (Nat.le_of_succ_le hj)
  lePrev j hj := hb.lePrev j (Nat.le_of_succ_le hj)
  leNext j hj := hb.leNext j (Nat.le_of_succ_le hj)
  left j hj := hb.left j (Nat.le_of_succ_le hj)
  right j hj := hb.right j (Nat.le_of_succ_le hj)

/-- The bracketing levels above `i` do not depend on the entries of level `i`. -/
lemma BracketsFrom.setLevel_succ {a : Key} (hb : L.BracketsFrom s chain a splice (i + 1)) (p : Node)
    (n : Option Node) : L.BracketsFrom s chain a (splice.setLevel i p n) (i + 1) := by
  have hne : ∀ j, i + 1 ≤ j → (splice.setLevel i p n).prev j = splice.prev j ∧
      (splice.setLevel i p n).next j = splice.next j := by
    intro j hj
    rw [Splice.setLevel_prev, Splice.setLevel_next, if_neg (by omega), if_neg (by omega)]
    exact ⟨rfl, rfl⟩
  have hh := hb.le_height
  refine ⟨hb.height_le, hb.le_height, ?_, ?_, fun j hj hlt => ?_, fun j hj hlt => ?_,
    fun j hj hlt => ?_, fun j hj hlt => ?_, fun j hj hle => ?_, fun j hj hle => ?_⟩
  · rw [Splice.setLevel_height, (hne _ hh).1]
    exact hb.prev_height
  · rw [Splice.setLevel_height, (hne _ hh).2]
    exact hb.next_height
  · rw [(hne j hj).1]
    exact hb.prev_mem j hj hlt
  · rw [(hne j hj).2]
    exact hb.next_mem j hj hlt
  · rw [(hne j hj).1, (hne (j + 1) (by omega)).1]
    exact hb.lePrev j hj hlt
  · rw [(hne j hj).2, (hne (j + 1) (by omega)).2]
    exact hb.leNext j hj hlt
  · rw [(hne j hj).1]
    exact hb.left j hj hle
  · rw [(hne j hj).2]
    exact hb.right j hj hle

/-- Bracketing speaks about the memory only through `max_height_`. -/
lemma BracketsFrom.of_maxHeight_eq {a : Key} {s' : Links Node}
    (hb : L.BracketsFrom s chain a splice i) (h : s'.maxHeight = s.maxHeight) :
    L.BracketsFrom s' chain a splice i :=
  { hb with height_le := h ▸ hb.height_le }

/-! ## The duplicate test and the order assertions -/

/-- Two neighbours of the key in a list that does not store it lie strictly around it. -/
lemma lt_of_right {n : Node} (h : L.Shape s chain) (hdup : ¬L.Stored chain (L.key x))
    (hmem : n ∈ chain i) (hright : L.Right (L.key x) (some n)) : L.NodeLt x n := by
  by_contra hlt
  exact hdup ⟨n, h.mem_of_le (Nat.zero_le i) hmem,
    Comparator.equiv_iff.mpr ⟨hlt, right_some.mp hright⟩⟩

variable [DecidableEq Node]

/-- On the exact neighbours of level `0` the duplicate tests find out whether the key is stored. -/
lemma isDuplicate_iff (h : L.Shape s chain) :
    L.isDuplicate x (L.predAt chain (L.key x) 0) (L.succAt chain (L.key x) 0) = true ↔
      L.Stored chain (L.key x) := by
  have hprev : (L.predAt chain (L.key x) 0 ≠ L.head &&
      0 ≤ L.cmp.compare (L.key (L.predAt chain (L.key x) 0)) (L.key x)) = false := by
    rcases Shape.predAt_left L chain (L.key x) 0 with hp | hp
    · simp [hp]
    · simp only [Bool.and_eq_false_iff, decide_eq_false_iff_not, Comparator.compare_nonneg_iff,
        not_not]
      exact Or.inr hp
  rw [isDuplicate, hprev, Bool.or_false, Option.any_eq_true]
  simp only [decide_eq_true_eq, Comparator.compare_nonneg_iff]
  constructor
  · rintro ⟨n, hn, hlt⟩
    exact ⟨n, Shape.succAt_mem hn, Comparator.equiv_iff.mpr ⟨hlt, h.succAt_right n hn⟩⟩
  · rintro ⟨b, hb, he⟩
    obtain ⟨h₁, h₂⟩ := Comparator.equiv_iff.mp he
    obtain ⟨n, hn, hbn⟩ := h.leNext_succAt (a := L.key x) (m := some b)
      (fun c hc => Option.some.inj hc ▸ hb) (right_some.mpr h₂) b rfl
    exact ⟨n, hn, fun hlt => hbn (Comparator.lt_of_not_lt_of_lt h₁ hlt)⟩

/-- The order assertions hold between neighbours of a key that is not stored. -/
lemma inOrder_of_bracket {n : Option Node} (h : L.Shape s chain)
    (hdup : ¬L.Stored chain (L.key x)) (hleft : L.Left (L.key x) p) (hright : L.Right (L.key x) n)
    (hmem : ∀ m, n = some m → m ∈ chain i) : L.inOrder x p n = true := by
  have hp : (decide (p = L.head) || decide (L.cmp.compare (L.key p) (L.key x) < 0)) = true := by
    rcases hleft with hp | hp
    · simp [hp]
    · simp [show L.cmp.compare (L.key p) (L.key x) < 0 from hp]
  rw [inOrder, hp, Bool.and_true]
  cases n with
  | none => rfl
  | some m =>
    rw [Option.all_some, decide_eq_true_eq]
    exact lt_of_right h hdup (hmem m rfl) hright

/-- The duplicate tests and the order assertions are complementary. -/
lemma isDuplicate_eq_not_inOrder {n : Option Node} : L.isDuplicate x p n = !L.inOrder x p n := by
  have hcmp : ∀ a b : Key, decide (0 ≤ L.cmp.compare a b) = !decide (L.cmp.compare a b < 0) := by
    intro a b
    rw [← decide_not]
    exact decide_eq_decide.mpr not_lt.symm
  rw [isDuplicate, inOrder, hcmp, Bool.not_and, Bool.not_or]
  cases n with
  | none => simp
  | some m => simp [hcmp]

/-! ## Linking one level -/

section Level

variable {c : Solo Node} {s₀ : Links Node} {fuel : ℕ}

/-- Writing the new node's word and then its predecessor's word puts it on the next level. -/
lemma Linking.of_link (hshape : L.Shape s (L.linkUpTo x chain i)) (hx : L.Fresh chain x)
    (hi : i < L.unstashHeight x) (hh : L.unstashHeight x ≤ splice.height)
    (hS : L.Shape s₀ chain) (hdup : ¬L.Stored chain (L.key x))
    (hex : ∀ j, j ≤ i ∨ j < m → L.Exact chain (L.key x) splice j)
    (hb : L.BracketsFrom s chain (L.key x) splice (i + 1)) :
    L.Linking chain x m
      ((s.setNext x i (splice.next i)).setNext (splice.prev i) i (some x)) splice (i + 1) := by
  have hnot : x ∉ L.linkUpTo x chain i i := by
    rw [linkUpTo_self]
    exact hx.notMem i
  refine ⟨?_, fun j hj => hex j (hj.imp Nat.le_of_lt_succ id), hb.of_maxHeight_eq rfl⟩
  obtain ⟨hp, hn⟩ := hex i (Or.inl le_rfl)
  rw [linkUpTo_succ, hp, hn, ← predAt_linkUpTo (x := x)]
  refine (hshape.setNext hx.ne_head hnot _).link hx.ne_head hnot ?_ hi (hh.trans hb.height_le) ?_ ?_
  · rcases Nat.eq_zero_or_pos i with h0 | hpos
    · exact Or.inl h0
    · exact Or.inr (mem_linkUpTo.mpr (Or.inl ⟨by omega, rfl⟩))
  · intro b hb
    rw [linkUpTo_self] at hb
    exact fun he => hdup ⟨b, hS.mem_of_le (Nat.zero_le i) hb, he⟩
  · rw [Links.setNext_next_self, succAt_linkUpTo]

omit [DecidableEq Node] in
/-- The word of the predecessor entry, when it agrees with the successor entry, makes both exact. -/
lemma Linking.exact_of_tight (h : L.Linking chain x m c.links splice i) (hk : i < L.kMaxHeight)
    (hi : i < splice.height) (htight : c.links.next (splice.prev i) i = splice.next i) :
    L.Exact chain (L.key x) splice i := by
  have hp : splice.prev i = L.head ∨ splice.prev i ∈ L.linkUpTo x chain i i := by
    rw [linkUpTo_self]
    exact h.brackets.prev_mem i le_rfl hi
  obtain ⟨h₁, h₂⟩ := h.shape.eq_neighbours hk hp (h.brackets.left i le_rfl hi.le)
    (htight ▸ h.brackets.right i le_rfl hi.le)
  rw [predAt_linkUpTo] at h₁
  rw [htight, succAt_linkUpTo] at h₂
  exact ⟨h₁, h₂⟩

/-- A level whose entries are not tight is searched again, from its predecessor entry. -/
lemma Linking.find_returns (h : L.Linking chain x m c.links splice i) (hk : i < L.kMaxHeight)
    (hi : i < splice.height) (hfuel : (chain i).length < fuel) :
    Returns execSolo (L.findSpliceForLevel (L.cmp.decodeKey (L.key x)) none i fuel
      (splice.prev i)) c
      fun r c' => c' = c ∧ r = (L.predAt chain (L.key x) i, L.succAt chain (L.key x) i) := by
  have hp : splice.prev i = L.head ∨ splice.prev i ∈ L.linkUpTo x chain i i := by
    rw [linkUpTo_self]
    exact h.brackets.prev_mem i le_rfl hi
  have hlen : (L.linkUpTo x chain i i).length < fuel := by rwa [linkUpTo_self]
  have := findSpliceForLevel_returns h.shape hk hp (h.brackets.left i le_rfl hi.le) right_none hlen
  rwa [predAt_linkUpTo, succAt_linkUpTo] at this

omit [DecidableEq Node] in
/-- The neighbours of the key entered on a level are exact there; the other levels stay. -/
lemma Linking.exact_setLevel (h : L.Linking chain x m s splice i) :
    ∀ j, j ≤ i ∨ j < m → L.Exact chain (L.key x)
      (splice.setLevel i (L.predAt chain (L.key x) i) (L.succAt chain (L.key x) i)) j := by
  intro j hj
  by_cases hji : j = i
  · simp [Exact, Splice.setLevel_prev, Splice.setLevel_next, hji]
  · simp only [Exact, Splice.setLevel_prev, Splice.setLevel_next, if_neg hji]
    exact h.exact j (hj.imp (fun h => lt_of_le_of_ne h hji) id)

omit [DecidableEq Node] in
/-- Exactness of the level in question extends exactness below it. -/
lemma Linking.exact_le (h : L.Linking chain x m s splice i)
    (hex : L.Exact chain (L.key x) splice i) :
    ∀ j, j ≤ i ∨ j < m → L.Exact chain (L.key x) splice j := by
  intro j hj
  by_cases hji : j = i
  · rwa [hji]
  · exact h.exact j (hj.imp (fun h => lt_of_le_of_ne h hji) id)

/-- What the body of one of the two linking loops does on a level when the key is not stored. -/
def LinksLevel (L : InlineSkipList Key DecodedKey Node) (chain : ℕ → List Node) (x : Node) (m : ℕ)
    (body : ℕ → Splice Node → Bool → ListProg Node (LevelResult Node)) : Prop :=
  ∀ i < L.unstashHeight x, ∀ (c : Solo Node) (splice : Splice Node) (valid : Bool),
    L.Linking chain x m c.links splice i → L.unstashHeight x ≤ splice.height →
    L.kMaxHeight < splice.size →
    Returns execSolo (body i splice valid) c fun r c' =>
      r.1 = true ∧ L.Linking chain x m c'.links r.2.1 (i + 1) ∧
        c'.links.maxHeight = c.links.maxHeight ∧
        r.2.1.size = splice.size ∧ r.2.1.height = splice.height

/-- The repair of a level leaves exact entries. -/
theorem repairLevel_returns (h : L.Linking chain x m c.links splice i) (hk : i < L.kMaxHeight)
    (hi : i < splice.height) (hsize : i < splice.size) (hfuel : (chain i).length < fuel) :
    Returns execSolo (L.repairLevel fuel (L.cmp.decodeKey (L.key x)) m i splice) c fun r c' =>
      c' = c ∧ (r.size = splice.size ∧ r.height = splice.height) ∧
        L.BracketsFrom c.links chain (L.key x) r (i + 1) ∧
        (∀ j, j ≤ i ∨ j < m → L.Exact chain (L.key x) r j) ∧
        (L.Exact chain (L.key x) splice i → r = splice) := by
  rw [repairLevel]
  split
  · rw [Splice.readPrev_of_lt hsize, done_bind, Splice.readNext_of_lt hsize, done_bind,
      returns_next]
    split
    · next hne =>
      refine Returns.bind_of (h.find_returns hk hi hfuel) ?_
      rintro _ _ ⟨rfl, rfl⟩
      rw [Splice.writeLevel_of_lt hsize]
      refine ⟨rfl, ⟨rfl, rfl⟩, (h.brackets.succ hi).setLevel_succ _ _,
        h.exact_setLevel, fun hex => ?_⟩
      have hnext := h.shape.next_predAt (a := L.key x) hk
      rw [predAt_linkUpTo, succAt_linkUpTo, ← hex.1, ← hex.2] at hnext
      exact absurd hnext hne
    · next htight =>
      refine ⟨rfl, ⟨rfl, rfl⟩, h.brackets.succ hi, h.exact_le ?_, fun _ => rfl⟩
      exact h.exact_of_tight hk hi (by simpa using htight)
  · next hm =>
    exact ⟨rfl, ⟨rfl, rfl⟩, h.brackets.succ hi, h.exact_le (h.exact i (Or.inr (not_le.mp hm))),
      fun _ => rfl⟩

/-- The branch without compare-and-swap links the levels. -/
theorem linkLevel_linksLevel (hS : L.Shape s₀ chain) (hx : L.Fresh chain x)
    (hdup : ¬L.Stored chain (L.key x)) (hfuel : ∀ i, (chain i).length < fuel) :
    L.LinksLevel chain x m fun i splice valid =>
      L.linkLevel fuel x (L.cmp.decodeKey (L.key x)) m i splice valid := by
  intro i hi c splice valid h hh hsize
  have hk : i < L.kMaxHeight := lt_of_lt_of_le hi hx.height_le
  have hheight : i < splice.height := lt_of_lt_of_le hi hh
  beta_reduce
  rw [linkLevel]
  refine Returns.bind_of (repairLevel_returns h hk hheight (hk.trans hsize) (hfuel i)) ?_
  rintro r c' ⟨rfl, ⟨hrsize, hrheight⟩, hb, hex, -⟩
  have hir : i < r.size := by omega
  obtain ⟨hp, hn⟩ := hex i (Or.inl le_rfl)
  have hord : L.inOrder x (r.prev i) (r.next i) = true := by
    rw [hp, hn]
    exact inOrder_of_bracket hS hdup (Shape.predAt_left L chain _ i) hS.succAt_right fun _ =>
      Shape.succAt_mem
  have hnext : c'.links.next (r.prev i) i = r.next i := by
    have := h.shape.next_predAt (a := L.key x) hk
    rwa [predAt_linkUpTo, succAt_linkUpTo, ← hp, ← hn] at this
  rw [Splice.readNext_of_lt hir, done_bind, Splice.readPrev_of_lt hir, done_bind,
    if_neg (by simp [isDuplicate_eq_not_inOrder, hord]), check_bind_of hord, returns_next,
    check_bind_of (by simpa using hnext), returns_setNext, returns_setNext]
  exact ⟨rfl, Linking.of_link h.shape hx hi (hrheight ▸ hh) hS hdup hex hb, rfl, hrsize, hrheight⟩

/-- The compare-and-swap branch links a level whose entries are exact. -/
lemma linkLevelCAS_returns_of_exact (splice : Splice Node) (hS : L.Shape s₀ chain)
    (hx : L.Fresh chain x)
    (hdup : ¬L.Stored chain (L.key x)) (hi : i < L.unstashHeight x)
    (hh : L.unstashHeight x ≤ splice.height) (hsize : L.kMaxHeight < splice.size)
    (hshape : L.Shape c.links (L.linkUpTo x chain i))
    (hex : ∀ j, j ≤ i ∨ j < m → L.Exact chain (L.key x) splice j)
    (hb : L.BracketsFrom c.links chain (L.key x) splice (i + 1)) (hfuel : 0 < fuel)
    (valid : Bool) :
    Returns execSolo (L.linkLevelCAS x (L.cmp.decodeKey (L.key x)) i fuel splice valid) c
      fun r c' => r.1 = true ∧ L.Linking chain x m c'.links r.2.1 (i + 1) ∧
        c'.links.maxHeight = c.links.maxHeight ∧
        r.2.1.size = splice.size ∧ r.2.1.height = splice.height := by
  have hk : i < L.kMaxHeight := lt_of_lt_of_le hi hx.height_le
  have his : i < splice.size := hk.trans hsize
  obtain ⟨fuel, rfl⟩ : ∃ f, fuel = f + 1 := ⟨fuel - 1, by omega⟩
  obtain ⟨hp, hn⟩ := hex i (Or.inl le_rfl)
  have hord : L.inOrder x (splice.prev i) (splice.next i) = true := by
    rw [hp, hn]
    exact inOrder_of_bracket hS hdup (Shape.predAt_left L chain _ i) hS.succAt_right fun _ =>
      Shape.succAt_mem
  have hne : splice.prev i ≠ x := by
    rintro he
    rcases Shape.predAt_mem L chain (L.key x) i with hh | hh
    · exact hx.ne_head (by rw [← he, hp, hh])
    · exact hx.notMem i (by rw [← hp, he] at hh; exact hh)
  have hnext : (c.links.setNext x i (splice.next i)).next (splice.prev i) i = splice.next i := by
    rw [Links.setNext_next_of_node_ne _ _ _ _ hne]
    have := hshape.next_predAt (a := L.key x) hk
    rwa [predAt_linkUpTo, succAt_linkUpTo, ← hp, ← hn] at this
  rw [linkLevelCAS, Splice.readNext_of_lt his, done_bind, Splice.readPrev_of_lt his, done_bind,
    if_neg (by simp [isDuplicate_eq_not_inOrder, hord]), check_bind_of hord, returns_setNext,
    returns_casNext_of_eq hnext]
  exact ⟨rfl, Linking.of_link hshape hx hi hh hS hdup hex hb, rfl, rfl, rfl⟩

/-- The compare-and-swap branch links the levels: a level that is not tight costs one failed
attempt and a search. -/
theorem linkLevelCAS_linksLevel (hS : L.Shape s₀ chain) (hx : L.Fresh chain x)
    (hdup : ¬L.Stored chain (L.key x)) (hfuel : ∀ i, (chain i).length + 1 < fuel) :
    L.LinksLevel chain x m fun i splice valid =>
      L.linkLevelCAS x (L.cmp.decodeKey (L.key x)) i fuel splice valid := by
  intro i hi c splice valid h hh hsize
  have hk : i < L.kMaxHeight := lt_of_lt_of_le hi hx.height_le
  have hheight : i < splice.height := lt_of_lt_of_le hi hh
  have his : i < splice.size := hk.trans hsize
  by_cases htight : c.links.next (splice.prev i) i = splice.next i
  · exact linkLevelCAS_returns_of_exact splice hS hx hdup hi hh hsize h.shape
      (h.exact_le (h.exact_of_tight hk hheight htight)) (h.brackets.succ hheight)
      (by have := hfuel 0; omega) valid
  · have hpm := h.brackets.prev_mem i le_rfl hheight
    have hord : L.inOrder x (splice.prev i) (splice.next i) = true :=
      inOrder_of_bracket hS hdup (h.brackets.left i le_rfl hheight.le)
        (h.brackets.right i le_rfl hheight.le) (h.brackets.next_mem i le_rfl hheight)
    have hne : splice.prev i ≠ x := by
      rintro he
      rcases hpm with hh | hh
      · exact hx.ne_head (he ▸ hh)
      · exact hx.notMem i (he ▸ hh)
    have hnot : x ∉ L.linkUpTo x chain i i := by
      rw [linkUpTo_self]
      exact hx.notMem i
    obtain ⟨fuel, rfl⟩ : ∃ f, fuel = f + 1 := ⟨fuel - 1, by have := hfuel 0; omega⟩
    beta_reduce
    rw [linkLevelCAS, Splice.readNext_of_lt his, done_bind, Splice.readPrev_of_lt his, done_bind,
      if_neg (by simp [isDuplicate_eq_not_inOrder, hord]), check_bind_of hord, returns_setNext,
      returns_casNext_of_ne (by rwa [Links.setNext_next_of_node_ne _ _ _ _ hne])]
    -- the failed attempt wrote the new node's own word, which is in no chain yet
    have h' : L.Linking chain x m (c.links.setNext x i (splice.next i)) splice i :=
      ⟨h.shape.setNext hx.ne_head hnot _, h.exact, h.brackets.of_maxHeight_eq rfl⟩
    refine Returns.bind_of (h'.find_returns hk hheight (by have := hfuel i; omega)) ?_
    rintro _ c' ⟨rfl, rfl⟩
    rw [Splice.writeLevel_of_lt his, done_bind]
    have hsize' : L.kMaxHeight <
        (splice.setLevel i (L.predAt chain (L.key x) i) (L.succAt chain (L.key x) i)).size := hsize
    refine linkLevelCAS_returns_of_exact
      (c := { c with links := c.links.setNext x i (splice.next i) })
      (splice.setLevel i (L.predAt chain (L.key x) i) (L.succAt chain (L.key x) i)) hS hx hdup hi hh
      hsize' h'.shape h'.exact_setLevel ((h'.brackets.succ hheight).setLevel_succ _ _) ?_ _
    have := hfuel i
    omega

/-- The linking loop, started on any level, links all remaining ones. -/
theorem forLevels_returns {body : ℕ → Splice Node → Bool → ListProg Node (LevelResult Node)}
    (hbody : L.LinksLevel chain x m body) {n : ℕ} (hn : i + n = L.unstashHeight x)
    (h : L.Linking chain x m c.links splice i) (hh : L.unstashHeight x ≤ splice.height)
    (hsize : L.kMaxHeight < splice.size) (valid : Bool) :
    Returns execSolo (forLevels body n i splice valid) c fun r c' =>
      r.1 = true ∧ L.Linking chain x m c'.links r.2.1 (L.unstashHeight x) ∧
        c'.links.maxHeight = c.links.maxHeight ∧
        r.2.1.size = splice.size ∧ r.2.1.height = splice.height := by
  induction n generalizing i c splice valid with
  | zero =>
    obtain rfl : i = L.unstashHeight x := hn
    exact ⟨rfl, h, rfl, rfl, rfl⟩
  | succ n ih =>
    rw [forLevels]
    refine Returns.bind_of (hbody i (by omega) c splice valid h hh hsize) ?_
    rintro r c' ⟨hok, hl, hm, hs, hr⟩
    rw [if_pos hok]
    refine (ih (by omega) hl (hr ▸ hh) (hs ▸ hsize) _).mono ?_
    rintro r' c'' ⟨h₁, h₂, h₃, h₄, h₅⟩
    exact ⟨h₁, h₂, h₃.trans hm, h₄.trans hs, h₅.trans hr⟩

/-- On a stored key the linking loop stops on level `0` and changes nothing. -/
theorem forLevels_returns_of_stored (hS : L.Shape c.links chain) (hx : L.Fresh chain x)
    (hdup : L.Stored chain (L.key x)) (hr : L.Ready c.links chain (L.key x) splice m)
    (hheight : 0 < splice.height) (hsize : L.kMaxHeight < splice.size)
    (hfuel : ∀ i, (chain i).length < fuel) (useCAS valid : Bool) :
    Returns execSolo
      (forLevels (fun i splice valid =>
        if useCAS then L.linkLevelCAS x (L.cmp.decodeKey (L.key x)) i fuel splice valid
        else L.linkLevel fuel x (L.cmp.decodeKey (L.key x)) m i splice valid)
        (L.unstashHeight x) 0 splice valid) c fun r c' =>
      r = (false, splice, valid) ∧ c' = c := by
  have h0 : 0 < splice.size := by omega
  have hisdup : L.isDuplicate x (splice.prev 0) (splice.next 0) = true := by
    rw [hr.exact_zero.1, hr.exact_zero.2]
    exact (isDuplicate_iff hS).mpr hdup
  have hlink : L.Linking chain x m c.links splice 0 :=
    ⟨by rwa [linkUpTo_zero], fun j hj => hr.exact j (hj.resolve_left (Nat.not_lt_zero j)),
      hr.brackets⟩
  obtain ⟨n, hn⟩ : ∃ n, L.unstashHeight x = n + 1 :=
    ⟨L.unstashHeight x - 1, by have := hx.height_pos; omega⟩
  obtain ⟨f, rfl⟩ : ∃ f, fuel = f + 1 := ⟨fuel - 1, by have := hfuel 0; omega⟩
  rw [hn, forLevels]
  cases useCAS with
  | true =>
    rw [if_pos rfl, linkLevelCAS, Splice.readNext_of_lt h0, done_bind, Splice.readPrev_of_lt h0,
      done_bind, if_pos (by simp [hisdup])]
    exact ⟨rfl, rfl⟩
  | false =>
    have hk : 0 < L.kMaxHeight := lt_of_lt_of_le hx.height_pos hx.height_le
    rw [if_neg Bool.false_ne_true, linkLevel, bind_bind]
    refine Returns.bind_of (repairLevel_returns hlink hk hheight h0 (hfuel 0)) ?_
    rintro r c' ⟨rfl, -, -, -, hsame⟩
    obtain rfl := hsame hr.exact_zero
    rw [Splice.readNext_of_lt h0, done_bind, Splice.readPrev_of_lt h0, done_bind,
      if_pos (by simp [hisdup])]
    exact ⟨rfl, rfl⟩

/-! ## The splice after an insertion -/

/-- The splice in which the new node is the predecessor on its own levels. -/
def owned (x : Node) (k : ℕ) (splice : Splice Node) : Splice Node :=
  { splice with prev := fun j => if j < k then x else splice.prev j }

omit [DecidableEq Node] in
/-- `prev_[i] = x` on the levels below `k`. -/
lemma ownLevels_eq {k : ℕ} (hk : k ≤ splice.size) :
    ownLevels x k splice = .done (owned x k splice) := by
  induction k with
  | zero => simp [ownLevels, owned]
  | succ k ih =>
    rw [ownLevels, ih (Nat.le_of_succ_le hk), done_bind,
      Splice.writePrev_of_lt (show k < (owned x k splice).size from hk)]
    congr 1
    simp only [owned, Splice.mk.injEq, and_true, true_and]
    funext j
    simp only [Function.update_apply, Nat.lt_succ_iff_lt_or_eq]
    by_cases hj : j = k
    · simp [hj]
    · simp [hj]

omit [DecidableEq Node] in
/-- After the last level, every successor entry stands to the right of the key, on its level. -/
lemma Linking.next_facts (h : L.Linking chain x m s splice i) (hS : L.Shape s₀ chain) {j : ℕ}
    (hj : j ≤ splice.height) : L.Right (L.key x) (splice.next j) ∧
      ∀ n, splice.next j = some n → n ∈ chain j := by
  by_cases hji : j < i
  · rw [(h.exact j (Or.inl hji)).2]
    exact ⟨hS.succAt_right, fun n hn => Shape.succAt_mem hn⟩
  · refine ⟨h.brackets.right j (not_lt.mp hji) hj, fun n hn => ?_⟩
    rcases Nat.lt_or_eq_of_le hj with hlt | rfl
    · exact h.brackets.next_mem j (not_lt.mp hji) hlt n hn
    · rw [h.brackets.next_height] at hn
      exact absurd hn (by simp)

omit [DecidableEq Node] in
/-- The splice in which the linked node is the predecessor on its own levels is nested if the
successor entries are. -/
lemma BracketsFrom.nested_owned (hb : L.BracketsFrom s chain (L.key x) splice i)
    (hx : x ≠ L.head) (hmem : ∀ j < i, x ∈ chain j)
    (hnext : ∀ j < i, ∀ n, splice.next j = some n → n ∈ chain j)
    (hle : ∀ j < i, L.LeNext (splice.next j) (splice.next (j + 1))) :
    L.Nested s chain (owned x i splice) := by
  refine ⟨hb.height_le, ?_, hb.next_height, fun j hj => ?_, fun j hj n hn => ?_,
    fun j hj => ?_, fun j hj => ?_⟩
  · simp only [owned, if_neg (not_lt.mpr hb.le_height)]
    exact hb.prev_height
  · simp only [owned]
    split
    · next hji => exact Or.inr (hmem j hji)
    · next hji => exact hb.prev_mem j (not_lt.mp hji) hj
  · by_cases hji : j < i
    · exact hnext j hji n hn
    · exact hb.next_mem j (not_lt.mp hji) hj n hn
  · simp only [owned]
    by_cases hji : j < i
    · rw [if_pos hji]
      split
      · exact Or.inr ⟨hx, Comparator.lt_irrefl _⟩
      · next hj1 =>
        rcases hb.left (j + 1) (not_lt.mp hj1) hj with hl | hl
        · exact Or.inl hl
        · exact Or.inr ⟨hx, hl.asymm⟩
    · rw [if_neg hji, if_neg (by omega)]
      exact hb.lePrev j (not_lt.mp hji) hj
  · by_cases hji : j < i
    · exact hle j hji
    · exact hb.leNext j (not_lt.mp hji) hj

omit [DecidableEq Node] in
/-- The splice in which the new node is the predecessor on its own levels is nested. -/
lemma Linking.nested_owned (h : L.Linking chain x m s splice i) (hS : L.Shape s₀ chain)
    (hx : L.Fresh chain x) : L.Nested s (L.linkUpTo x chain i) (owned x i splice) := by
  have hsub : ∀ j n, n ∈ chain j → n ∈ L.linkUpTo x chain i j :=
    fun j n hn => mem_linkUpTo.mpr (Or.inr hn)
  refine (h.brackets.mono le_rfl hsub).nested_owned hx.ne_head
    (fun j hj => mem_linkUpTo.mpr (Or.inl ⟨hj, rfl⟩)) (fun j hj n hn => ?_) (fun j hj => ?_)
  · have hle : j ≤ splice.height := hj.le.trans h.brackets.le_height
    exact hsub j n ((h.next_facts hS hle).2 n hn)
  · obtain ⟨hr, hm⟩ := h.next_facts hS (Nat.succ_le_of_lt (lt_of_lt_of_le hj h.brackets.le_height))
    rw [(h.exact j (Or.inl hj)).2]
    exact hS.leNext_succAt (fun b hb => hS.nested j b (hm b hb)) hr

/-- The assertions on a level of a nested splice that holds around the new node. -/
lemma levelInvariant_of_nested (hS : L.Shape s chain) (hn : L.Nested s chain splice) {j : ℕ}
    (hj : j < splice.height) (hprev : splice.prev j = L.head ∨ ¬L.NodeLt x (splice.prev j))
    (hnext : ∀ n, splice.next j = some n → L.NodeLt x n) : L.levelInvariant x splice j = true := by
  have h₁ : (splice.next j).all (fun n => decide (L.cmp.compare (L.key x) (L.key n) < 0)) = true :=
    (Option.all_eq_true _ _).mpr fun n hn => decide_eq_true (hnext n hn)
  have h₂ : (decide (splice.prev j = L.head) ||
      decide (L.cmp.compare (L.key (splice.prev j)) (L.key x) ≤ 0)) = true := by
    rcases hprev with hp | hp
    · simp [hp]
    · simpa using Or.inr (Comparator.not_lt_iff.mp hp)
  have h₃ : (decide (splice.prev (j + 1) = splice.prev j) ||
      decide (splice.prev (j + 1) = L.head) ||
      decide (L.cmp.compare (L.key (splice.prev (j + 1))) (L.key (splice.prev j)) < 0)) = true := by
    rcases hn.prev_lt hS hj with he | he | hlt
    · simp [he]
    · simp [he]
    · simp [show L.cmp.compare _ _ < 0 from hlt]
  have h₄ : (decide (splice.next (j + 1) = splice.next j) ||
      (splice.next (j + 1)).all fun b =>
        (splice.next j).any fun a => decide (L.cmp.compare (L.key a) (L.key b) < 0)) = true := by
    rcases hn.next_lt hS hj with he | hlt
    · simp [he]
    · refine Bool.or_eq_true_iff.mpr (Or.inr ((Option.all_eq_true _ _).mpr fun b hb => ?_))
      obtain ⟨a, ha, hab⟩ := hlt b hb
      exact (Option.any_eq_true _ _).mpr ⟨a, ha, decide_eq_true hab⟩
  rw [levelInvariant, h₁, h₂, h₃, h₄]
  rfl

/-- The end of a successful insertion violates no assertion, whether the splice is kept, in which
case it must be nested around the new node, or given up. -/
theorem finishSplice_eq {k : ℕ} (valid : Bool) (hS : L.Shape s chain)
    (hsize : splice.height < splice.size) (hk : k ≤ splice.height)
    (hn : valid = true → L.Nested s chain (owned x k splice))
    (hprev : valid = true → ∀ j < splice.height, k ≤ j →
      splice.prev j = L.head ∨ ¬L.NodeLt x (splice.prev j))
    (hnext : valid = true → ∀ j < splice.height, ∀ n, splice.next j = some n → L.NodeLt x n) :
    ∃ r, L.finishSplice x k splice valid = .done r ∧ r.size = splice.size ∧
      L.SpliceInv s chain r := by
  rw [finishSplice]
  split
  · next hv =>
    have hnest := hn hv
    have hrange : ((List.range (owned x k splice).height).all
        fun j => L.levelInvariant x (owned x k splice) j) = true := by
      rw [List.all_eq_true]
      intro j hj
      refine levelInvariant_of_nested hS hnest (List.mem_range.mp hj) ?_
        (hnext hv j (List.mem_range.mp hj))
      simp only [owned]
      split
      · exact Or.inr (Comparator.lt_irrefl _)
      · next hjk => exact hprev hv j (List.mem_range.mp hj) (not_lt.mp hjk)
    refine ⟨owned x k splice, ?_, rfl, Or.inr hnest⟩
    rw [ownLevels_eq (by omega), done_bind,
      Splice.readPrev_of_lt (show (owned x k splice).height < (owned x k splice).size from hsize),
      done_bind, check_bind_of (decide_eq_true hnest.prev_height),
      Splice.readNext_of_lt (show (owned x k splice).height < (owned x k splice).size from hsize),
      done_bind, check_bind_of (decide_eq_true hnest.next_height), check_bind_of hrange]
    rfl
  · exact ⟨_, rfl, rfl, Or.inl rfl⟩

/-- The end of a successful insertion that ran alone. -/
lemma Linking.finishSplice_eq (h : L.Linking chain x m s splice i) (hS : L.Shape s₀ chain)
    (hx : L.Fresh chain x) (hdup : ¬L.Stored chain (L.key x)) (hsize : splice.height < splice.size)
    (valid : Bool) : ∃ r, L.finishSplice x i splice valid = .done r ∧ r.size = splice.size ∧
      L.SpliceInv s (L.linkUpTo x chain i) r := by
  refine InlineSkipList.finishSplice_eq valid h.shape hsize h.brackets.le_height
    (fun _ => h.nested_owned hS hx) (fun _ j hj hij => ?_) (fun _ j hj n hn => ?_)
  · exact (h.brackets.left j hij hj.le).imp id Comparator.Lt.asymm
  · obtain ⟨hright, hmem⟩ := h.next_facts hS hj.le
    exact lt_of_right hS hdup (hmem n hn) (hn ▸ hright)

end Level

/-! ## The whole insertion -/

section Insert

variable {c : Solo Node} {fuel : ℕ}

omit [DecidableEq Node] in
/-- Raising `max_height_` survives any number of spurious failures within the fuel. -/
theorem raiseMaxHeight_returns [DecidableEq Node] {height : ℕ} (hfuel : c.spurious + 1 < fuel) :
    Returns execSolo (raiseMaxHeight height fuel c.links.maxHeight) c fun r c' =>
      r = max c.links.maxHeight height ∧
        c'.links = { c.links with maxHeight := max c.links.maxHeight height } := by
  induction fuel generalizing c with
  | zero => exact absurd hfuel (Nat.not_lt_zero _)
  | succ fuel ih =>
    rw [raiseMaxHeight]
    split
    · next hlt =>
      by_cases hsp : 0 < c.spurious
      · -- a spurious failure reloads the height, which is the same
        have he : execSolo (.casMaxHeight c.links.maxHeight height) c =
            ((false, c.links.maxHeight), { c with spurious := c.spurious - 1 }) := if_pos hsp
        rw [returns_casMaxHeight, he, if_neg Bool.false_ne_true]
        apply ih (c := { c with spurious := c.spurious - 1 })
        change c.spurious - 1 + 1 < fuel
        omega
      · have he : execSolo (.casMaxHeight c.links.maxHeight height) c =
            ((true, c.links.maxHeight),
              { c with links := { c.links with maxHeight := height } }) := by
          rw [execSolo, if_neg hsp, if_pos rfl]
          rfl
        rw [returns_casMaxHeight, he, if_pos rfl, max_eq_right hlt.le]
        exact ⟨rfl, rfl⟩
    · next hge =>
      rw [max_eq_left (not_lt.mp hge)]
      exact ⟨rfl, rfl⟩

/-- The chains after the insertion of `x`: nothing changes if an equal key is stored. -/
def insertChain (L : InlineSkipList Key DecodedKey Node) (x : Node) (chain : ℕ → List Node) :
    ℕ → List Node :=
  if L.Stored chain (L.key x) then chain else L.linkUpTo x chain (L.unstashHeight x)

/-- What `Insert<UseCAS>` does once the height of the list is known. -/
def insertAtHeight (L : InlineSkipList Key DecodedKey Node) (fuel : ℕ) (useCAS : Bool) (x : Node)
    (splice : Splice Node) (allowPartialSpliceFix : Bool) (maxHeight : ℕ) :
    ListProg Node (Bool × Splice Node) := do
  let key := L.cmp.decodeKey (L.key x)
  check (maxHeight ≤ kMaxPossibleHeight)
  let r ← L.prepareSplice fuel key splice maxHeight allowPartialSpliceFix
  check (r.2 ≤ maxHeight)
  let splice ← (if 0 < r.2 then L.recomputeSpliceLevels fuel key r.1 r.2 else pure r.1)
  let body := fun i splice valid =>
    if useCAS then L.linkLevelCAS x key i fuel splice valid
    else L.linkLevel fuel x key r.2 i splice valid
  let l ← forLevels body (L.unstashHeight x) 0 splice true
  if l.1 then do
    let splice ← L.finishSplice x (L.unstashHeight x) l.2.1 l.2.2
    pure (true, splice)
  else pure (false, l.2.1)

/-- `Insert<UseCAS>` checks the height of its node, raises that of the list and goes on from
there. -/
lemma insertWithSplice_eq (useCAS : Bool) (splice : Splice Node) (fix : Bool) :
    L.insertWithSplice fuel useCAS x splice fix = (do
      check (1 ≤ L.unstashHeight x && L.unstashHeight x ≤ L.kMaxHeight)
      let maxHeight ← getMaxHeight
      let maxHeight ← raiseMaxHeight (L.unstashHeight x) fuel maxHeight
      L.insertAtHeight fuel useCAS x splice fix maxHeight) := rfl

/-- From the point where the height of the list is known and covers the node, the insertion of a
fresh node returns whether no equal key was stored, leaves the chains of `insertChain` and a splice
that is again empty or nested. -/
theorem insertAtHeight_returns (hS : L.Shape c.links chain) (hx : L.Fresh chain x)
    (hh : L.unstashHeight x ≤ c.links.maxHeight) (hk : c.links.maxHeight ≤ kMaxPossibleHeight)
    (hi : L.SpliceInv c.links chain splice) (hsize : L.kMaxHeight < splice.size)
    (hfuel : ∀ i, (chain i).length + 1 < fuel) (hfuel' : L.kMaxHeight + 1 < fuel)
    (useCAS fix : Bool) :
    Returns execSolo (L.insertAtHeight fuel useCAS x splice fix c.links.maxHeight) c fun r c' =>
      r.1 = !decide (L.Stored chain (L.key x)) ∧
        L.Shape c'.links (L.insertChain x chain) ∧
        L.SpliceInv c'.links (L.insertChain x chain) r.2 ∧ r.2.size = splice.size ∧
        c'.links.maxHeight = c.links.maxHeight := by
  have hlen : ∀ i, (chain i).length < fuel := fun i => Nat.lt_of_succ_lt (hfuel i)
  have hpos := hS.maxHeight_pos
  have hkm := hS.maxHeight_le
  rw [insertAtHeight, check_bind_of (by simpa using hk)]
  refine Returns.bind_of (prepareSplice_returns (a := L.key x) hS hi hsize hfuel' fix) ?_
  rintro r₁ c₂ ⟨rfl, hb, ⟨hs₁, hh₁⟩, hex⟩
  have hle : r₁.2 ≤ c₂.links.maxHeight := hh₁ ▸ hb.le_height
  rw [check_bind_of (by simpa using hle)]
  refine Returns.bind_of (recompute_returns hS hlen (by omega) hb hex) ?_
  rintro r₂ c₃ ⟨rfl, hready, hs₂, hh₂⟩
  by_cases hdup : L.Stored chain (L.key x)
  · -- an equal key is stored: the loop stops at once and the splice is returned as it was
    refine Returns.bind_of (forLevels_returns_of_stored hS hx hdup hready (by omega) (by omega)
      hlen useCAS true) ?_
    rintro _ c₄ ⟨rfl, rfl⟩
    rw [if_neg Bool.false_ne_true, insertChain, if_pos hdup]
    exact ⟨by simp [hdup], hS, Or.inr hready.brackets.nested, hs₂.trans hs₁, rfl⟩
  · have hlink : L.Linking chain x r₁.2 c₃.links r₂ 0 :=
      ⟨by rwa [linkUpTo_zero], fun j hj => hready.exact j (hj.resolve_left (Nat.not_lt_zero j)),
        hready.brackets⟩
    have hbody : L.LinksLevel chain x r₁.2 fun i splice valid =>
        if useCAS then L.linkLevelCAS x (L.cmp.decodeKey (L.key x)) i fuel splice valid
        else L.linkLevel fuel x (L.cmp.decodeKey (L.key x)) r₁.2 i splice valid := by
      cases useCAS with
      | true => exact linkLevelCAS_linksLevel hS hx hdup hfuel
      | false => exact linkLevel_linksLevel hS hx hdup hlen
    refine Returns.bind_of
      (forLevels_returns hbody (by omega) hlink (by omega) (by omega) true) ?_
    rintro r₃ c₄ ⟨hok, hl, hm₄, hs₃, hh₃⟩
    rw [if_pos hok]
    obtain ⟨r₄, hr₄, hs₄, hinv⟩ := hl.finishSplice_eq hS hx hdup (by omega) r₃.2.2
    rw [hr₄, insertChain, if_neg hdup]
    exact ⟨by simp [hdup], hl.shape, hinv, by rw [hs₄, hs₃, hs₂, hs₁], hm₄⟩

/-- The insertion of a node of an admissible height comes to the point where the list has the
greater of its own height and that of the node, and goes on from there. -/
lemma insertWithSplice_bind {Q : Bool × Splice Node → Solo Node → Prop}
    (hpos : 1 ≤ L.unstashHeight x)
    (hle : L.unstashHeight x ≤ L.kMaxHeight) (hfuel : c.spurious + 1 < fuel) (useCAS fix : Bool)
    (h : ∀ c₁ : Solo Node,
      c₁.links = { c.links with maxHeight := max c.links.maxHeight (L.unstashHeight x) } →
      Returns execSolo (L.insertAtHeight fuel useCAS x splice fix c₁.links.maxHeight) c₁ Q) :
    Returns execSolo (L.insertWithSplice fuel useCAS x splice fix) c Q := by
  rw [insertWithSplice_eq, check_bind_of (by simp [hpos, hle]), returns_getMaxHeight]
  refine Returns.bind_of (raiseMaxHeight_returns hfuel) ?_
  rintro _ c₁ ⟨rfl, hc₁⟩
  have hm₁ : c₁.links.maxHeight = max c.links.maxHeight (L.unstashHeight x) := by rw [hc₁]
  rw [← hm₁]
  exact h c₁ hc₁

/-- An insertion that raises the list above `kMaxPossibleHeight` violates an assertion. -/
lemma run_insertWithSplice_of_lt (hpos : 1 ≤ L.unstashHeight x)
    (hle : L.unstashHeight x ≤ L.kMaxHeight) (hfuel : c.spurious + 1 < fuel) (useCAS fix : Bool)
    (hk : kMaxPossibleHeight < max c.links.maxHeight (L.unstashHeight x)) :
    run execSolo (L.insertWithSplice fuel useCAS x splice fix) c = .fault := by
  have hreturns :
      Returns execSolo (raiseMaxHeight (L.unstashHeight x) fuel c.links.maxHeight) c _ :=
    raiseMaxHeight_returns hfuel
  obtain ⟨m, c₁, hraise, rfl, -⟩ := returns_iff_run.mp hreturns
  have hfault : ∀ {m}, kMaxPossibleHeight < m →
      L.insertAtHeight fuel useCAS x splice fix m = .fault := by
    intro m hm
    rw [insertAtHeight, show decide (m ≤ kMaxPossibleHeight) = false by simpa using hm]
    rfl
  rw [insertWithSplice_eq, check_bind_of (by simp [hpos, hle])]
  have hload : run execSolo getMaxHeight c = .done c.links.maxHeight c := rfl
  refine (run_bind_of hload).trans ?_
  rw [run_bind_of hraise, hfault hk]
  rfl

/-- **The specification of `Insert<UseCAS>`.**  Through any splice that is empty or nested, and for
both values of the two flags, the insertion of a fresh node returns whether no equal key was stored,
leaves the chains of `insertChain` and a splice that is again empty or nested, and raises
`max_height_` to the height of the node, if the list then has at most `kMaxPossibleHeight`
levels. -/
theorem insertWithSplice_returns_of_le (hS : L.Shape c.links chain) (hx : L.Fresh chain x)
    (hk : max c.links.maxHeight (L.unstashHeight x) ≤ kMaxPossibleHeight)
    (hi : L.SpliceInv c.links chain splice)
    (hsize : L.kMaxHeight < splice.size) (hfuel : ∀ i, (chain i).length + 1 < fuel)
    (hfuel' : c.spurious + L.kMaxHeight + 1 < fuel) (useCAS fix : Bool) :
    Returns execSolo (L.insertWithSplice fuel useCAS x splice fix) c fun r c' =>
      r.1 = !decide (L.Stored chain (L.key x)) ∧
        L.Shape c'.links (L.insertChain x chain) ∧
        L.SpliceInv c'.links (L.insertChain x chain) r.2 ∧ r.2.size = splice.size ∧
        c'.links.maxHeight = max c.links.maxHeight (L.unstashHeight x) := by
  refine insertWithSplice_bind hx.height_pos hx.height_le (by omega) useCAS fix fun c₁ hc₁ => ?_
  -- the list with the raised height has the same chains, and the splice stays nested
  have hmax : max c.links.maxHeight (L.unstashHeight x) ≤ L.kMaxHeight :=
    max_le hS.maxHeight_le hx.height_le
  have hm₁ : c₁.links.maxHeight = max c.links.maxHeight (L.unstashHeight x) := by rw [hc₁]
  have hS₁ : L.Shape c₁.links chain := hc₁ ▸ hS.raise (le_max_left _ _) hmax
  have hi₁ : L.SpliceInv c₁.links chain splice :=
    hi.mono (hm₁ ▸ le_max_left _ _) fun _ _ => id
  rw [← hm₁] at hk ⊢
  exact insertAtHeight_returns hS₁ hx (hm₁ ▸ le_max_right _ _) hk hi₁ hsize hfuel (by omega) useCAS
    fix

/-- The specification on a list that is configured for at most `kMaxPossibleHeight` levels. -/
theorem insertWithSplice_returns (hS : L.Shape c.links chain) (hx : L.Fresh chain x)
    (hk : L.kMaxHeight ≤ kMaxPossibleHeight) (hi : L.SpliceInv c.links chain splice)
    (hsize : L.kMaxHeight < splice.size) (hfuel : ∀ i, (chain i).length + 1 < fuel)
    (hfuel' : c.spurious + L.kMaxHeight + 1 < fuel) (useCAS fix : Bool) :
    Returns execSolo (L.insertWithSplice fuel useCAS x splice fix) c fun r c' =>
      r.1 = !decide (L.Stored chain (L.key x)) ∧
        L.Shape c'.links (L.insertChain x chain) ∧
        L.SpliceInv c'.links (L.insertChain x chain) r.2 ∧ r.2.size = splice.size ∧
        c'.links.maxHeight = max c.links.maxHeight (L.unstashHeight x) :=
  insertWithSplice_returns_of_le hS hx ((max_le hS.maxHeight_le hx.height_le).trans hk) hi hsize
    hfuel hfuel' useCAS fix

end Insert

end InlineSkipList

end PmemKv
