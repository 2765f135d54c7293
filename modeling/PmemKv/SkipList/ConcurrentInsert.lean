import PmemKv.SkipList.Interference
import PmemKv.SkipList.InsertSpec

/-!
# `InsertConcurrently` next to other insertions

The obligation of a thread that runs `InsertConcurrently` on a node of its own.  Between its
operations the other threads may link nodes anywhere, so the entries of its splice are at no time
known to be tight; what the thread knows is that they bracket its key and that they are nodes of
their levels.  A compare-and-swap that succeeds shows that the entries are the neighbours of the key
at that instant.
-/

namespace PmemKv

open AtomicProg AtomicProg.Prog

namespace InlineSkipList

variable {Key DecodedKey Node : Type} {L : InlineSkipList Key DecodedKey Node}
  {s s' : Links Node} {chain chain' : ℕ → List Node} {i : ℕ} {x : Node} {splice : Splice Node}
  {valid : Bool} {rely guar new : Node → Prop}

/-- What a thread knows when it has linked its node `x` on exactly the levels below `i`. -/
structure Attached (L : InlineSkipList Key DecodedKey Node) (chain : ℕ → List Node) (x : Node)
    (s : Links Node) (splice : Splice Node) (valid : Bool) (i : ℕ) : Prop where
  /-- The node is linked on exactly the levels below `i`. -/
  mem_iff : ∀ j, x ∈ chain j ↔ j < i
  /-- From `i` on the splice brackets the key. -/
  brackets : L.BracketsFrom s chain (L.key x) splice i
  /-- The splice covers the height of the node. -/
  height_le : L.unstashHeight x ≤ splice.height
  /-- The arrays have room for the sentinels. -/
  size : splice.height < splice.size
  /-- The node is not its own successor. -/
  next_ne : ∀ j < splice.height, splice.next j ≠ some x
  /-- While the splice counts as valid, its successor entries are nested below `i` as well. -/
  below : valid = true → ∀ j < i, (∀ n, splice.next j = some n → n ∈ chain j) ∧
    L.Right (L.key x) (splice.next j) ∧ L.LeNext (splice.next j) (splice.next (j + 1))

namespace Attached

/-- What the thread knows is stable. -/
lemma stable (h : L.Attached chain x s splice valid i) (he : L.Extends new s chain s' chain')
    (hx : ¬new x) : L.Attached chain' x s' splice valid i :=
  { h with
    mem_iff := fun j => (he.mem_iff hx j).trans (h.mem_iff j)
    brackets := h.brackets.stable he
    below := fun hv j hj =>
      ⟨fun n hn => he.sub j n ((h.below hv j hj).1 n hn), (h.below hv j hj).2⟩ }

/-- The thread's knowledge speaks about the memory only through `max_height_`. -/
lemma of_maxHeight_eq (h : L.Attached chain x s splice valid i)
    (hm : s'.maxHeight = s.maxHeight) : L.Attached chain x s' splice valid i :=
  { h with brackets := h.brackets.of_maxHeight_eq hm }

/-- On a level to be linked the successor entry is strictly greater, once the node is linked on
level `0`. -/
lemma next_lt (hS : L.Shape s chain) (h : L.Attached chain x s splice valid i) (hi : 0 < i)
    {j : ℕ} (hj : j < splice.height) {n : Node} (hn : splice.next j = some n)
    (hmem : n ∈ chain j) (hright : L.Right (L.key x) (splice.next j)) : L.NodeLt x n := by
  by_contra hlt
  have hx0 : x ∈ chain 0 := (h.mem_iff 0).mpr hi
  have he : L.cmp.Equiv (L.key x) (L.key n) := Comparator.equiv_iff.mpr ⟨hlt, hright n hn⟩
  have hxn : x = n := hS.eq_of_equiv hx0 (hS.mem_of_le (Nat.zero_le j) hmem) he
  exact h.next_ne j hj (by rw [hn, hxn])

/-- A splice with both entries of level `i` found again. -/
lemma setLevel (h : L.Attached chain x s splice valid i) (hS : L.Shape s chain)
    (hi : i < splice.height) (he : L.Extends new s chain s' chain') (hx : ¬new x)
    {r : Node × Option Node} (hr : L.Found chain chain' (L.key x) i (splice.prev i) r) :
    L.Attached chain' x s' (splice.setLevel i r.1 r.2) (if 0 < i then false else valid) i := by
  have h' := h.stable he hx
  have hb := h.brackets.succ hi
  refine ⟨h'.mem_iff, ?_, h.height_le, h.size, fun j hj => ?_, fun hv j hj => ?_⟩
  · refine (hb.stable he).setLevel hr.prev_mem hr.next_mem hr.left hr.right
      ((h.brackets.lePrev i le_rfl hi).trans hr.lePrev) (hr.leNext _ (fun b hbm => ?_) ?_)
    · exact (hb.mem_below hS).2 b hbm
    · exact h.brackets.right (i + 1) (Nat.le_succ i) hi
  · rw [Splice.setLevel_next]
    split
    · next hji =>
      intro hrx
      exact absurd ((h'.mem_iff i).mp (hr.next_mem x hrx)) (lt_irrefl i)
    · exact h.next_ne j hj
  · rw [if_pos (Nat.zero_lt_of_lt hj)] at hv
    exact absurd hv Bool.false_ne_true

/-- The node has been linked on level `i`. -/
lemma succ (h : L.Attached chain x s splice valid i) (hi : i < splice.height)
    (he : L.Extends (· = x) s chain s' chain') (hmem : x ∈ chain' i)
    (hsame : ∀ j ≠ i, chain' j = chain j) : L.Attached chain' x s' splice valid (i + 1) := by
  refine ⟨fun j => ?_, (h.brackets.succ hi).stable he, h.height_le, h.size, h.next_ne,
    fun hv j hj => ?_⟩
  · by_cases hji : j = i
    · simp [hji, hmem]
    · rw [hsame j hji, h.mem_iff j]
      omega
  · rcases Nat.lt_succ_iff_lt_or_eq.mp hj with hji | rfl
    · obtain ⟨h₁, h₂⟩ := h.below hv j hji
      exact ⟨fun n hn => he.sub j n (h₁ n hn), h₂⟩
    · exact ⟨fun n hn => he.sub j n (h.brackets.next_mem j le_rfl hi n hn),
        h.brackets.right j le_rfl hi.le, h.brackets.leNext j le_rfl hi⟩

end Attached

variable [DecidableEq Node] {fuel : ℕ}

/-! ## Up to the linking -/

/-- The arrays on the stack have no room for the sentinels of a list of `kMaxPossibleHeight`. -/
lemma insertAtHeight_eq_fault {m : ℕ} (hpos : 0 < m) (hm : kMaxPossibleHeight ≤ m)
    (useCAS fix : Bool)
    (prev : ℕ → Node) (next : ℕ → Option Node) :
    L.insertAtHeight fuel useCAS x (stackSplice prev next) fix m = .fault := by
  rcases hm.lt_or_eq with hlt | rfl
  · rw [insertAtHeight, show decide (m ≤ kMaxPossibleHeight) = false by simpa using hlt]
    rfl
  · have hprep : L.prepareSplice fuel (L.cmp.decodeKey (L.key x)) (stackSplice prev next)
        kMaxPossibleHeight fix = .fault := by
      rw [prepareSplice,
        if_pos (show (stackSplice prev next).height < kMaxPossibleHeight from hpos)]
      rfl
    rw [insertAtHeight, check_bind_of (by simp), hprep]
    rfl

/-- Raising `max_height_` next to insertions. -/
theorem raiseMaxHeight_safe (h : L.Shape s chain) {height maxHeight : ℕ}
    (hk : height ≤ L.kMaxHeight) (hm : maxHeight ≤ s.maxHeight) :
    L.SafeIn rely guar
      (fun r s' => ∃ chain', L.Shape s' chain' ∧ L.Extends rely s chain s' chain' ∧
        height ≤ r ∧ r ≤ s'.maxHeight ∧ maxHeight ≤ r)
      (raiseMaxHeight height fuel maxHeight) s := by
  induction fuel generalizing s chain maxHeight with
  | zero => trivial
  | succ fuel ih =>
    rw [raiseMaxHeight]
    split
    · next hlt =>
      refine safe_casMaxHeight h hlt.le hk (fun s₁ chain₁ hS₁ he => ?_)
        (fun s₁ chain₁ hS₁ he hm₁ => ?_)
      · refine (ih hS₁ le_rfl).mono ?_
        rintro r s₂ ⟨chain₂, hS₂, he₂, hr, hrm, hmr⟩
        exact ⟨chain₂, hS₂, he.trans he₂, hr, hrm, (hm.trans he.maxHeight_le).trans hmr⟩
      · exact ⟨chain₁, hS₁, he, le_rfl, hm₁.ge, hlt.le⟩
    · next hge => exact ⟨chain, h, Extends.refl rely s chain, not_lt.mp hge, hm, le_rfl⟩

/-- The skip over equal bad predecessors ends at or below the sentinel. -/
lemma skipPrev_eq {bad : Node} {H m : ℕ} (hbad : bad ≠ L.head) (hm : m ≤ H)
    (hsent : splice.prev H = L.head) (hsize : H < splice.size) :
    skipPrev splice bad fuel m = .exhausted ∨ ∃ r ≤ H, skipPrev splice bad fuel m = .done r := by
  induction fuel generalizing m with
  | zero => exact Or.inl rfl
  | succ fuel ih =>
    rw [skipPrev, Splice.readPrev_of_lt (by omega), done_bind]
    split
    · next he =>
      have hlt : m < H := by
        rcases Nat.lt_or_eq_of_le hm with hlt | rfl
        · exact hlt
        · exact absurd (he.symm.trans hsent) hbad
      exact ih hlt
    · exact Or.inr ⟨m, hm, rfl⟩

/-- The skip over equal bad successors ends at or below the sentinel. -/
lemma skipNext_eq {bad : Option Node} {H m : ℕ} (hbad : bad ≠ none) (hm : m ≤ H)
    (hsent : splice.next H = none) (hsize : H < splice.size) :
    skipNext splice bad fuel m = .exhausted ∨ ∃ r ≤ H, skipNext splice bad fuel m = .done r := by
  induction fuel generalizing m with
  | zero => exact Or.inl rfl
  | succ fuel ih =>
    rw [skipNext, Splice.readNext_of_lt (by omega), done_bind]
    split
    · next he =>
      have hlt : m < H := by
        rcases Nat.lt_or_eq_of_le hm with hlt | rfl
        · exact hlt
        · exact absurd (he.symm.trans hsent) hbad
      exact ih hlt
    · exact Or.inr ⟨m, hm, rfl⟩

/-- The validation of a nested splice next to insertions ends at or below the sentinel, on a level
that brackets the key.  The level was tight when its link was loaded, which nobody can rely on. -/
theorem validateSplice_safe (h : L.Shape s chain) (hn : L.Nested s chain splice) {a : Key} {m : ℕ}
    (hsize : splice.height < splice.size) (hm : m ≤ splice.height) (fix : Bool) :
    L.SafeIn rely guar
      (fun r s' => ∃ chain', L.Shape s' chain' ∧ L.Extends rely s chain s' chain' ∧
        r ≤ splice.height ∧ L.Left a (splice.prev r) ∧ L.Right a (splice.next r))
      (L.validateSplice (L.cmp.decodeKey a) splice splice.height fix fuel m) s := by
  induction fuel generalizing s chain m with
  | zero => trivial
  | succ fuel ih =>
    -- the rest of the validation, from a later point and a level up to the sentinel
    have hrest : ∀ {s₁ chain₁}, L.Shape s₁ chain₁ → L.Extends rely s chain s₁ chain₁ →
        ∀ m' ≤ splice.height, L.SafeIn rely guar
          (fun r s' => ∃ chain', L.Shape s' chain' ∧ L.Extends rely s chain s' chain' ∧
            r ≤ splice.height ∧ L.Left a (splice.prev r) ∧ L.Right a (splice.next r))
          (L.validateSplice (L.cmp.decodeKey a) splice splice.height fix fuel m') s₁ := by
      intro s₁ chain₁ hS₁ he m' hm'
      refine (ih hS₁ (hn.mono he.maxHeight_le he.sub) hm').mono ?_
      rintro r s₂ ⟨chain₂, hS₂, he₂, hr⟩
      exact ⟨chain₂, hS₂, he.trans he₂, hr⟩
    rw [validateSplice]
    split
    · next hlt =>
      rw [Splice.readPrev_of_lt (by omega), done_bind, Splice.readNext_of_lt (by omega), done_bind]
      refine safe_next h fun s₁ chain₁ hS₁ he => ?_
      split
      · exact hrest hS₁ he (m + 1) hlt
      · split
        · next hbad =>
          have hne : splice.prev m ≠ L.head := of_decide_eq_true (Bool.and_eq_true_iff.mp hbad).1
          split
          · rcases skipPrev_eq hne hm hn.prev_height hsize with heq | ⟨r, hr, heq⟩
            · rw [heq]
              trivial
            · rw [heq]
              exact hrest hS₁ he r hr
          · exact hrest hS₁ he splice.height le_rfl
        · next hleft =>
          split
          · next hafter =>
            have hne : splice.next m ≠ none := by
              intro he
              simp [he] at hafter
            split
            · rcases skipNext_eq hne hm hn.next_height hsize with heq | ⟨r, hr, heq⟩
              · rw [heq]
                trivial
              · rw [heq]
                exact hrest hS₁ he r hr
            · exact hrest hS₁ he splice.height le_rfl
          · next hnotAfter =>
            refine ⟨chain₁, hS₁, he, hm, ?_, ?_⟩
            · by_cases hhead : splice.prev m = L.head
              · exact Or.inl hhead
              · right
                simpa [hhead] using hleft
            · intro b hb
              rw [hb] at hnotAfter
              simpa using hnotAfter
    · next hge =>
      obtain rfl : m = splice.height := le_antisymm hm (not_lt.mp hge)
      refine ⟨chain, h, Extends.refl rely s chain, le_rfl, Or.inl hn.prev_height, ?_⟩
      rw [hn.next_height]
      exact right_none

/-- The splice that `Insert` works with next to insertions brackets the key from `recompute_height`
on. -/
theorem prepareSplice_safe (h : L.Shape s chain) {a : Key} {m : ℕ} (hm : m ≤ s.maxHeight)
    (hi : L.SpliceInv s chain splice) (hle : splice.height ≤ m) (hsize : m < splice.size)
    (hpos : 0 < m) (fix : Bool) :
    L.SafeIn rely guar
      (fun r s' => ∃ chain', L.Shape s' chain' ∧ L.Extends rely s chain s' chain' ∧
        L.BracketsFrom s' chain' a r.1 r.2 ∧ r.1.size = splice.size ∧ r.1.height = m)
      (L.prepareSplice fuel (L.cmp.decodeKey a) splice m fix) s := by
  rw [prepareSplice]
  split
  · next hlt =>
    rw [Splice.writeLevel_of_lt hsize, done_bind]
    exact ⟨chain, h, Extends.refl rely s chain, bracketsFrom_reset chain a splice hm, rfl, rfl⟩
  · next hge =>
    obtain rfl : splice.height = m := le_antisymm hle (not_lt.mp hge)
    have hn : L.Nested s chain splice := hi.resolve_left hpos.ne'
    refine SafeIn.bind_of (validateSplice_safe (a := a) h hn hsize (Nat.zero_le _) fix) ?_
    rintro r s₁ ⟨chain₁, hS₁, he, hr, hleft, hright⟩
    exact ⟨chain₁, hS₁, he,
      (hn.mono he.maxHeight_le he.sub).bracketsFrom hr hleft hright, rfl, rfl⟩

/-- The recomputation of the levels below `m` next to insertions. -/
theorem recomputeLoop_safe (h : L.Shape s chain) {a : Key} {m : ℕ}
    (hsize : splice.height < splice.size) (hb : L.BracketsFrom s chain a splice m) :
    L.SafeIn rely guar
      (fun r s' => ∃ chain', L.Shape s' chain' ∧ L.Extends rely s chain s' chain' ∧
        L.BracketsFrom s' chain' a r 0 ∧ r.size = splice.size ∧ r.height = splice.height)
      (L.recomputeLoop fuel (L.cmp.decodeKey a) m splice) s := by
  induction m generalizing s chain splice with
  | zero => exact ⟨chain, h, Extends.refl rely s chain, hb, rfl, rfl⟩
  | succ m ih =>
    have hm : m < splice.height := hb.le_height
    have hk : m < L.kMaxHeight := lt_of_lt_of_le hm (hb.height_le.trans h.maxHeight_le)
    obtain ⟨hpm, hnm⟩ := hb.mem_below h
    rw [recomputeLoop, Splice.readPrev_of_lt (by omega), done_bind,
      Splice.readNext_of_lt (by omega), done_bind]
    refine SafeIn.bind_of (findSpliceForLevel_safe h hk hpm (hb.left _ le_rfl hb.le_height)
      (hb.right _ le_rfl hb.le_height)) ?_
    rintro r s₁ ⟨chain₁, hS₁, he₁, hr⟩
    rw [Splice.writeLevel_of_lt (by omega), done_bind]
    have hb₁ : L.BracketsFrom s₁ chain₁ a (splice.setLevel m r.1 r.2) m :=
      (hb.stable he₁).setLevel hr.prev_mem hr.next_mem hr.left hr.right hr.lePrev
        (hr.leNext _ hnm (hb.right _ le_rfl hb.le_height))
    refine (ih hS₁ (by simpa using hsize) hb₁).mono ?_
    rintro r' s₂ ⟨chain₂, hS₂, he₂, hb₂, hs₂, hh₂⟩
    exact ⟨chain₂, hS₂, he₁.trans he₂, hb₂, hs₂, hh₂⟩

/-- The levels below `recompute_height` are recomputed next to insertions. -/
theorem recompute_safe (h : L.Shape s chain) {a : Key} {m : ℕ} (hsize : splice.height < splice.size)
    (hb : L.BracketsFrom s chain a splice m) :
    L.SafeIn rely guar
      (fun r s' => ∃ chain', L.Shape s' chain' ∧ L.Extends rely s chain s' chain' ∧
        L.BracketsFrom s' chain' a r 0 ∧ r.size = splice.size ∧ r.height = splice.height)
      (if 0 < m then L.recomputeSpliceLevels fuel (L.cmp.decodeKey a) splice m else pure splice)
      s := by
  split
  · next hpos =>
    rw [recomputeSpliceLevels, check_bind_of (by simpa using hpos),
      check_bind_of (by simpa using hb.le_height)]
    exact recomputeLoop_safe h hsize hb
  · next hzero =>
    obtain rfl : m = 0 := Nat.eq_zero_of_not_pos hzero
    exact ⟨chain, h, Extends.refl rely s chain, hb, rfl, rfl⟩

/-! ## Linking -/

/-- A node of its own that a thread may insert. -/
structure Insertable (L : InlineSkipList Key DecodedKey Node) (x : Node) : Prop where
  /-- It is not the head. -/
  ne_head : x ≠ L.head
  /-- Its height is positive. -/
  height_pos : 1 ≤ L.unstashHeight x
  /-- Its height is at most `kMaxHeight_`. -/
  height_le : L.unstashHeight x ≤ L.kMaxHeight

/-- What an insertion knows when it returns `b`: its node is linked on exactly the levels below its
height, or nowhere and an equal key is stored. -/
def Inserted (L : InlineSkipList Key DecodedKey Node) (x : Node) (b : Bool)
    (chain : ℕ → List Node) : Prop :=
  if b then ∀ j, x ∈ chain j ↔ j < L.unstashHeight x
  else (∀ j, x ∉ chain j) ∧ L.Stored chain (L.key x)

section Linking

variable (hx : L.Insertable x) (hrely : ¬rely x) (hguar : guar x)

include hx hrely hguar

omit [DecidableEq Node] hx hrely hguar in
/-- A pair that brackets the key of a node and is found to be a duplicate shows that the key is
stored. -/
lemma stored_of_isDuplicate [DecidableEq Node] (hS : L.Shape s chain) {p : Node}
    {n : Option Node} (hleft : L.Left (L.key x) p) (hright : L.Right (L.key x) n)
    (hmem : ∀ b, n = some b → b ∈ chain i) (hdup : L.isDuplicate x p n = true) :
    L.Stored chain (L.key x) := by
  by_contra hst
  rw [isDuplicate_eq_not_inOrder, inOrder_of_bracket hS hst hleft hright hmem] at hdup
  exact absurd hdup (by simp)

omit hx hrely hguar in
/-- Once the duplicate test is passed, the successor entry is strictly greater. -/
lemma Attached.next_lt_of_not_isDuplicate (hS : L.Shape s chain)
    (h : L.Attached chain x s splice valid i) (hi : i < splice.height)
    (hdup : ¬(i = 0 ∧ L.isDuplicate x (splice.prev i) (splice.next i) = true)) {b : Node}
    (hb : splice.next i = some b) : L.NodeLt x b := by
  rcases Nat.eq_zero_or_pos i with h0 | hpos
  · -- by the test itself
    have hord : L.inOrder x (splice.prev i) (splice.next i) = true := by
      have hnd : ¬L.isDuplicate x (splice.prev i) (splice.next i) = true := fun hd => hdup ⟨h0, hd⟩
      rw [isDuplicate_eq_not_inOrder] at hnd
      simpa using hnd
    rw [inOrder, Bool.and_eq_true, Option.all_eq_true] at hord
    exact (decide_eq_true_iff.mp (hord.1 b hb) : L.cmp.compare (L.key x) (L.key b) < 0)
  · -- the node itself is on level `0`
    exact h.next_lt hS hpos hi hb (h.brackets.next_mem i le_rfl hi b hb)
      (h.brackets.right i le_rfl hi.le)

/-- One level of the compare-and-swap branch next to insertions. -/
theorem linkLevelCAS_safe (hS : L.Shape s chain) (h : L.Attached chain x s splice valid i)
    (hi : i < L.unstashHeight x) :
    L.SafeIn rely guar
      (fun r s' => ∃ chain', L.Shape s' chain' ∧ r.2.1.size = splice.size ∧
        if r.1 then L.Attached chain' x s' r.2.1 r.2.2 (i + 1)
        else L.Inserted x false chain' ∧ L.Nested s' chain' r.2.1)
      (L.linkLevelCAS x (L.cmp.decodeKey (L.key x)) i fuel splice valid) s := by
  induction fuel generalizing s chain splice valid with
  | zero => trivial
  | succ fuel ih =>
    have hi' : i < splice.height := lt_of_lt_of_le hi h.height_le
    have his : i < splice.size := hi'.trans h.size
    have hk : i < L.kMaxHeight := lt_of_lt_of_le hi hx.height_le
    have hpm := h.brackets.prev_mem i le_rfl hi'
    have hnm := h.brackets.next_mem i le_rfl hi'
    have hleft := h.brackets.left i le_rfl hi'.le
    have hright := h.brackets.right i le_rfl hi'.le
    have hxi : x ∉ chain i := fun hm => lt_irrefl i ((h.mem_iff i).mp hm)
    rw [linkLevelCAS, Splice.readNext_of_lt his, done_bind, Splice.readPrev_of_lt his, done_bind]
    by_cases hdup : i = 0 ∧ L.isDuplicate x (splice.prev i) (splice.next i) = true
    · rw [if_pos (by simpa using hdup)]
      refine ⟨chain, hS, rfl, ?_⟩
      rw [if_neg Bool.false_ne_true, Inserted, if_neg Bool.false_ne_true]
      obtain ⟨rfl, hdup⟩ := hdup
      exact ⟨⟨fun j hj => Nat.not_lt_zero j ((h.mem_iff j).mp hj),
        stored_of_isDuplicate hS hleft hright hnm hdup⟩, h.brackets.nested⟩
    rw [if_neg (by simpa using hdup)]
    have hlt : ∀ b, splice.next i = some b → L.NodeLt x b := fun b hb =>
      h.next_lt_of_not_isDuplicate hS hi' hdup hb
    have hord : L.inOrder x (splice.prev i) (splice.next i) = true := by
      rw [inOrder, Bool.and_eq_true, Option.all_eq_true]
      refine ⟨fun b hb => decide_eq_true (hlt b hb), ?_⟩
      rcases hleft with hp | hp
      · simp [hp]
      · simp [show L.cmp.compare (L.key (splice.prev i)) (L.key x) < 0 from hp]
    rw [check_bind_of hord]
    refine safe_setNext hS hx.ne_head hxi hrely hguar fun s₁ chain₁ hS₁ he₁ => ?_
    have h₁ : L.Attached chain₁ x (s₁.setNext x i (splice.next i)) splice valid i :=
      (h.stable he₁ hrely).of_maxHeight_eq rfl
    have hxi₁ : x ∉ chain₁ i := fun hm => lt_irrefl i ((h₁.mem_iff i).mp hm)
    have hbelow : i = 0 ∨ x ∈ chain₁ (i - 1) := by
      rcases Nat.eq_zero_or_pos i with h0 | hpos
      · exact Or.inl h0
      · exact Or.inr ((h₁.mem_iff _).mpr (by omega))
    refine safe_casNext hS₁ hx.ne_head hxi₁ hrely hguar hi
      (h₁.height_le.trans h₁.brackets.height_le) hbelow (h₁.brackets.prev_mem i le_rfl hi') hleft
      hlt (Links.setNext_next_self _ _ _ _) (fun s₂ chain₂ hS₂ he₂ => ?_)
      fun s₂ chain₂ s₃ chain₃ he₂ hS₃ he₃ hmem hsame => ?_
    · -- another thread was faster: search the level again from the old predecessor
      have h₂ := h₁.stable he₂ hrely
      rw [if_neg Bool.false_ne_true]
      refine SafeIn.bind_of (findSpliceForLevel_safe hS₂ hk (h₂.brackets.prev_mem i le_rfl hi')
        hleft right_none) ?_
      rintro r s₃ ⟨chain₃, hS₃, he₃, hr⟩
      rw [Splice.writeLevel_of_lt his, done_bind]
      exact ih hS₃ (h₂.setLevel hS₂ hi' he₃ hrely hr)
    · rw [if_pos rfl]
      refine ⟨chain₃, hS₃, rfl, ?_⟩
      rw [if_pos rfl]
      exact (h₁.stable he₂ hrely).succ hi' he₃ hmem hsame

/-- The linking loop next to insertions. -/
theorem forLevels_safe {m n : ℕ} (hn : i + n = L.unstashHeight x) (hS : L.Shape s chain)
    (h : L.Attached chain x s splice valid i) :
    L.SafeIn rely guar
      (fun r s' => ∃ chain', L.Shape s' chain' ∧ r.2.1.size = splice.size ∧
        if r.1 then L.Attached chain' x s' r.2.1 r.2.2 (L.unstashHeight x)
        else L.Inserted x false chain' ∧ L.Nested s' chain' r.2.1)
      (forLevels (fun i splice valid =>
        if true then L.linkLevelCAS x (L.cmp.decodeKey (L.key x)) i fuel splice valid
        else L.linkLevel fuel x (L.cmp.decodeKey (L.key x)) m i splice valid) n i splice valid)
      s := by
  induction n generalizing i s chain splice valid with
  | zero =>
    obtain rfl : i = L.unstashHeight x := hn
    exact ⟨chain, hS, rfl, by rwa [if_pos rfl]⟩
  | succ n ih =>
    rw [forLevels, if_pos rfl]
    refine SafeIn.bind_of (linkLevelCAS_safe hx hrely hguar hS h (by omega)) ?_
    rintro ⟨b, r⟩ s₁ ⟨chain₁, hS₁, hs₁, h₁⟩
    cases b with
    | true =>
      rw [if_pos rfl] at h₁ ⊢
      refine (ih (by omega) hS₁ h₁).mono ?_
      rintro r' s₂ ⟨chain₂, hS₂, hs₂, h₂⟩
      exact ⟨chain₂, hS₂, hs₂.trans hs₁, h₂⟩
    | false =>
      rw [if_neg Bool.false_ne_true] at h₁ ⊢
      exact ⟨chain₁, hS₁, hs₁, by rwa [if_neg Bool.false_ne_true]⟩

omit hrely hguar in
/-- The end of a successful insertion next to others violates no assertion and leaves a splice that
is empty or nested. -/
lemma Attached.finishSplice_eq (hS : L.Shape s chain)
    (h : L.Attached chain x s splice valid (L.unstashHeight x)) :
    ∃ r, L.finishSplice x (L.unstashHeight x) splice valid = .done r ∧ r.size = splice.size ∧
      L.SpliceInv s chain r := by
  have hb := h.brackets
  have hnm : valid = true → ∀ j < splice.height, (∀ n, splice.next j = some n → n ∈ chain j) ∧
      L.Right (L.key x) (splice.next j) := by
    intro hv j hj
    by_cases hji : j < L.unstashHeight x
    · exact ⟨(h.below hv j hji).1, (h.below hv j hji).2.1⟩
    · exact ⟨hb.next_mem j (not_lt.mp hji) hj, hb.right j (not_lt.mp hji) hj.le⟩
  exact InlineSkipList.finishSplice_eq valid hS h.size h.height_le
    (fun hv => hb.nested_owned hx.ne_head (fun j hj => (h.mem_iff j).mpr hj)
      (fun j hj => (h.below hv j hj).1) (fun j hj => (h.below hv j hj).2.2))
    (fun _ j hj hij => (hb.left j hij hj.le).imp id Comparator.Lt.asymm)
    (fun hv j hj n hn => h.next_lt hS hx.height_pos hj hn ((hnm hv j hj).1 n hn) (hnm hv j hj).2)

/-- The insertion through a splice that is empty or nested, from the point where the height `m` of
the list is known, if the arrays of the splice have room for it. -/
theorem insertAtHeight_safe (hS : L.Shape s chain) (hnot : ∀ j, x ∉ chain j) {m : ℕ}
    (hhm : L.unstashHeight x ≤ m) (hm : m ≤ s.maxHeight) (hk : m ≤ kMaxPossibleHeight)
    (hi : L.SpliceInv s chain splice) (hle : splice.height ≤ m) (hsize : m < splice.size)
    (fix : Bool) :
    L.SafeIn rely guar
      (fun r s' => ∃ chain', L.Shape s' chain' ∧ L.Inserted x r.1 chain' ∧
        r.2.size = splice.size ∧ L.SpliceInv s' chain' r.2)
      (L.insertAtHeight fuel true x splice fix m) s := by
  have hpos : 0 < m := lt_of_lt_of_le hx.height_pos hhm
  rw [insertAtHeight, check_bind_of (by simpa using hk)]
  refine SafeIn.bind_of (prepareSplice_safe (a := L.key x) hS hm hi hle hsize hpos fix) ?_
  rintro ⟨splice₁, m₁⟩ s₁ ⟨chain₁, hS₁, he₁, hb₁, hs₁, hh₁⟩
  dsimp only at hb₁ hs₁ hh₁ ⊢
  have hsize₁ : splice₁.height < splice₁.size := by omega
  rw [check_bind_of (by simpa [hh₁] using hb₁.le_height)]
  refine SafeIn.bind_of (recompute_safe hS₁ hsize₁ hb₁) ?_
  rintro splice₂ s₂ ⟨chain₂, hS₂, he₂, hb₂, hs₂, hh₂⟩
  have hnot₂ : ∀ j, x ∉ chain₂ j := fun j hj =>
    hnot j (((he₁.trans he₂).mem_iff hrely j).mp hj)
  have h₂ : L.Attached chain₂ x s₂ splice₂ true 0 :=
    ⟨fun j => by simp [hnot₂ j], hb₂, by omega, by omega,
      fun j hj he => hnot₂ j (hb₂.next_mem j (Nat.zero_le j) hj x he),
      fun _ j hj => absurd hj (Nat.not_lt_zero j)⟩
  refine SafeIn.bind_of (forLevels_safe hx hrely hguar (Nat.zero_add _) hS₂ h₂) ?_
  rintro ⟨b, r⟩ s₃ ⟨chain₃, hS₃, hs₃, h₃⟩
  cases b with
  | true =>
    rw [if_pos rfl] at h₃ ⊢
    obtain ⟨r', hr', hs', hinv⟩ := Attached.finishSplice_eq hx hS₃ h₃
    rw [hr']
    refine ⟨chain₃, hS₃, ?_, hs'.trans (hs₃.trans (hs₂.trans hs₁)), hinv⟩
    rw [Inserted, if_pos rfl]
    exact h₃.mem_iff
  | false =>
    rw [if_neg Bool.false_ne_true] at h₃ ⊢
    exact ⟨chain₃, hS₃, h₃.1, hs₃.trans (hs₂.trans hs₁), Or.inr h₃.2⟩

/-- **`Insert<true>` next to insertions**, through any splice that is empty or nested, violates no
assertion.  When it returns, its node is linked on exactly the levels below its height, or nowhere
and an equal key is stored, and its splice can be used again. -/
theorem insertWithSplice_safe (hk : L.kMaxHeight ≤ kMaxPossibleHeight) (hS : L.Shape s chain)
    (hnot : ∀ j, x ∉ chain j) (hi : L.SpliceInv s chain splice) (hsize : L.kMaxHeight < splice.size)
    (fix : Bool) :
    L.SafeIn rely guar
      (fun r s' => ∃ chain', L.Shape s' chain' ∧ L.Inserted x r.1 chain' ∧
        r.2.size = splice.size ∧ L.SpliceInv s' chain' r.2)
      (L.insertWithSplice fuel true x splice fix) s := by
  rw [insertWithSplice_eq, check_bind_of (by simp [hx.height_pos, hx.height_le])]
  refine safe_getMaxHeight hS fun s₁ chain₁ hS₁ he₁ => ?_
  have hle : splice.height ≤ s₁.maxHeight := by
    rcases hi with h0 | hn
    · omega
    · exact hn.height_le.trans he₁.maxHeight_le
  refine SafeIn.bind_of (raiseMaxHeight_safe hS₁ hx.height_le le_rfl) ?_
  rintro m s₂ ⟨chain₂, hS₂, he₂, hhm, hm, hge⟩
  have he := he₁.trans he₂
  have hmk : m ≤ L.kMaxHeight := hm.trans hS₂.maxHeight_le
  exact insertAtHeight_safe hx hrely hguar hS₂
    (fun j hj => hnot j ((he.mem_iff hrely j).mp hj)) hhm hm (by omega)
    (hi.mono he.maxHeight_le he.sub) (hle.trans hge) (by omega) fix

/-- **`InsertConcurrently` next to insertions** violates no assertion; when it returns, its node is
linked on exactly the levels below its height, or nowhere and an equal key is stored. -/
theorem insertConcurrently_safe (hk : L.kMaxHeight < kMaxPossibleHeight) (hS : L.Shape s chain)
    (hnot : ∀ j, x ∉ chain j) (prev : ℕ → Node) (next : ℕ → Option Node) :
    L.SafeIn rely guar (fun b s' => ∃ chain', L.Shape s' chain' ∧ L.Inserted x b chain')
      (L.insertConcurrently fuel x prev next) s := by
  rw [insertConcurrently]
  refine SafeIn.bind_of
    (insertWithSplice_safe hx hrely hguar hk.le hS hnot (Or.inl rfl) hk false) ?_
  rintro r s₁ ⟨chain₁, hS₁, hins, -⟩
  exact ⟨chain₁, hS₁, hins⟩

/-- On a list of any configured height, `InsertConcurrently` next to insertions does no harm up to
the point where it would violate an assertion or leave the arrays on its stack. -/
theorem insertConcurrently_haltOnFault_safe (hS : L.Shape s chain) (hnot : ∀ j, x ∉ chain j)
    (prev : ℕ → Node) (next : ℕ → Option Node) :
    L.SafeIn rely guar (fun b s' => ∃ chain', L.Shape s' chain' ∧ L.Inserted x b chain')
      (L.insertConcurrently fuel x prev next).haltOnFault s := by
  rw [insertConcurrently, insertWithSplice_eq,
    check_bind_of (by simp [hx.height_pos, hx.height_le]), bind_bind, haltOnFault_bind]
  refine safe_getMaxHeight hS fun s₁ chain₁ hS₁ he₁ => ?_
  rw [bind_bind, haltOnFault_bind]
  refine SafeIn.bind_of (raiseMaxHeight_safe hS₁ hx.height_le le_rfl).haltOnFault ?_
  rintro m s₂ ⟨chain₂, hS₂, he₂, hhm, hm, -⟩
  have hnot₂ : ∀ j, x ∉ chain₂ j := fun j hj =>
    hnot j (((he₁.trans he₂).mem_iff hrely j).mp hj)
  by_cases hk : m < kMaxPossibleHeight
  · refine Safe.haltOnFault (SafeIn.bind_of
      (insertAtHeight_safe hx hrely hguar hS₂ hnot₂ hhm hm hk.le (Or.inl rfl) (Nat.zero_le m) hk
        false) ?_)
    rintro r s₃ ⟨chain₃, hS₃, hins, -⟩
    exact ⟨chain₃, hS₃, hins⟩
  · -- the check of the height or the first write to the splice fails
    have hpos : 0 < m := lt_of_lt_of_le hx.height_pos hhm
    rw [insertAtHeight_eq_fault hpos (not_lt.mp hk)]
    trivial

end Linking

end InlineSkipList

end PmemKv
