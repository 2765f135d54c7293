import PmemKv.SkipList.Shape

/-!
# Splices of a list on which one call runs at a time

What `FindSpliceForLevel`, the validation of a splice and `RecomputeSpliceLevels` do when a call
runs alone.

A splice that was used before may be stale on any of its levels: other insertions have since put
nodes between its entries.  What survives is the nesting `Nested`: on every level the entries are
nodes of that level, and going up they only move apart.  Hence a level that brackets the key
certifies all levels above it, which `Insert` therefore leaves unchecked.
-/

namespace PmemKv

open AtomicProg AtomicProg.Prog LinkedChain

/-! ## The operations of a call that runs alone -/

section Solo

variable {Node α : Type} [DecidableEq Node] {s : Solo Node} {Q : α → Solo Node → Prop}

@[simp] lemma returns_next (n : Node) (i : ℕ) (f : Option Node → ListProg Node α) :
    Returns execSolo (next n i >>= f) s Q ↔ Returns execSolo (f (s.links.next n i)) s Q := Iff.rfl

@[simp] lemma returns_setNext (n : Node) (i : ℕ) (x : Option Node) (f : Unit → ListProg Node α) :
    Returns execSolo (setNext n i x >>= f) s Q ↔
      Returns execSolo (f ()) { s with links := s.links.setNext n i x } Q := Iff.rfl

@[simp] lemma returns_getMaxHeight (f : ℕ → ListProg Node α) :
    Returns execSolo (getMaxHeight >>= f) s Q ↔
      Returns execSolo (f s.links.maxHeight) s Q := Iff.rfl

@[simp] lemma returns_casMaxHeight (e d : ℕ) (f : Bool × ℕ → ListProg Node α) :
    Returns execSolo (casMaxHeight e d >>= f) s Q ↔
      Returns execSolo (f (execSolo (.casMaxHeight e d) s).1)
        (execSolo (.casMaxHeight e d) s).2 Q :=
  Iff.rfl

/-- A compare-and-swap that finds the expected word succeeds. -/
lemma returns_casNext_of_eq {n : Node} {i : ℕ} {e x : Option Node} {f : Bool → ListProg Node α}
    (h : s.links.next n i = e) :
    Returns execSolo (casNext n i e x >>= f) s Q ↔
      Returns execSolo (f true) { s with links := s.links.setNext n i x } Q := by
  change Returns execSolo (f (execSolo (.casNext n i e x) s).1)
    (execSolo (.casNext n i e x) s).2 Q ↔ _
  rw [execSolo, if_pos h]

/-- A compare-and-swap that finds another word fails. -/
lemma returns_casNext_of_ne {n : Node} {i : ℕ} {e x : Option Node} {f : Bool → ListProg Node α}
    (h : s.links.next n i ≠ e) :
    Returns execSolo (casNext n i e x >>= f) s Q ↔ Returns execSolo (f false) s Q := by
  change Returns execSolo (f (execSolo (.casNext n i e x) s).1)
    (execSolo (.casNext n i e x) s).2 Q ↔ _
  rw [execSolo, if_neg h]

end Solo

namespace InlineSkipList

variable {Key DecodedKey Node : Type} (L : InlineSkipList Key DecodedKey Node)

/-! ## Nesting -/

/-- `p` is the head or its key is not above that of the node `q`. -/
def LePrev (p q : Node) : Prop := p = L.head ∨ (q ≠ L.head ∧ ¬L.cmp.Lt (L.key q) (L.key p))

/-- `m` is null or its key is not below that of the node `n`. -/
def LeNext (n m : Option Node) : Prop :=
  ∀ b, m = some b → ∃ a, n = some a ∧ ¬L.cmp.Lt (L.key b) (L.key a)

/-- The entries of a used splice: they are nodes of their levels and move apart going up, to the
sentinels on the level `height_`. -/
structure Nested (s : Links Node) (chain : ℕ → List Node) (splice : Splice Node) : Prop where
  /-- The splice is not higher than the list. -/
  height_le : splice.height ≤ s.maxHeight
  /-- The sentinel predecessor is the head. -/
  prev_height : splice.prev splice.height = L.head
  /-- The sentinel successor is null. -/
  next_height : splice.next splice.height = none
  /-- The predecessors are the head or nodes of their level. -/
  prev_mem : ∀ i < splice.height, splice.prev i = L.head ∨ splice.prev i ∈ chain i
  /-- The successors are null or nodes of their level. -/
  next_mem : ∀ i < splice.height, ∀ n, splice.next i = some n → n ∈ chain i
  /-- Going up, the predecessors move to the left. -/
  lePrev : ∀ i < splice.height, L.LePrev (splice.prev (i + 1)) (splice.prev i)
  /-- Going up, the successors move to the right. -/
  leNext : ∀ i < splice.height, L.LeNext (splice.next i) (splice.next (i + 1))

/-- What holds of every splice between two calls: it is empty or its entries are nested. -/
def SpliceInv (s : Links Node) (chain : ℕ → List Node) (splice : Splice Node) : Prop :=
  splice.height = 0 ∨ L.Nested s chain splice

variable {L} {s : Links Node} {chain : ℕ → List Node} {a : Key} {i j : ℕ} {n p q x : Node}
  {splice : Splice Node}

/-- Moving to the left keeps a node to the left of the key. -/
lemma Left.mono (hq : L.Left a q) (h : L.LePrev p q) : L.Left a p := by
  rcases h with h | ⟨hne, hpq⟩
  · exact Or.inl h
  · exact Or.inr (Comparator.lt_of_not_lt_of_lt hpq (hq.resolve_left hne))

/-- Moving to the right keeps a node to the right of the key. -/
lemma Right.mono {n m : Option Node} (hn : L.Right a n) (h : L.LeNext n m) : L.Right a m := by
  intro b hb hlt
  obtain ⟨c, hc, hbc⟩ := h b hb
  exact hbc (Comparator.lt_of_lt_of_not_lt hlt (hn c hc))

/-- A node to the left of the key is not to the right of the predecessor of the key. -/
lemma Shape.lePrev_predAt (h : L.Shape s chain) (hp : p = L.head ∨ p ∈ chain i)
    (hleft : L.Left a p) : L.LePrev p (L.predAt chain a i) := by
  rcases hp with hp | hp
  · exact Or.inl hp
  rcases hleft with hl | hlt
  · exact Or.inl hl
  -- `p` is one of the nodes before the key, of which the predecessor is the last
  have hpre : p ∈ before (L.isBefore a) (chain i) := by
    rw [← before_append_atLeast (L.isBefore a) (chain i)] at hp
    refine (List.mem_append.mp hp).resolve_right fun hp => ?_
    exact isBefore_eq_false_iff.mp
      (of_mem_atLeast (h.sorted i) (isBefore_of_nodeLt a) hp) hlt
  have hsorted : (before (L.isBefore a) (chain i)).Pairwise L.NodeLt :=
    (h.sorted i).sublist (List.takeWhile_sublist _)
  have hhead : L.head ∉ before (L.isBefore a) (chain i) := fun hm =>
    h.head_notMem i ((List.takeWhile_prefix _).subset hm)
  unfold predAt
  generalize before (L.isBefore a) (chain i) = l at hpre hsorted hhead
  rcases List.eq_nil_or_concat' l with rfl | ⟨l, b, rfl⟩
  · exact absurd hpre List.not_mem_nil
  · rw [List.getLastD_concat]
    refine Or.inr ⟨fun hb => hhead (by simp [hb]), ?_⟩
    rcases List.mem_append.mp hpre with hpl | hpb
    · exact ((List.pairwise_append.mp hsorted).2.2 p hpl b (by simp)).asymm
    · rw [List.mem_singleton.mp hpb]
      exact Comparator.lt_irrefl _

/-- A node to the right of the key is not to the left of the successor of the key. -/
lemma Shape.leNext_succAt (h : L.Shape s chain) {m : Option Node}
    (hm : ∀ b, m = some b → b ∈ chain i) (hright : L.Right a m) :
    L.LeNext (L.succAt chain a i) m := by
  intro b hb
  have hmem : b ∈ atLeast (L.isBefore a) (chain i) := by
    have hbc := hm b hb
    rw [← before_append_atLeast (L.isBefore a) (chain i)] at hbc
    refine (List.mem_append.mp hbc).resolve_left fun hpre => ?_
    exact hright b hb (isBefore_iff.mp (of_mem_before hpre))
  have hsorted : (atLeast (L.isBefore a) (chain i)).Pairwise L.NodeLt :=
    (h.sorted i).sublist (List.dropWhile_sublist _)
  unfold succAt
  generalize atLeast (L.isBefore a) (chain i) = l at hmem hsorted
  cases l with
  | nil => exact absurd hmem List.not_mem_nil
  | cons c l =>
    refine ⟨c, rfl, ?_⟩
    rcases List.mem_cons.mp hmem with rfl | hbl
    · exact Comparator.lt_irrefl _
    · exact ((List.pairwise_cons.mp hsorted).1 b hbl).asymm

/-- In a nested splice a node to the left of the key on one level certifies the levels above. -/
lemma Nested.left_of_le (h : L.Nested s chain splice) (hij : i ≤ j) (hj : j ≤ splice.height)
    (hleft : L.Left a (splice.prev i)) : L.Left a (splice.prev j) := by
  induction j with
  | zero => rwa [Nat.le_zero.mp hij] at hleft
  | succ j ih =>
    rcases Nat.le_succ_iff.mp hij with hij | rfl
    · exact (ih hij (Nat.le_of_succ_le hj)).mono (h.lePrev j hj)
    · exact hleft

/-- In a nested splice a node to the right of the key on one level certifies the levels above. -/
lemma Nested.right_of_le (h : L.Nested s chain splice) (hij : i ≤ j) (hj : j ≤ splice.height)
    (hright : L.Right a (splice.next i)) : L.Right a (splice.next j) := by
  induction j with
  | zero => rwa [Nat.le_zero.mp hij] at hright
  | succ j ih =>
    rcases Nat.le_succ_iff.mp hij with hij | rfl
    · exact (ih hij (Nat.le_of_succ_le hj)).mono (h.leNext j hj)
    · exact hright

/-- The predecessor entries of adjacent levels are the same, or the upper one is the head or has a
smaller key. -/
lemma Nested.prev_lt (hn : L.Nested s chain splice) (h : L.Shape s chain)
    (hj : j < splice.height) : splice.prev (j + 1) = splice.prev j ∨
      splice.prev (j + 1) = L.head ∨ L.NodeLt (splice.prev (j + 1)) (splice.prev j) := by
  rcases hn.lePrev j hj with hh | ⟨hne, hnot⟩
  · exact Or.inr (Or.inl hh)
  by_cases hlt : L.NodeLt (splice.prev (j + 1)) (splice.prev j)
  · exact Or.inr (Or.inr hlt)
  have hmem : splice.prev j ∈ chain j := (hn.prev_mem j hj).resolve_left hne
  rcases Nat.lt_or_eq_of_le (Nat.succ_le_of_lt hj) with hj1 | hj1
  · rcases hn.prev_mem (j + 1) hj1 with hh | hm
    · exact Or.inr (Or.inl hh)
    · exact Or.inl (h.eq_of_equiv (h.nested j _ hm) hmem (Comparator.equiv_iff.mpr ⟨hlt, hnot⟩))
  · rw [Nat.succ_eq_add_one] at hj1
    exact Or.inr (Or.inl (by rw [hj1, hn.prev_height]))

/-- The successor entries of adjacent levels are the same, or the upper one is null or has a
greater key. -/
lemma Nested.next_lt (hn : L.Nested s chain splice) (h : L.Shape s chain)
    (hj : j < splice.height) : splice.next (j + 1) = splice.next j ∨
      ∀ b, splice.next (j + 1) = some b → ∃ a, splice.next j = some a ∧ L.NodeLt a b := by
  rcases Nat.lt_or_eq_of_le (Nat.succ_le_of_lt hj) with hj1 | hj1
  · cases hb : splice.next (j + 1) with
    | none => exact Or.inr fun b hb => nomatch hb
    | some b =>
      obtain ⟨a, ha, hnot⟩ := hn.leNext j hj b hb
      by_cases hlt : L.NodeLt a b
      · refine Or.inr fun b' hb' => ⟨a, ha, ?_⟩
        rwa [← Option.some.inj hb']
      · have hmb := h.nested j b (hn.next_mem (j + 1) hj1 b hb)
        have hma := hn.next_mem j hj a ha
        rw [ha, h.eq_of_equiv hma hmb (Comparator.equiv_iff.mpr ⟨hlt, hnot⟩)]
        exact Or.inl rfl
  · refine Or.inr fun b hb => ?_
    rw [Nat.succ_eq_add_one] at hj1
    rw [hj1, hn.next_height] at hb
    exact absurd hb (by simp)

/-- A nested splice stays nested when the list grows. -/
lemma Nested.mono {s' : Links Node} {chain' : ℕ → List Node} (h : L.Nested s chain splice)
    (hmax : s.maxHeight ≤ s'.maxHeight) (hchain : ∀ i, ∀ n ∈ chain i, n ∈ chain' i) :
    L.Nested s' chain' splice :=
  { h with
    height_le := h.height_le.trans hmax
    prev_mem := fun i hi => (h.prev_mem i hi).imp id (hchain i _)
    next_mem := fun i hi n hn => hchain i n (h.next_mem i hi n hn) }

/-- A splice stays as it is when the list grows. -/
lemma SpliceInv.mono {s' : Links Node} {chain' : ℕ → List Node} (h : L.SpliceInv s chain splice)
    (hmax : s.maxHeight ≤ s'.maxHeight) (hchain : ∀ i, ∀ n ∈ chain i, n ∈ chain' i) :
    L.SpliceInv s' chain' splice :=
  h.imp id fun h => h.mono hmax hchain

/-! ### Splices that bracket a key -/

/-- The entries of level `j` are the neighbours of the key. -/
def Exact (L : InlineSkipList Key DecodedKey Node) (chain : ℕ → List Node) (a : Key)
    (splice : Splice Node) (j : ℕ) : Prop :=
  splice.prev j = L.predAt chain a j ∧ splice.next j = L.succAt chain a j

/-- A splice whose levels from `m` on are nested and bracket the key. -/
structure BracketsFrom (L : InlineSkipList Key DecodedKey Node) (s : Links Node)
    (chain : ℕ → List Node) (a : Key) (splice : Splice Node) (m : ℕ) : Prop where
  /-- The splice is not higher than the list. -/
  height_le : splice.height ≤ s.maxHeight
  /-- The levels in question are levels of the splice. -/
  le_height : m ≤ splice.height
  /-- The sentinel predecessor is the head. -/
  prev_height : splice.prev splice.height = L.head
  /-- The sentinel successor is null. -/
  next_height : splice.next splice.height = none
  /-- The predecessors are the head or nodes of their level. -/
  prev_mem : ∀ i, m ≤ i → i < splice.height → splice.prev i = L.head ∨ splice.prev i ∈ chain i
  /-- The successors are null or nodes of their level. -/
  next_mem : ∀ i, m ≤ i → i < splice.height → ∀ n, splice.next i = some n → n ∈ chain i
  /-- Going up, the predecessors move to the left. -/
  lePrev : ∀ i, m ≤ i → i < splice.height → L.LePrev (splice.prev (i + 1)) (splice.prev i)
  /-- Going up, the successors move to the right. -/
  leNext : ∀ i, m ≤ i → i < splice.height → L.LeNext (splice.next i) (splice.next (i + 1))
  /-- The predecessors stand to the left of the key. -/
  left : ∀ i, m ≤ i → i ≤ splice.height → L.Left a (splice.prev i)
  /-- The successors stand to the right of the key. -/
  right : ∀ i, m ≤ i → i ≤ splice.height → L.Right a (splice.next i)

/-- A splice that brackets the key on all levels is nested. -/
lemma BracketsFrom.nested (h : L.BracketsFrom s chain a splice 0) : L.Nested s chain splice where
  height_le := h.height_le
  prev_height := h.prev_height
  next_height := h.next_height
  prev_mem i hi := h.prev_mem i (Nat.zero_le i) hi
  next_mem i hi := h.next_mem i (Nat.zero_le i) hi
  lePrev i hi := h.lePrev i (Nat.zero_le i) hi
  leNext i hi := h.leNext i (Nat.zero_le i) hi

/-- A nested splice brackets a key from every level on that does. -/
lemma Nested.bracketsFrom {m : ℕ} (h : L.Nested s chain splice) (hm : m ≤ splice.height)
    (hleft : L.Left a (splice.prev m)) (hright : L.Right a (splice.next m)) :
    L.BracketsFrom s chain a splice m where
  height_le := h.height_le
  le_height := hm
  prev_height := h.prev_height
  next_height := h.next_height
  prev_mem i _ hi := h.prev_mem i hi
  next_mem i _ hi := h.next_mem i hi
  lePrev i _ hi := h.lePrev i hi
  leNext i _ hi := h.leNext i hi
  left _ hi hle := h.left_of_le hi hle hleft
  right _ hi hle := h.right_of_le hi hle hright

/-- Bracketing is kept when the list grows. -/
lemma BracketsFrom.mono {m : ℕ} {s' : Links Node} {chain' : ℕ → List Node}
    (h : L.BracketsFrom s chain a splice m) (hmax : s.maxHeight ≤ s'.maxHeight)
    (hchain : ∀ i, ∀ n ∈ chain i, n ∈ chain' i) : L.BracketsFrom s' chain' a splice m :=
  { h with
    height_le := h.height_le.trans hmax
    prev_mem := fun i hi hlt => (h.prev_mem i hi hlt).imp id (hchain i _)
    next_mem := fun i hi hlt n hn => hchain i n (h.next_mem i hi hlt n hn) }

/-- A splice that holds the sentinels on its highest level brackets every key there. -/
lemma bracketsFrom_sentinels (chain : ℕ → List Node) (a : Key)
    (hheight : splice.height ≤ s.maxHeight)
    (hprev : splice.prev splice.height = L.head) (hnext : splice.next splice.height = none) :
    L.BracketsFrom s chain a splice splice.height where
  height_le := hheight
  le_height := le_rfl
  prev_height := hprev
  next_height := hnext
  prev_mem i hi hlt := absurd hlt (not_lt.mpr hi)
  next_mem i hi hlt := absurd hlt (not_lt.mpr hi)
  lePrev i hi hlt := absurd hlt (not_lt.mpr hi)
  leNext i hi hlt := absurd hlt (not_lt.mpr hi)
  left i hi hle := le_antisymm hle hi ▸ Or.inl hprev
  right i hi hle := by
    rw [le_antisymm hle hi, hnext]
    exact right_none

/-- A splice that is reset to a height holds the sentinels on this level. -/
lemma bracketsFrom_reset (chain : ℕ → List Node) (a : Key) (splice : Splice Node) {m : ℕ}
    (hm : m ≤ s.maxHeight) :
    L.BracketsFrom s chain a { splice.setLevel m L.head none with height := m } m :=
  bracketsFrom_sentinels chain a hm (by simp [Splice.setLevel_prev])
    (by simp [Splice.setLevel_next])

/-- Whether a level of the splice or its sentinel, an entry is the head or on the level below. -/
lemma BracketsFrom.mem_below {m : ℕ} (h : L.Shape s chain)
    (hb : L.BracketsFrom s chain a splice (m + 1)) :
    (splice.prev (m + 1) = L.head ∨ splice.prev (m + 1) ∈ chain m) ∧
      ∀ n, splice.next (m + 1) = some n → n ∈ chain m := by
  rcases Nat.lt_or_eq_of_le hb.le_height with hlt | heq
  · refine ⟨(hb.prev_mem _ le_rfl hlt).imp id (h.nested m _), fun n hn => ?_⟩
    exact h.nested m n (hb.next_mem _ le_rfl hlt n hn)
  · rw [heq, hb.prev_height, hb.next_height]
    exact ⟨Or.inl rfl, fun n hn => nomatch hn⟩

/-- Entering nodes around the key on the level below, between the entries of the level above,
extends the bracketing levels. -/
lemma BracketsFrom.setLevel {m : ℕ} {n : Option Node} (hb : L.BracketsFrom s chain a splice (m + 1))
    (hpm : p = L.head ∨ p ∈ chain m) (hnm : ∀ b, n = some b → b ∈ chain m) (hleft : L.Left a p)
    (hright : L.Right a n) (hp : L.LePrev (splice.prev (m + 1)) p)
    (hn : L.LeNext n (splice.next (m + 1))) :
    L.BracketsFrom s chain a (splice.setLevel m p n) m := by
  have hm : m < splice.height := hb.le_height
  refine ⟨hb.height_le, hm.le, ?_, ?_, fun i hi hlt => ?_, fun i hi hlt => ?_,
    fun i hi hlt => ?_, fun i hi hlt => ?_, fun i hi hle => ?_, fun i hi hle => ?_⟩ <;>
    simp only [Splice.setLevel_height, Splice.setLevel_prev, Splice.setLevel_next] at *
  · rw [if_neg (by omega), hb.prev_height]
  · rw [if_neg (by omega), hb.next_height]
  · split
    · next he => rwa [he]
    · exact hb.prev_mem i (by omega) hlt
  · split
    · next he => rwa [he]
    · exact hb.next_mem i (by omega) hlt
  · rw [if_neg (by omega)]
    split
    · next he => rwa [he]
    · exact hb.lePrev i (by omega) hlt
  · rw [if_neg (c := i + 1 = m) (by omega)]
    split
    · next he => rwa [he]
    · exact hb.leNext i (by omega) hlt
  · split
    · exact hleft
    · exact hb.left i (by omega) hle
  · split
    · exact hright
    · exact hb.right i (by omega) hle

/-- Entering the neighbours of the key on the level below extends the bracketing levels. -/
lemma BracketsFrom.setLevel_neighbours {m : ℕ} (h : L.Shape s chain)
    (hb : L.BracketsFrom s chain a splice (m + 1)) :
    L.BracketsFrom s chain a
      (splice.setLevel m (L.predAt chain a m) (L.succAt chain a m)) m := by
  obtain ⟨hpm, hnm⟩ := hb.mem_below h
  exact hb.setLevel (Shape.predAt_mem L chain a m) (fun _ => Shape.succAt_mem)
    (Shape.predAt_left L chain a m) h.succAt_right
    (h.lePrev_predAt hpm (hb.left _ le_rfl hb.le_height))
    (h.leNext_succAt hnm (hb.right _ le_rfl hb.le_height))

/-! ## `FindSpliceForLevel` -/

variable [DecidableEq Node] {c : Solo Node}

/-- The assertion that the list is sorted holds on every level. -/
lemma Shape.isSorted_next (h : L.Shape s chain) (hi : i < L.kMaxHeight)
    (hx : x = L.head ∨ x ∈ chain i) : L.isSorted x (s.next x i) = true := by
  rw [isSorted]
  cases hn : s.next x i with
  | none => simp
  | some n =>
    rcases (h.next_mem hi hx hn).2 with hh | hh
    · simp [hh]
    · simp [show L.cmp.Lt (L.key x) (L.key n) from hh]

/-- The assertion that a walk has not overshot holds to the left of the key. -/
lemma keyIsAfterNode_of_left (hx : L.Left a x) :
    (x = L.head || L.keyIsAfterNode (L.cmp.decodeKey a) (some x)) = true := by
  rcases hx with hh | hh
  · simp [hh]
  · simp [hh]

/-- Where a walk with an upper bound to the right of the key stops, the rest is to its right. -/
lemma right_of_stops {after m : Option Node} (hafter : L.Right a after)
    (hstop : (m = after || !L.keyIsAfterNode (L.cmp.decodeKey a) m) = true) : L.Right a m := by
  intro x hx
  rcases Bool.or_eq_true_iff.mp hstop with hs | hs
  · exact hafter x (by rw [← hx]; exact (of_decide_eq_true hs).symm)
  · rw [hx] at hs
    simpa using hs

/-- `FindSpliceForLevel`, started to the left of the key with an upper bound to its right, finds
the neighbours of the key on its level. -/
theorem findSpliceForLevel_returns (h : L.Shape c.links chain) (hi : i < L.kMaxHeight)
    {before after : _} {fuel : ℕ} (hb : before = L.head ∨ before ∈ chain i)
    (hleft : L.Left a before) (hafter : L.Right a after) (hfuel : (chain i).length < fuel) :
    Returns execSolo (L.findSpliceForLevel (L.cmp.decodeKey a) after i fuel before) c fun r c' =>
      c' = c ∧ r = (L.predAt chain a i, L.succAt chain a i) := by
  obtain ⟨l₁, l₂, hl, hlast⟩ := exists_getLastD_eq (List.mem_cons.mpr hb)
  have hlen : l₂.length < fuel := by
    rw [hl, List.length_append] at hfuel
    omega
  clear hfuel
  -- induction on the fuel, which covers the part of the chain behind `before`
  induction fuel generalizing before l₁ l₂ with
  | zero => exact absurd hlen (Nat.not_lt_zero _)
  | succ fuel ih =>
    have hnext := (h.next_of_split hi hl hlast).2
    rw [findSpliceForLevel, returns_next, check_bind_of (h.isSorted_next hi hb),
      check_bind_of (keyIsAfterNode_of_left hleft)]
    split
    · next hstop =>
      have hright : L.Right a (c.links.next before i) := right_of_stops hafter hstop
      obtain ⟨h₁, h₂⟩ := h.eq_neighbours hi hb hleft hright
      exact ⟨rfl, by rw [h₂, h₁]⟩
    · next hgo =>
      cases hn : c.links.next before i with
      | none => simp [hn] at hgo
      | some n =>
        rw [hn] at hgo hnext
        cases l₂ with
        | nil => simp at hnext
        | cons m l₂ =>
          obtain rfl : n = m := Option.some.inj hnext
          have hlt : L.cmp.Lt (L.key n) a := by
            have := (Bool.or_eq_false_iff.mp (Bool.eq_false_iff.mpr hgo)).2
            simpa using this
          refine ih ?_ (Or.inr hlt) (l₁ ++ [n]) l₂ ?_ List.getLastD_concat ?_
          · exact Or.inr (h.next_mem hi hb hn).1
          · rw [hl, List.append_assoc, List.singleton_append]
          · simp only [List.length_cons] at hlen
            omega

/-! ## `RecomputeSpliceLevels` -/

/-- The recomputation of the levels below `m` leaves a splice that brackets the key on all levels,
exactly so on the recomputed ones; the other entries stay. -/
theorem recomputeLoop_returns (h : L.Shape c.links chain) {fuel m : ℕ}
    (hfuel : ∀ i, (chain i).length < fuel) (hsize : splice.height < splice.size)
    (hb : L.BracketsFrom c.links chain a splice m) :
    Returns execSolo (L.recomputeLoop fuel (L.cmp.decodeKey a) m splice) c fun r c' =>
      c' = c ∧ L.BracketsFrom c.links chain a r 0 ∧
        (r.size = splice.size ∧ r.height = splice.height) ∧
        (∀ j, m ≤ j → r.prev j = splice.prev j ∧ r.next j = splice.next j) ∧
        ∀ j < m, L.Exact chain a r j := by
  induction m generalizing splice with
  | zero =>
    exact ⟨rfl, hb, ⟨rfl, rfl⟩, fun _ _ => ⟨rfl, rfl⟩, fun j hj => absurd hj (Nat.not_lt_zero j)⟩
  | succ m ih =>
    have hm : m < splice.height := hb.le_height
    have hk : m < L.kMaxHeight := lt_of_lt_of_le hm (hb.height_le.trans h.maxHeight_le)
    rw [recomputeLoop, Splice.readPrev_of_lt (by omega), done_bind,
      Splice.readNext_of_lt (by omega), done_bind]
    refine Returns.bind_of (findSpliceForLevel_returns h hk (hb.mem_below h).1
      (hb.left _ le_rfl hb.le_height) (hb.right _ le_rfl hb.le_height) (hfuel m)) ?_
    rintro _ _ ⟨rfl, rfl⟩
    rw [Splice.writeLevel_of_lt (by omega), done_bind]
    refine (ih (by simpa using hsize) (hb.setLevel_neighbours h)).mono ?_
    rintro r c' ⟨hc, hr, hs, hsame, hex⟩
    refine ⟨hc, hr, hs, fun j hj => ?_, fun j hj => ?_⟩
    · obtain ⟨h₁, h₂⟩ := hsame j (Nat.le_of_succ_le hj)
      rw [h₁, h₂, Splice.setLevel_prev, Splice.setLevel_next, if_neg (by omega), if_neg (by omega)]
      exact ⟨rfl, rfl⟩
    · rcases Nat.lt_succ_iff_lt_or_eq.mp hj with hj | rfl
      · exact hex j hj
      · obtain ⟨h₁, h₂⟩ := hsame j le_rfl
        rw [Exact, h₁, h₂, Splice.setLevel_prev, Splice.setLevel_next, if_pos rfl, if_pos rfl]
        exact ⟨rfl, rfl⟩

/-! ## The validation of a splice -/

/-- The skip over equal bad predecessors ends at or below the sentinel, above the level it started
from. -/
theorem skipPrev_returns {bad : Node} {H m fuel : ℕ} (hbad : bad ≠ L.head) (hm : m ≤ H)
    (hsent : splice.prev H = L.head) (hsize : H < splice.size) (hfuel : H - m < fuel) :
    Returns execSolo (skipPrev splice bad fuel m) c fun r c' =>
      c' = c ∧ m ≤ r ∧ r ≤ H ∧ (splice.prev m = bad → m < r) := by
  induction fuel generalizing m with
  | zero => exact absurd hfuel (Nat.not_lt_zero _)
  | succ fuel ih =>
    rw [skipPrev, Splice.readPrev_of_lt (by omega), done_bind]
    split
    · next he =>
      have hlt : m < H := by
        rcases Nat.lt_or_eq_of_le hm with hlt | rfl
        · exact hlt
        · exact absurd (he.symm.trans hsent) hbad
      refine (ih hlt (by omega)).mono ?_
      rintro r c' ⟨hc, h₁, h₂, -⟩
      exact ⟨hc, by omega, h₂, fun _ => h₁⟩
    · next hne => exact ⟨rfl, le_rfl, hm, fun he => absurd he hne⟩

/-- The skip over equal bad successors ends at or below the sentinel, above the level it started
from. -/
theorem skipNext_returns {bad : Option Node} {H m fuel : ℕ} (hbad : bad ≠ none) (hm : m ≤ H)
    (hsent : splice.next H = none) (hsize : H < splice.size) (hfuel : H - m < fuel) :
    Returns execSolo (skipNext splice bad fuel m) c fun r c' =>
      c' = c ∧ m ≤ r ∧ r ≤ H ∧ (splice.next m = bad → m < r) := by
  induction fuel generalizing m with
  | zero => exact absurd hfuel (Nat.not_lt_zero _)
  | succ fuel ih =>
    rw [skipNext, Splice.readNext_of_lt (by omega), done_bind]
    split
    · next he =>
      have hlt : m < H := by
        rcases Nat.lt_or_eq_of_le hm with hlt | rfl
        · exact hlt
        · exact absurd (he.symm.trans hsent) hbad
      refine (ih hlt (by omega)).mono ?_
      rintro r c' ⟨hc, h₁, h₂, -⟩
      exact ⟨hc, by omega, h₂, fun _ => h₁⟩
    · next hne => exact ⟨rfl, le_rfl, hm, fun he => absurd he hne⟩

/-- The validation of a nested splice ends at or below the sentinel, on a level that brackets the
key and, below the sentinel, is tight. -/
theorem validateSplice_returns (hn : L.Nested c.links chain splice) {m fuel : ℕ}
    (hsize : splice.height < splice.size) (hm : m ≤ splice.height)
    (hfuel : splice.height - m + 1 < fuel) (fix : Bool) :
    Returns execSolo
      (L.validateSplice (L.cmp.decodeKey a) splice splice.height fix fuel m) c fun r c' =>
        c' = c ∧ r ≤ splice.height ∧ L.Left a (splice.prev r) ∧ L.Right a (splice.next r) ∧
          (r < splice.height → c.links.next (splice.prev r) r = splice.next r) := by
  have hsentinel : L.Left a (splice.prev splice.height) ∧
      L.Right a (splice.next splice.height) := by
    rw [hn.prev_height, hn.next_height]
    exact ⟨Or.inl rfl, right_none⟩
  induction fuel generalizing m with
  | zero => exact absurd hfuel (Nat.not_lt_zero _)
  | succ fuel ih =>
    rw [validateSplice]
    split
    · next hlt =>
      rw [Splice.readPrev_of_lt (by omega), done_bind, Splice.readNext_of_lt (by omega), done_bind,
        returns_next]
      split
      · exact ih hlt (by omega)
      · next htight =>
        split
        · next hbad =>
          obtain ⟨hb₁, hb₂⟩ := (Bool.and_eq_true_iff).mp hbad
          have hne : splice.prev m ≠ L.head := of_decide_eq_true hb₁
          split
          · refine Returns.bind_of
              (skipPrev_returns hne hm hn.prev_height hsize (by omega)) ?_
            rintro r c' ⟨rfl, -, hr, hlt'⟩
            exact ih hr (by have := hlt' rfl; omega)
          · exact ih le_rfl (by omega)
        · next hleft =>
          split
          · next hafter =>
            have hne : splice.next m ≠ none := by
              rintro he
              simp [he] at hafter
            split
            · refine Returns.bind_of
                (skipNext_returns hne hm hn.next_height hsize (by omega)) ?_
              rintro r c' ⟨rfl, -, hr, hlt'⟩
              exact ih hr (by have := hlt' rfl; omega)
            · exact ih le_rfl (by omega)
          · next hnotAfter =>
            refine ⟨rfl, hm, ?_, ?_, fun _ => by simpa using htight⟩
            · by_cases he : splice.prev m = L.head
              · exact Or.inl he
              · right
                simpa [he] using hleft
            · intro b hb
              rw [hb] at hnotAfter
              simpa using hnotAfter
    · next hge =>
      obtain rfl : m = splice.height := le_antisymm hm (not_lt.mp hge)
      exact ⟨rfl, le_rfl, hsentinel.1, hsentinel.2, fun h => absurd h (Nat.lt_irrefl _)⟩

/-- The splice that `Insert` works with brackets the key from `recompute_height` on, exactly so if
nothing is recomputed. -/
theorem prepareSplice_returns (h : L.Shape c.links chain) (hi : L.SpliceInv c.links chain splice)
    (hsize : L.kMaxHeight < splice.size) {fuel : ℕ} (hfuel : L.kMaxHeight + 1 < fuel) (fix : Bool) :
    Returns execSolo
      (L.prepareSplice fuel (L.cmp.decodeKey a) splice c.links.maxHeight fix) c fun r c' =>
        c' = c ∧ L.BracketsFrom c.links chain a r.1 r.2 ∧
          (r.1.size = splice.size ∧ r.1.height = c.links.maxHeight) ∧
          (r.2 = 0 → L.Exact chain a r.1 0) := by
  have hmax : c.links.maxHeight < splice.size := lt_of_le_of_lt h.maxHeight_le hsize
  have hpos := h.maxHeight_pos
  rw [prepareSplice]
  split
  · next hlt =>
    rw [Splice.writeLevel_of_lt hmax, done_bind]
    exact ⟨rfl, bracketsFrom_reset chain a splice le_rfl, ⟨rfl, rfl⟩, fun h0 => absurd h0 hpos.ne'⟩
  · next hge =>
    have hn : L.Nested c.links chain splice := hi.resolve_left (by omega)
    have hheight : splice.height = c.links.maxHeight :=
      le_antisymm hn.height_le (not_lt.mp hge)
    have hkm := h.maxHeight_le
    rw [← hheight]
    refine Returns.bind_of (validateSplice_returns (a := a) hn (by omega) (Nat.zero_le _)
      (by omega) fix) ?_
    rintro r c' ⟨rfl, hr, hleft, hright, htight⟩
    refine ⟨rfl, ⟨hn.height_le, hr, hn.prev_height, hn.next_height, fun i _ hi => hn.prev_mem i hi,
      fun i _ hi => hn.next_mem i hi, fun i _ hi => hn.lePrev i hi, fun i _ hi => hn.leNext i hi,
      fun i hi hle => hn.left_of_le hi hle hleft, fun i hi hle => hn.right_of_le hi hle hright⟩,
      ⟨rfl, rfl⟩, ?_⟩
    rintro rfl
    have h0 : 0 < splice.height := by omega
    have hnext := htight h0
    obtain ⟨h₁, h₂⟩ := h.eq_neighbours (by omega) (hn.prev_mem 0 h0) hleft (hnext ▸ hright)
    exact ⟨h₁, hnext ▸ h₂⟩

/-- What `Insert` has in hand before it links the node: a splice of full height that brackets the
key on all levels, exactly so on the lowest and on those below `m`, which were recomputed. -/
structure Ready (L : InlineSkipList Key DecodedKey Node) (s : Links Node)
    (chain : ℕ → List Node) (a : Key) (splice : Splice Node) (m : ℕ) : Prop where
  /-- All levels bracket the key. -/
  brackets : L.BracketsFrom s chain a splice 0
  /-- The lowest level does so exactly. -/
  exact_zero : L.Exact chain a splice 0
  /-- The recomputed levels do so exactly. -/
  exact : ∀ j < m, L.Exact chain a splice j

/-- Preparing a splice and recomputing the levels below `recompute_height`. -/
theorem recompute_returns (h : L.Shape c.links chain) {fuel m : ℕ}
    (hfuel : ∀ i, (chain i).length < fuel) (hsize : splice.height < splice.size)
    (hb : L.BracketsFrom c.links chain a splice m) (hex : m = 0 → L.Exact chain a splice 0) :
    Returns execSolo
      (if 0 < m then L.recomputeSpliceLevels fuel (L.cmp.decodeKey a) splice m else pure splice) c
      fun r c' => c' = c ∧ L.Ready c.links chain a r m ∧
        r.size = splice.size ∧ r.height = splice.height := by
  split
  · next hpos =>
    rw [recomputeSpliceLevels, check_bind_of (by simpa using hpos),
      check_bind_of (by simpa using hb.le_height)]
    refine (recomputeLoop_returns h hfuel hsize hb).mono ?_
    rintro r c' ⟨hc, hr, hs, -, he⟩
    exact ⟨hc, ⟨hr, he 0 hpos, he⟩, hs⟩
  · next hzero =>
    obtain rfl : m = 0 := Nat.eq_zero_of_not_pos hzero
    exact ⟨rfl, ⟨hb, hex rfl, fun j hj => absurd hj (Nat.not_lt_zero j)⟩, rfl, rfl⟩

end InlineSkipList

end PmemKv
