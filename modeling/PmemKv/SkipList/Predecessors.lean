import PmemKv.SkipList.Reachable

/-!
# The two predecessor searches

`FindLessThan` and `RecomputeSpliceLevels` both find, level by level, the nodes between which a key
belongs.  The first descends in one loop and remembers the node that stopped it on the level above;
the second starts every level anew between the entries of the level above and stops at the upper one
by comparing pointers.  On a reachable list they find the same nodes.
-/

namespace PmemKv

open AtomicProg AtomicProg.Prog LinkedChain

namespace InlineSkipList

variable {Key DecodedKey Node ι : Type} [DecidableEq Node] [DecidableEq ι]
  {L : InlineSkipList Key DecodedKey Node}

/-- The last node of level `i` whose key is smaller than `a`, or the head if there is none. -/
def IsPredecessor (L : InlineSkipList Key DecodedKey Node) (s : Links Node) (a : Key) (i : ℕ)
    (p : Node) : Prop :=
  ∃ l, L.LevelChain s i l ∧ p = (l.filter fun n => L.cmp.Lt (L.key n) a).getLastD L.head

/-- The splice holds the sentinels on the highest level in use. -/
structure HoldsSentinels (L : InlineSkipList Key DecodedKey Node) (s : Links Node)
    (splice : Splice Node) : Prop where
  /-- The splice is as high as the list. -/
  height : splice.height = s.maxHeight
  /-- The arrays have an entry for this level. -/
  size : s.maxHeight < splice.size
  /-- The predecessor entry is the head. -/
  prev : splice.prev s.maxHeight = L.head
  /-- The successor entry is null. -/
  next : splice.next s.maxHeight = none

omit [DecidableEq Node] in
/-- The predecessor of a key on a level of the list. -/
lemma Shape.isPredecessor {s : Links Node} {chain : ℕ → List Node} (h : L.Shape s chain) {i : ℕ}
    (hi : i < L.kMaxHeight) (a : Key) : L.IsPredecessor s a i (L.predAt chain a i) := by
  refine ⟨chain i, h.linked i hi, ?_⟩
  rw [predAt, (cut_eq_filter (h.sorted i) (isBefore_of_nodeLt a)).1]
  rfl

/-- The recomputation of all levels finds the neighbours of the key on every level. -/
theorem recomputeSpliceLevels_returns {chain : ℕ → List Node} {c : Solo Node}
    (h : L.Shape c.links chain) {a : Key} {splice : Splice Node} {fuel : ℕ}
    (hfuel : ∀ i, (chain i).length < fuel) (hs : L.HoldsSentinels c.links splice) :
    Returns execSolo
      (L.recomputeSpliceLevels fuel (L.cmp.decodeKey a) splice c.links.maxHeight) c fun r c' =>
        c' = c ∧ ∀ i < c.links.maxHeight, L.Exact chain a r i := by
  have hpos := h.maxHeight_pos
  have hb : L.BracketsFrom c.links chain a splice c.links.maxHeight := by
    rw [← hs.height]
    exact bracketsFrom_sentinels chain a hs.height.le (hs.height ▸ hs.prev) (hs.height ▸ hs.next)
  rw [recomputeSpliceLevels, check_bind_of (by simpa using hpos),
    check_bind_of (by simpa using hs.height.ge)]
  refine (recomputeLoop_returns h hfuel (hs.height ▸ hs.size) hb).mono ?_
  rintro r c' ⟨hc, -, -, -, hex⟩
  exact ⟨hc, hex⟩

/-- **The predecessor searches agree.**  On a reachable list and for every key, `FindLessThan` and
`RecomputeSpliceLevels` from the sentinels fill the same predecessors into their arrays, the latter
with their successors behind them; and `FindLessThan` with a range of levels, from the head or from
a node to the left of the key on the highest of them, fills the same nodes into these levels,
touches no other entry and returns the one of the lowest level. -/
theorem predecessors_agree {s : ListState Node ι} (h : L.Reachable s) :
    ∃ N, ∀ fuel ≥ N, ∀ c : Solo Node, c.links = s.links → ∀ a : Key, ∃ pred : ℕ → Node,
      (∀ i < s.links.maxHeight, L.IsPredecessor s.links a i (pred i)) ∧
      (∀ prev splice, L.HoldsSentinels s.links splice → ∃ prev' splice',
        run execSolo (L.findLessThan fuel a (some prev)) c = .done (pred 0, some prev') c ∧
        run execSolo (L.recomputeSpliceLevels fuel (L.cmp.decodeKey a) splice s.links.maxHeight) c =
          .done splice' c ∧
        ∀ i < s.links.maxHeight, prev' i = pred i ∧ splice'.prev i = pred i ∧
          splice'.next i = s.links.next (pred i) i) ∧
      ∀ prev root bottom top, bottom < top → top ≤ s.links.maxHeight →
        (root = L.head ∨ (L.LinkedAt s.links (top - 1) root ∧ L.cmp.Lt (L.key root) a)) →
        ∃ prev', run execSolo (L.findLessThanFrom fuel a (some prev) root top bottom) c =
            .done (pred bottom, some prev') c ∧
          ∀ i, prev' i = if bottom ≤ i ∧ i < top then pred i else prev i := by
  obtain ⟨chain, hc⟩ := h.consistent
  refine ⟨L.kMaxHeight * ((chain 0).length + 1) + (chain 0).length + 1,
    fun fuel hfuel c hlinks a => ⟨L.predAt chain a, ?_⟩⟩
  rw [← hlinks]
  have hS : L.Shape c.links chain := hlinks ▸ hc.shape
  have hle := hS.maxHeight_le
  have hsearch : L.kMaxHeight * ((chain 0).length + 1) < fuel := by omega
  have hlen : ∀ i, (chain i).length < fuel := fun i => by
    have := hS.length_le i
    omega
  refine ⟨fun i hi => hS.isPredecessor (by omega) a, fun prev splice hs => ?_,
    fun prev root bottom top hbt htop hroot => ?_⟩
  · obtain ⟨splice', c', hrun, rfl, hex⟩ := returns_iff_run.mp
      (recomputeSpliceLevels_returns (a := a) hS hlen hs)
    refine ⟨_, splice', (findLessThan_returns hS hsearch (some prev)).run_eq, hrun,
      fun i hi => ⟨?_, (hex i hi).1, ?_⟩⟩
    · exact if_pos ⟨Nat.zero_le i, hi⟩
    · rw [(hex i hi).2, hS.next_predAt (by omega)]
  · have hroot' : root = L.head ∨ (root ∈ chain (top - 1) ∧ L.cmp.Lt (L.key root) a) :=
      hroot.imp id fun hr => ⟨(hS.linkedAt_iff (by omega)).mp hr.1, hr.2⟩
    exact ⟨_, (findLessThanFrom_returns hS hbt htop hroot' hsearch (some prev)).run_eq,
      fun i => rfl⟩

/-- `predecessors_agree` for the key `2` in the list with three integers, through all levels and
from the node `2`, which is linked on all of them, through the two upper ones. -/
theorem predecessors_agree_integers : ∃ fuel, ∃ pred : ℕ → ℕ, pred 0 = 2 ∧ ∃ prev splice,
    run execSolo (integers.findLessThan fuel 2 (some fun _ => 9))
      ⟨(integersAfter threeCalls).links, 0⟩ =
        .done (pred 0, some prev) ⟨(integersAfter threeCalls).links, 0⟩ ∧
    run execSolo (integers.recomputeSpliceLevels fuel 2 ⟨3, fun _ => 0, fun _ => none, 4⟩ 3)
      ⟨(integersAfter threeCalls).links, 0⟩ =
        .done splice ⟨(integersAfter threeCalls).links, 0⟩ ∧
    splice.prev 0 = prev 0 ∧ ∃ prev',
      run execSolo (integers.findLessThanFrom fuel 2 (some fun _ => 9) 2 3 1)
        ⟨(integersAfter threeCalls).links, 0⟩ =
          .done (pred 1, some prev') ⟨(integersAfter threeCalls).links, 0⟩ ∧ prev' 0 = 9 := by
  obtain ⟨N, h⟩ := predecessors_agree threeCalls_reachable
  obtain ⟨pred, hpred, hall, hrange⟩ := h N le_rfl ⟨(integersAfter threeCalls).links, 0⟩ rfl (2 : ℤ)
  obtain ⟨prev, splice, hfind, hrecompute, hagree⟩ := hall (fun _ => 9)
    ⟨3, fun _ => 0, fun _ => none, 4⟩ ⟨rfl, by decide, rfl, rfl⟩
  have hlevel : integers.LevelChain (integersAfter threeCalls).links 2 [2, 5] := ⟨rfl, rfl, rfl⟩
  obtain ⟨prev', hfrom, hprev'⟩ := hrange (fun _ => 9) 2 1 3 (by decide) (by decide)
    (Or.inr ⟨⟨_, hlevel, by decide⟩, by decide⟩)
  obtain ⟨l, hl, hp⟩ := hpred 0 (by decide)
  obtain rfl := hl.unique threeCalls_levelChain.2.2.2
  obtain ⟨h₁, h₂, -⟩ := hagree 0 (by decide)
  exact ⟨N, pred, hp, prev, splice, hfind, hrecompute, h₂.trans h₁.symm, prev', hfrom, hprev' 0⟩

end InlineSkipList

end PmemKv
