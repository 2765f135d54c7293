import PmemKv.SkipList.ConcurrentSearch
import PmemKv.SkipList.Estimate
import PmemKv.SkipList.Iteration

/-!
# Iterators next to insertions

The obligations of the member functions of `InlineSkipList::Iterator` and of `EstimateCount` next to
insertions.  Each iterator function is atomic: the position it moves to is the one that the chain of
level `0` gives at the instant of its last load.  For `SeekForPrev`, which is a search followed by
any number of `Prev`, this is the last load of the last search: nodes that were linked behind the
target in the meantime are stepped over, and nothing can come in before the target once the last
search has returned.
-/

namespace PmemKv

open AtomicProg AtomicProg.Prog LinkedChain

namespace InlineSkipList

variable {Key DecodedKey Node : Type} [DecidableEq Node] {L : InlineSkipList Key DecodedKey Node}
  {s : Links Node} {chain : ℕ → List Node} {n : Node} {a : Key} {fuel : ℕ}
  {rely guar : Node → Prop}

namespace Iterator

/-- `Next` next to insertions. -/
theorem next_safe (h : L.Shape s chain) (hn : n ∈ chain 0) :
    L.SafeIn rely guar
      (fun it s' => ∃ chain' l₁ l₂, L.Shape s' chain' ∧ chain' 0 = l₁ ++ n :: l₂ ∧ it = ⟨l₂.head?⟩)
      (next ⟨some n⟩) s := by
  rw [next_some]
  refine safe_next h fun s₁ chain₁ hS₁ he => ?_
  have hpos : 0 < L.kMaxHeight := lt_of_lt_of_le hS₁.maxHeight_pos hS₁.maxHeight_le
  obtain ⟨l₁, l₂, hl⟩ := List.append_of_mem (he.sub 0 n hn)
  have hl' : chain₁ 0 = (l₁ ++ [n]) ++ l₂ := by rw [hl, List.append_assoc, List.singleton_append]
  obtain ⟨-, hnext⟩ := hS₁.next_of_split hpos hl' List.getLastD_concat
  exact ⟨chain₁, l₁, l₂, hS₁, hl, by rw [hnext]⟩

/-- `Prev` next to insertions. -/
theorem prev_safe (h : L.Shape s chain) (hn : n ∈ chain 0) :
    L.SafeIn rely guar
      (fun it s' => ∃ chain' l₁ l₂, L.Shape s' chain' ∧ chain' 0 = l₁ ++ n :: l₂ ∧
        it = ⟨l₁.getLast?⟩)
      (prev L fuel ⟨some n⟩) s := by
  rw [prev_some]
  refine SafeIn.bind_of ((findLessThan_safe (a := L.key n) h none).track h) ?_
  rintro r s₁ ⟨⟨chain', hS', hr⟩, chain₁, hS₁, he⟩
  obtain rfl := hS₁.unique hS'
  obtain ⟨l₁, l₂, hl⟩ := List.append_of_mem (he.sub 0 n hn)
  refine ⟨chain₁, l₁, l₂, hS₁, hl, ?_⟩
  have hhead : L.head ∉ l₁ := fun hm => hS₁.head_notMem 0 (hl ▸ List.mem_append_left _ hm)
  rw [hr, predAt, cut_at (c := ⟨s₁, 0⟩) hS₁ hl, getLastD_head_eq hhead]

/-- `SeekToFirst` next to insertions. -/
theorem seekToFirst_safe (h : L.Shape s chain) :
    L.SafeIn rely guar (fun it s' => ∃ chain', L.Shape s' chain' ∧ it = ⟨(chain' 0).head?⟩)
      (seekToFirst L) s := by
  rw [seekToFirst]
  refine safe_next h fun s₁ chain₁ hS₁ he => ?_
  have hpos : 0 < L.kMaxHeight := lt_of_lt_of_le hS₁.maxHeight_pos hS₁.maxHeight_le
  exact ⟨chain₁, hS₁, by rw [(hS₁.linked 0 hpos).next_eq]⟩

/-- `SeekToLast` next to insertions. -/
theorem seekToLast_safe (h : L.Shape s chain) :
    L.SafeIn rely guar (fun it s' => ∃ chain', L.Shape s' chain' ∧ it = ⟨(chain' 0).getLast?⟩)
      (seekToLast L fuel) s := by
  rw [seekToLast]
  refine SafeIn.bind_of (findLast_safe h) ?_
  rintro _ s₁ ⟨chain₁, hS₁, rfl⟩
  exact ⟨chain₁, hS₁, by rw [getLastD_head_eq (hS₁.head_notMem 0)]⟩

/-- `Seek` next to insertions. -/
theorem seek_safe (h : L.Shape s chain) :
    L.SafeIn rely guar
      (fun it s' => ∃ chain', L.Shape s' chain' ∧ it = ⟨L.succAt chain' a 0⟩)
      (seek L fuel a) s := by
  rw [seek]
  refine SafeIn.bind_of (findGreaterOrEqual_safe h) ?_
  rintro _ s₁ ⟨chain₁, hS₁, rfl⟩
  exact ⟨chain₁, hS₁, rfl⟩

/-- The last node of level `0` whose key is not greater than the target. -/
def lastNotAfter (L : InlineSkipList Key DecodedKey Node) (l : List Node) (a : Key) :
    Option Node :=
  (l.filter fun b => ¬L.cmp.Lt a (L.key b)).getLast?

omit [DecidableEq Node] in
/-- The last node of a part of level `0` behind which all keys are greater than the target. -/
lemma lastNotAfter_eq {l l₁ l₂ : List Node} (hl : l = l₁ ++ l₂)
    (hbefore : ∀ b, l₁.getLast? = some b → ¬L.cmp.Lt a (L.key b))
    (hbehind : ∀ b ∈ l₂, L.cmp.Lt a (L.key b)) : lastNotAfter L l a = l₁.getLast? := by
  have hdrop : l₂.filter (fun b => ¬L.cmp.Lt a (L.key b)) = [] :=
    List.filter_eq_nil_iff.mpr fun b hb => by simpa using hbehind b hb
  rw [lastNotAfter, hl, List.filter_append, hdrop, List.append_nil]
  rcases List.eq_nil_or_concat' l₁ with rfl | ⟨l₁, b, rfl⟩
  · rfl
  · have hkeep : [b].filter (fun b => ¬L.cmp.Lt a (L.key b)) = [b] :=
      List.filter_eq_self.mpr fun d hd => by
        rw [List.mem_singleton.mp hd]
        exact decide_eq_true (hbefore b List.getLast?_concat)
    rw [List.filter_append, hkeep, List.getLast?_concat, List.getLast?_concat]

/-- The loop of `SeekForPrev` next to insertions: it holds the last node of a part of level `0`
behind which all keys are greater than the target. -/
theorem seekForPrevLoop_safe {l₁ l₂ : List Node} {rounds : ℕ} (h : L.Shape s chain)
    (hl : chain 0 = l₁ ++ l₂) (hbehind : ∀ b ∈ l₂, L.cmp.Lt a (L.key b)) :
    L.SafeIn rely guar
      (fun it s' => ∃ chain', L.Shape s' chain' ∧ it = ⟨lastNotAfter L (chain' 0) a⟩)
      (seekForPrevLoop L fuel a rounds ⟨l₁.getLast?⟩) s := by
  induction rounds generalizing s chain l₁ l₂ with
  | zero => trivial
  | succ rounds ih =>
    rcases List.eq_nil_or_concat' l₁ with rfl | ⟨l, b, rfl⟩
    · exact ⟨chain, h, by rw [lastNotAfter_eq hl (fun b hb => nomatch hb) hbehind]⟩
    · rw [List.getLast?_concat]
      change L.SafeIn rely guar _ (if L.cmp.compare a (L.key b) < 0 then do
        let it ← prev L fuel ⟨some b⟩
        seekForPrevLoop L fuel a rounds it
        else pure ⟨some b⟩) s
      have hb : b ∈ chain 0 := by simp [hl]
      split
      · next hlt =>
        refine SafeIn.bind_of (prev_safe h hb) ?_
        rintro _ s₁ ⟨chain₁, m₁, m₂, hS₁, hm, rfl⟩
        -- what is behind `b` now is greater than `b`, hence than the target
        refine ih hS₁ hm (List.forall_mem_cons.mpr ⟨hlt, fun d hd => ?_⟩)
        have hs := hS₁.sorted 0
        rw [hm] at hs
        exact Comparator.Lt.trans hlt
          ((List.pairwise_cons.mp (List.pairwise_append.mp hs).2.1).1 d hd)
      · next hge =>
        refine ⟨chain, h, ?_⟩
        rw [lastNotAfter_eq hl ?_ hbehind, List.getLast?_concat]
        intro d hd
        rw [List.getLast?_concat] at hd
        rw [← Option.some.inj hd]
        exact hge

/-- `SeekForPrev` next to insertions. -/
theorem seekForPrev_safe (h : L.Shape s chain) :
    L.SafeIn rely guar
      (fun it s' => ∃ chain', L.Shape s' chain' ∧ it = ⟨lastNotAfter L (chain' 0) a⟩)
      (seekForPrev L fuel a) s := by
  rw [seekForPrev]
  refine SafeIn.bind_of (seek_safe h) ?_
  rintro _ s₁ ⟨chain₁, hS₁, rfl⟩
  cases hn : L.succAt chain₁ a 0 with
  | none =>
    refine SafeIn.bind_of (seekToLast_safe hS₁) ?_
    rintro _ s₂ ⟨chain₂, hS₂, rfl⟩
    exact seekForPrevLoop_safe hS₂ (List.append_nil _).symm fun b hb => absurd hb List.not_mem_nil
  | some n =>
    have hnot : ¬L.cmp.Lt (L.key n) a := hS₁.succAt_right n hn
    obtain ⟨l₁, l₂, hl⟩ := List.append_of_mem (Shape.succAt_mem hn)
    have hl' : chain₁ 0 = (l₁ ++ [n]) ++ l₂ := by rw [hl, List.append_assoc, List.singleton_append]
    have hs := hS₁.sorted 0
    rw [hl] at hs
    have hbehind : ∀ b ∈ l₂, L.cmp.Lt a (L.key b) := fun b hb =>
      Comparator.lt_of_not_lt_of_lt hnot
        ((List.pairwise_cons.mp (List.pairwise_append.mp hs).2.1).1 b hb)
    have hloop : L.SafeIn rely guar _ (seekForPrevLoop L fuel a fuel ⟨(l₁ ++ [n]).getLast?⟩) s₁ :=
      seekForPrevLoop_safe hS₁ hl' hbehind
    rwa [List.getLast?_concat] at hloop

end Iterator

/-- The loop of `EstimateCount` next to insertions. -/
theorem estimateCountLoop_safe (h : L.Shape s chain) {kBranching level count : ℕ} {x : Node}
    (hlevel : level < L.kMaxHeight) (hx : x = L.head ∨ x ∈ chain level) (hleft : L.Left a x) :
    L.SafeIn rely guar (fun _ s' => ∃ chain', L.Shape s' chain')
      (L.estimateCountLoop kBranching (L.cmp.decodeKey a) fuel level x count) s := by
  induction fuel generalizing s chain level x count with
  | zero => trivial
  | succ fuel ih =>
    have hcheck : (x = L.head ||
        L.cmp.compareDecoded (L.key x) (L.cmp.decodeKey a) < 0) = true := by
      rcases hleft with hh | hlt
      · simp [hh]
      · have : L.cmp.compare (L.key x) a < 0 := hlt
        simp [L.cmp.compareDecoded_decodeKey, this]
    rw [estimateCountLoop, check_bind_of hcheck]
    refine safe_next h fun s₁ chain₁ hS₁ he => ?_
    have hx₁ : x = L.head ∨ x ∈ chain₁ level := hx.imp id (he.sub level x)
    split
    · by_cases h0 : level = 0
      · rw [if_pos h0]
        exact ⟨chain₁, hS₁⟩
      · rw [if_neg h0]
        obtain ⟨level, rfl⟩ : ∃ j, level = j + 1 := ⟨level - 1, by omega⟩
        exact ih hS₁ (Nat.lt_of_succ_lt hlevel) (hx₁.imp id (hS₁.nested level x)) hleft
    · next hgo =>
      cases hn : s₁.next x level with
      | none => simp [hn] at hgo
      | some n =>
        have hlt : L.cmp.compare (L.key n) a < 0 := by
          simpa [hn, L.cmp.compareDecoded_decodeKey] using hgo
        exact ih hS₁ hlevel (Or.inr (hS₁.next_mem hlevel hx₁ hn).1) (Or.inr hlt)

/-- `EstimateCount` next to insertions violates no assertion. -/
theorem estimateCount_safe (h : L.Shape s chain) (kBranching : ℕ) :
    L.SafeIn rely guar (fun _ s' => ∃ chain', L.Shape s' chain')
      (L.estimateCount kBranching fuel a) s := by
  rw [estimateCount]
  refine safe_getMaxHeight h fun s₁ chain₁ hS₁ he => ?_
  have hpos := hS₁.maxHeight_pos
  have hle := hS₁.maxHeight_le
  exact estimateCountLoop_safe hS₁ (by omega) (Or.inl rfl) (Or.inl rfl)

end InlineSkipList

end PmemKv
