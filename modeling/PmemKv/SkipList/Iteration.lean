import PmemKv.SkipList.Reachable

/-!
# Iterators over an inline skip list

The source functions of `InlineSkipList::Iterator`.  An iterator holds a node of the list or, when
it is not valid, null.  `Next` follows the links of level `0`; there are no links back, so `Prev`
searches the predecessor of its own key from the head on.

While no insertion runs, an iterator walks over the chain of level `0`: forwards in its order,
backwards in the reverse order, and the searches start such a walk at the place of a key.
-/

namespace PmemKv

open AtomicProg AtomicProg.Prog LinkedChain

namespace InlineSkipList

/-- An `InlineSkipList::Iterator` over a given list. -/
structure Iterator (Node : Type) where
  /-- `node_`. -/
  node : Option Node

namespace Iterator

variable {Key DecodedKey Node : Type} [DecidableEq Node] (L : InlineSkipList Key DecodedKey Node)

/-- `Valid`. -/
def valid (it : Iterator Node) : Bool := it.node.isSome

/-- `Key`. -/
def key (it : Iterator Node) : ListProg Node Key := do
  check it.valid
  match it.node with
  | some n => pure (L.key n)
  | none => .fault

/-- `Next`. -/
def next (it : Iterator Node) : ListProg Node (Iterator Node) := do
  check it.valid
  match it.node with
  | some n => do
    let n ← PmemKv.next n 0
    pure ⟨n⟩
  | none => .fault

/-- `Prev`. -/
def prev (fuel : ℕ) (it : Iterator Node) : ListProg Node (Iterator Node) := do
  check it.valid
  match it.node with
  | some n => do
    let r ← L.findLessThan fuel (L.key n) none
    pure ⟨if r.1 = L.head then none else some r.1⟩
  | none => .fault

/-- `Seek`. -/
def seek (fuel : ℕ) (target : Key) : ListProg Node (Iterator Node) := do
  let n ← L.findGreaterOrEqual fuel target
  pure ⟨n⟩

/-- `SeekToFirst`. -/
def seekToFirst : ListProg Node (Iterator Node) := do
  let n ← PmemKv.next L.head 0
  pure ⟨n⟩

/-- `SeekToLast`. -/
def seekToLast (fuel : ℕ) : ListProg Node (Iterator Node) := do
  let n ← L.findLast fuel
  pure ⟨if n = L.head then none else some n⟩

/-- The loop of `SeekForPrev`; every search in it has the fuel `fuel`. -/
def seekForPrevLoop (fuel : ℕ) (target : Key) : ℕ → Iterator Node → ListProg Node (Iterator Node)
  | 0, _ => .exhausted
  | rounds + 1, it =>
    if it.valid then do
      let k ← it.key L
      if L.cmp.compare target k < 0 then do
        let it ← it.prev L fuel
        seekForPrevLoop fuel target rounds it
      else pure it
    else pure it

/-- `SeekForPrev`. -/
def seekForPrev (fuel : ℕ) (target : Key) : ListProg Node (Iterator Node) := do
  let it ← seek L fuel target
  let it ← (if it.valid then pure it else seekToLast L fuel)
  seekForPrevLoop L fuel target fuel it

/-- The nodes that a loop `for (…; it.Valid(); advance(it))` visits before the iterator becomes
invalid. -/
def visit (advance : Iterator Node → ListProg Node (Iterator Node)) :
    ℕ → Iterator Node → ListProg Node (List Node)
  | 0, _ => .exhausted
  | fuel + 1, it =>
    match it.node with
    | some n => do
      let it ← advance it
      let l ← visit advance fuel it
      pure (n :: l)
    | none => pure []

/-- `for (it.SeekToFirst(); it.Valid(); it.Next())`. -/
def visitForward (fuel : ℕ) : ListProg Node (List Node) := do
  let it ← seekToFirst L
  visit next fuel it

/-- `for (it.SeekToLast(); it.Valid(); it.Prev())`. -/
def visitBackward (fuel : ℕ) : ListProg Node (List Node) := do
  let it ← seekToLast L fuel
  visit (prev L fuel) fuel it

/-! ## One operation -/

variable {L} {chain : ℕ → List Node} {c : Solo Node} {n : Node} {l₁ l₂ : List Node} {target : Key}
  {fuel : ℕ}

omit [DecidableEq Node] in
/-- What lies before a node of level `0` comes before its key, and what lies behind it does not. -/
lemma cut_at (h : L.Shape c.links chain) (hl : chain 0 = l₁ ++ n :: l₂) :
    before (L.isBefore (L.key n)) (chain 0) = l₁ := by
  have hs := h.sorted 0
  rw [hl] at hs ⊢
  refine (cut_unique (fun b hb => isBefore_iff.mpr ?_) fun b hb => ?_).1
  · exact (List.pairwise_append.mp hs).2.2 b hb n List.mem_cons_self
  · obtain rfl : n = b := Option.some.inj hb
    exact isBefore_eq_false_iff.mpr (Comparator.lt_irrefl _)

omit [DecidableEq Node] in
/-- The last node of a part of level `0`, with the head for none. -/
lemma getLastD_head_eq [DecidableEq Node] {l : List Node} (hhead : L.head ∉ l) :
    (if l.getLastD L.head = L.head then none else some (l.getLastD L.head)) = l.getLast? := by
  rcases List.eq_nil_or_concat' l with rfl | ⟨l, b, rfl⟩
  · exact if_pos rfl
  · rw [List.getLastD_concat, List.getLast?_concat]
    exact if_neg fun (he : b = L.head) => hhead (he ▸ by simp)

omit [DecidableEq Node] in
/-- `Next` on a node. -/
lemma next_some (n : Node) : next ⟨some n⟩ = PmemKv.next n 0 >>= fun m => pure ⟨m⟩ := rfl

/-- `Prev` on a node. -/
lemma prev_some (n : Node) : prev L fuel ⟨some n⟩ = L.findLessThan fuel (L.key n) none >>= fun r =>
    pure ⟨if r.1 = L.head then none else some r.1⟩ := rfl

/-- `Next` moves to the node behind. -/
theorem next_returns (h : L.Shape c.links chain) (hl : chain 0 = l₁ ++ n :: l₂) :
    Returns execSolo (next ⟨some n⟩) c fun it c' => c' = c ∧ it = ⟨l₂.head?⟩ := by
  have hpos : 0 < L.kMaxHeight := lt_of_lt_of_le h.maxHeight_pos h.maxHeight_le
  have hl' : chain 0 = (l₁ ++ [n]) ++ l₂ := by rw [hl, List.append_assoc, List.singleton_append]
  obtain ⟨-, hnext⟩ := h.next_of_split hpos hl' List.getLastD_concat
  rw [next_some, returns_next, hnext]
  exact ⟨rfl, rfl⟩

/-- `Prev` moves to the node before. -/
theorem prev_returns (h : L.Shape c.links chain) (hl : chain 0 = l₁ ++ n :: l₂)
    (hfuel : L.kMaxHeight * ((chain 0).length + 1) < fuel) :
    Returns execSolo (prev L fuel ⟨some n⟩) c fun it c' => c' = c ∧ it = ⟨l₁.getLast?⟩ := by
  rw [prev_some]
  refine Returns.bind_of (findLessThan_returns h hfuel none) ?_
  rintro _ c' ⟨rfl, rfl⟩
  refine ⟨rfl, ?_⟩
  have hhead : L.head ∉ l₁ := fun hm => h.head_notMem 0 (hl ▸ List.mem_append_left _ hm)
  rw [predAt, cut_at h hl, getLastD_head_eq hhead]

/-- `SeekToFirst` moves to the first node. -/
theorem seekToFirst_returns (h : L.Shape c.links chain) :
    Returns execSolo (seekToFirst L) c fun it c' => c' = c ∧ it = ⟨(chain 0).head?⟩ := by
  have hpos : 0 < L.kMaxHeight := lt_of_lt_of_le h.maxHeight_pos h.maxHeight_le
  rw [seekToFirst, ← (h.linked 0 hpos).next_eq]
  exact ⟨rfl, rfl⟩

/-- `SeekToLast` moves to the last node. -/
theorem seekToLast_returns (h : L.Shape c.links chain)
    (hfuel : L.kMaxHeight * ((chain 0).length + 1) < fuel) :
    Returns execSolo (seekToLast L fuel) c fun it c' => c' = c ∧ it = ⟨(chain 0).getLast?⟩ := by
  rw [seekToLast]
  refine Returns.bind_of (findLast_returns h hfuel) ?_
  rintro _ c' ⟨rfl, rfl⟩
  exact ⟨rfl, by rw [getLastD_head_eq (h.head_notMem 0)]⟩

/-- `Seek` moves to the first node whose key is not smaller than the target. -/
theorem seek_returns (h : L.Shape c.links chain)
    (hfuel : L.kMaxHeight * ((chain 0).length + 1) < fuel) :
    Returns execSolo (seek L fuel target) c fun it c' =>
      c' = c ∧ it = ⟨L.succAt chain target 0⟩ := by
  rw [seek]
  refine Returns.bind_of (findGreaterOrEqual_returns (a := target) h hfuel) ?_
  rintro _ c' ⟨rfl, rfl⟩
  exact ⟨rfl, rfl⟩

/-- The loop of `SeekForPrev`, started at the last node of a part of level `0` behind which all keys
are greater than the target, goes back to the last node whose key is not greater. -/
theorem seekForPrevLoop_returns (h : L.Shape c.links chain)
    (hfuel : L.kMaxHeight * ((chain 0).length + 1) < fuel) {rounds : ℕ} (hl : chain 0 = l₁ ++ l₂)
    (hbehind : ∀ b ∈ l₂, L.cmp.Lt target (L.key b)) (hrounds : l₁.length < rounds) :
    Returns execSolo (seekForPrevLoop L fuel target rounds ⟨l₁.getLast?⟩) c fun it c' =>
      c' = c ∧ it = ⟨((chain 0).filter fun b => ¬L.cmp.Lt target (L.key b)).getLast?⟩ := by
  have hdrop : l₂.filter (fun b => ¬L.cmp.Lt target (L.key b)) = [] :=
    List.filter_eq_nil_iff.mpr fun b hb => by simpa using hbehind b hb
  -- induction on the rounds, each of which takes the last node of the part away
  induction rounds generalizing l₁ l₂ with
  | zero => exact absurd hrounds (Nat.not_lt_zero _)
  | succ rounds ih =>
    rcases List.eq_nil_or_concat' l₁ with rfl | ⟨l, b, rfl⟩
    · refine ⟨rfl, ?_⟩
      rw [hl, List.nil_append, hdrop]
    · rw [List.getLast?_concat]
      change Returns execSolo (if L.cmp.compare target (L.key b) < 0 then do
        let it ← prev L fuel ⟨some b⟩
        seekForPrevLoop L fuel target rounds it
        else pure ⟨some b⟩) c _
      have hl' : chain 0 = l ++ b :: l₂ := by rw [hl, List.append_assoc, List.singleton_append]
      split
      · next hlt =>
        refine Returns.bind_of (prev_returns h hl' hfuel) ?_
        rintro _ c' ⟨rfl, rfl⟩
        have hbehind' : ∀ d ∈ b :: l₂, L.cmp.Lt target (L.key d) :=
          List.forall_mem_cons.mpr ⟨hlt, hbehind⟩
        refine ih hl' hbehind' ?_ (List.filter_eq_nil_iff.mpr fun d hd =>
          by simpa using hbehind' d hd)
        simp only [List.length_append, List.length_singleton] at hrounds
        omega
      · next hge =>
        refine ⟨rfl, ?_⟩
        have hkeep : [b].filter (fun b => ¬L.cmp.Lt target (L.key b)) = [b] :=
          List.filter_eq_self.mpr fun d hd => by
            rw [List.mem_singleton.mp hd]
            exact decide_eq_true hge
        rw [hl, List.filter_append, List.filter_append, hdrop, hkeep, List.append_nil,
          List.getLast?_concat]

/-- `SeekForPrev` moves to the last node whose key is not greater than the target. -/
theorem seekForPrev_returns (h : L.Shape c.links chain)
    (hfuel : L.kMaxHeight * ((chain 0).length + 1) < fuel) (hrounds : (chain 0).length < fuel) :
    Returns execSolo (seekForPrev L fuel target) c fun it c' =>
      c' = c ∧ it = ⟨((chain 0).filter fun b => ¬L.cmp.Lt target (L.key b)).getLast?⟩ := by
  rw [seekForPrev]
  refine Returns.bind_of (seek_returns h hfuel) ?_
  rintro _ c' ⟨rfl, rfl⟩
  cases hn : L.succAt chain target 0 with
  | none =>
    -- all keys are smaller
    refine Returns.bind_of (seekToLast_returns h hfuel) ?_
    rintro _ c ⟨rfl, rfl⟩
    exact seekForPrevLoop_returns h hfuel (List.append_nil _).symm
      (fun b hb => absurd hb List.not_mem_nil) hrounds
  | some n =>
    rw [succAt] at hn
    have hnot : ¬L.cmp.Lt (L.key n) target := h.succAt_right n hn
    obtain ⟨l₂, hl₂⟩ := List.head?_eq_some_iff.mp hn
    have hl : chain 0 = (before (L.isBefore target) (chain 0) ++ [n]) ++ l₂ := by
      rw [List.append_assoc, List.singleton_append, ← hl₂, before_append_atLeast]
    have hs := h.sorted 0
    rw [hl] at hs
    have hbehind : ∀ b ∈ l₂, L.cmp.Lt target (L.key b) := fun b hb =>
      Comparator.lt_of_not_lt_of_lt hnot ((List.pairwise_append.mp hs).2.2 n (by simp) b hb)
    have hround : (before (L.isBefore target) (chain 0) ++ [n]).length < fuel := by
      have hlen := congrArg List.length hl
      rw [List.length_append] at hlen
      omega
    have := seekForPrevLoop_returns h hfuel hl hbehind hround
    rwa [List.getLast?_concat] at this

/-! ## Walks -/

/-- A walk forwards from the first node of the rest of level `0` visits this rest. -/
theorem visit_next_returns (h : L.Shape c.links chain) (hl : chain 0 = l₁ ++ l₂)
    (hfuel : l₂.length < fuel) :
    Returns execSolo (visit next fuel ⟨l₂.head?⟩) c fun l c' => c' = c ∧ l = l₂ := by
  induction l₂ generalizing l₁ fuel with
  | nil =>
    obtain ⟨fuel, rfl⟩ : ∃ f, fuel = f + 1 := ⟨fuel - 1, by omega⟩
    exact ⟨rfl, rfl⟩
  | cons n l₂ ih =>
    rw [List.length_cons] at hfuel
    obtain ⟨fuel, rfl⟩ : ∃ f, fuel = f + 1 := ⟨fuel - 1, by omega⟩
    rw [List.head?_cons, visit]
    refine Returns.bind_of (next_returns h hl) ?_
    rintro _ c' ⟨rfl, rfl⟩
    have hl' : chain 0 = (l₁ ++ [n]) ++ l₂ := by rw [hl, List.append_assoc, List.singleton_append]
    refine Returns.bind_of (ih hl' (by omega)) ?_
    rintro _ c ⟨rfl, rfl⟩
    exact ⟨rfl, rfl⟩

/-- A walk backwards from the last node of a part of level `0` visits this part in reverse. -/
theorem visit_prev_returns (h : L.Shape c.links chain)
    (hfuel : L.kMaxHeight * ((chain 0).length + 1) < fuel) {rounds : ℕ} (hl : chain 0 = l₁ ++ l₂)
    (hrounds : l₁.length < rounds) :
    Returns execSolo (visit (prev L fuel) rounds ⟨l₁.getLast?⟩) c fun l c' =>
      c' = c ∧ l = l₁.reverse := by
  induction rounds generalizing l₁ l₂ with
  | zero => exact absurd hrounds (Nat.not_lt_zero _)
  | succ rounds ih =>
    rcases List.eq_nil_or_concat' l₁ with rfl | ⟨l, n, rfl⟩
    · exact ⟨rfl, rfl⟩
    · rw [List.append_assoc, List.singleton_append] at hl
      rw [List.length_append, List.length_singleton] at hrounds
      rw [List.getLast?_concat, visit]
      refine Returns.bind_of (prev_returns h hl hfuel) ?_
      rintro _ c' ⟨rfl, rfl⟩
      refine Returns.bind_of (ih hl (by omega)) ?_
      rintro _ c ⟨rfl, rfl⟩
      exact ⟨rfl, List.reverse_concat.symm⟩

/-! ## Iteration over a reachable list -/

omit [DecidableEq Node] in
/-- The first node whose key is not smaller than the target. -/
lemma succAt_eq_filter (h : L.Shape c.links chain) :
    L.succAt chain target 0 =
      ((chain 0).filter fun b => ¬L.cmp.Lt (L.key b) target).head? := by
  rw [succAt, (cut_eq_filter (h.sorted 0) (isBefore_of_nodeLt target)).2]
  simp only [isBefore, decide_not]

/-- A step forwards from a node is undone by a step back. -/
lemma prev_of_next (h : L.Shape c.links chain)
    (hfuel : L.kMaxHeight * ((chain 0).length + 1) < fuel) {m : Node} (hn : n ∈ chain 0)
    (hrun : run execSolo (next ⟨some n⟩) c = .done ⟨some m⟩ c) :
    run execSolo (prev L fuel ⟨some m⟩) c = .done ⟨some n⟩ c := by
  obtain ⟨l₁, l₂, hl⟩ := List.append_of_mem hn
  rw [(next_returns h hl).run_eq] at hrun
  obtain ⟨l₂, rfl⟩ := List.head?_eq_some_iff.mp
    (Iterator.mk.inj (Outcome.done.inj hrun).1)
  have hl' : chain 0 = (l₁ ++ [n]) ++ m :: l₂ := by
    rw [hl, List.append_assoc, List.singleton_append]
  rw [(prev_returns h hl' hfuel).run_eq, List.getLast?_concat]

/-- A step back from a node is undone by a step forwards. -/
lemma next_of_prev (h : L.Shape c.links chain)
    (hfuel : L.kMaxHeight * ((chain 0).length + 1) < fuel) {m : Node} (hn : n ∈ chain 0)
    (hrun : run execSolo (prev L fuel ⟨some n⟩) c = .done ⟨some m⟩ c) :
    run execSolo (next ⟨some m⟩) c = .done ⟨some n⟩ c := by
  obtain ⟨l₁, l₂, hl⟩ := List.append_of_mem hn
  rw [(prev_returns h hl hfuel).run_eq] at hrun
  obtain ⟨l₁, rfl⟩ := List.getLast?_eq_some_iff.mp
    (Iterator.mk.inj (Outcome.done.inj hrun).1)
  rw [List.append_assoc, List.singleton_append] at hl
  rw [(next_returns h hl).run_eq, List.head?_cons]

/-- **Iteration is exact in both directions.**  On a reachable list on which no insertion runs, a
walk forwards visits the nodes of level `0` in their strictly increasing order and a walk backwards
visits them in reverse; `Seek` and `SeekForPrev` find the first node not below and the last node not
above the target; and a step forwards and a step back undo each other. -/
theorem iteration_exact {ι : Type} [DecidableEq ι] {s : ListState Node ι} (h : L.Reachable s) :
    ∃ l, L.LevelChain s.links 0 l ∧ l.Pairwise L.NodeLt ∧
      ∃ N, ∀ fuel ≥ N, ∀ c : Solo Node, c.links = s.links →
        run execSolo (visitForward L fuel) c = .done l c ∧
        run execSolo (visitBackward L fuel) c = .done l.reverse c ∧
        (∀ target,
          run execSolo (seek L fuel target) c =
            .done ⟨(l.filter fun b => ¬L.cmp.Lt (L.key b) target).head?⟩ c ∧
          run execSolo (seekForPrev L fuel target) c =
            .done ⟨(l.filter fun b => ¬L.cmp.Lt target (L.key b)).getLast?⟩ c) ∧
        (∀ n ∈ l, ∀ m, run execSolo (next ⟨some n⟩) c = .done ⟨some m⟩ c →
          run execSolo (prev L fuel ⟨some m⟩) c = .done ⟨some n⟩ c) ∧
        ∀ n ∈ l, ∀ m, run execSolo (prev L fuel ⟨some n⟩) c = .done ⟨some m⟩ c →
          run execSolo (next ⟨some m⟩) c = .done ⟨some n⟩ c := by
  obtain ⟨chain, hc⟩ := h.consistent
  have hpos : 0 < L.kMaxHeight := lt_of_lt_of_le hc.shape.maxHeight_pos hc.shape.maxHeight_le
  refine ⟨chain 0, hc.shape.linked 0 hpos, hc.shape.sorted 0,
    L.kMaxHeight * ((chain 0).length + 1) + (chain 0).length + 1, fun fuel hfuel c hlinks => ?_⟩
  have hS : L.Shape c.links chain := hlinks ▸ hc.shape
  have hsearch : L.kMaxHeight * ((chain 0).length + 1) < fuel := by omega
  have hlen : (chain 0).length < fuel := by omega
  refine ⟨Returns.run_eq ?_, Returns.run_eq ?_, fun target => ⟨?_, ?_⟩,
    fun n hn m => prev_of_next hS hsearch hn, fun n hn m => next_of_prev hS hsearch hn⟩
  · rw [visitForward]
    refine Returns.bind_of (seekToFirst_returns hS) ?_
    rintro _ c' ⟨rfl, rfl⟩
    exact visit_next_returns hS (List.nil_append _).symm hlen
  · rw [visitBackward]
    refine Returns.bind_of (seekToLast_returns hS hsearch) ?_
    rintro _ c' ⟨rfl, rfl⟩
    exact visit_prev_returns hS hsearch (List.append_nil _).symm hlen
  · rw [← succAt_eq_filter hS]
    exact (seek_returns hS hsearch).run_eq
  · exact (seekForPrev_returns hS hsearch hlen).run_eq

/-- `iteration_exact` for the list with three integers. -/
theorem iteration_exact_integers : ∃ N, ∀ fuel ≥ N,
    run execSolo (visitForward integers fuel) ⟨(integersAfter threeCalls).links, 0⟩ =
      .done [2, 5, 7] ⟨(integersAfter threeCalls).links, 0⟩ ∧
    run execSolo (visitBackward integers fuel) ⟨(integersAfter threeCalls).links, 0⟩ =
      .done [7, 5, 2] ⟨(integersAfter threeCalls).links, 0⟩ ∧
    run execSolo (seekForPrev integers fuel 2) ⟨(integersAfter threeCalls).links, 0⟩ =
      .done ⟨some 5⟩ ⟨(integersAfter threeCalls).links, 0⟩ := by
  obtain ⟨l, hl, -, N, h⟩ := iteration_exact threeCalls_reachable
  obtain rfl := hl.unique threeCalls_levelChain.2.2.2
  refine ⟨N, fun fuel hfuel => ?_⟩
  obtain ⟨hforward, hbackward, hseek, -⟩ := h fuel hfuel ⟨(integersAfter threeCalls).links, 0⟩ rfl
  exact ⟨hforward, hbackward, (hseek 2).2⟩

end Iterator

end InlineSkipList

end PmemKv
