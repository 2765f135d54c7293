import PmemKv.SkipList.ConcurrentInsert
import PmemKv.SkipList.ConcurrentSearch
import PmemKv.SkipList.Runs

/-!
# Interleavings of insertions and searches

Any number of `InsertConcurrently` calls, each on a node of its own, run interleaved at single
atomic operations, possibly together with a search.  Every reachable memory is a skip list, nothing
that was linked is lost, of the calls that bring equal keys exactly one returns `true`, and every
search is linearizable.
-/

namespace PmemKv

open AtomicProg AtomicProg.Prog LinkedChain

namespace InlineSkipList

variable {Key DecodedKey Node : Type} [DecidableEq Node] {L : InlineSkipList Key DecodedKey Node}

/-- The links are those of a skip list. -/
structure WellFormed (L : InlineSkipList Key DecodedKey Node) (s : Links Node) : Prop where
  /-- The chain of every level from the head is finite and strictly increasing. -/
  chain : ∀ i < L.kMaxHeight, ∃ l, L.LevelChain s i l ∧ l.Pairwise L.NodeLt
  /-- Every node linked on a level is linked on the level below. -/
  nested : ∀ i, i + 1 < L.kMaxHeight → ∀ n, L.LinkedAt s (i + 1) n → L.LinkedAt s i n
  /-- `max_height_` is at least the height of every linked node. -/
  height_le : ∀ i < L.kMaxHeight, ∀ n, L.LinkedAt s i n → L.unstashHeight n ≤ s.maxHeight

omit [DecidableEq Node] in
lemma Shape.wellFormed {s : Links Node} {chain : ℕ → List Node} (h : L.Shape s chain) :
    L.WellFormed s where
  chain i hi := ⟨chain i, h.linked i hi, h.sorted i⟩
  nested i hi n hn := (h.linkedAt_iff (Nat.lt_of_succ_lt hi)).mpr
    (h.nested i n ((h.linkedAt_iff hi).mp hn))
  height_le i hi n hn := (h.height i n ((h.linkedAt_iff hi).mp hn)).2

/-! ## Threads that link different nodes -/

section Threads

variable {U : Type} [DecidableEq U] {α : U → Type} {new : U → Node → Prop}
  {Q : (u : U) → α u → Links Node → Prop}
  {c : ℕ → Config U (LinkOp Node) LinkOp.Ret α (Links Node)} {n : ℕ}

/-- The nodes of the other threads. -/
def others (new : U → Node → Prop) (u : U) (x : Node) : Prop := ∃ v, v ≠ u ∧ new v x

/-- What holds at every point of a run of threads that link different nodes: the memory is a skip
list, every thread's obligation holds, and the list grows by nodes of the threads. -/
theorem safe_of_isRun (hrun : Config.IsRun Exec c n) (hI : L.Valid (c 0).mem)
    (hsafe : ∀ u, L.SafeIn (others new u) (new u) (Q u) ((c 0).prog u) (c 0).mem) :
    ∀ j ≤ n, L.Valid (c j).mem ∧
      (∀ u, Config.SafeAt Exec L.Valid (fun u => L.Grows (others new u)) (fun u => L.Grows (new u))
        Q c j u) ∧
      ∀ i ≤ j, L.Grows (fun x => ∃ u, new u x) (c i).mem (c j).mem := by
  have hsound := Config.safe_of_isRun (Q := Q) hrun (fun u s => Grows.refl (others new u) s)
    (fun u s₁ s₂ s₃ h₁ h₂ => h₁.trans h₂)
    (fun t u hut s s' _ h => h.mono fun x hx => ⟨t, hut.symm, hx⟩) hI hsafe
  intro j hj
  obtain ⟨hIj, hSj, hGj⟩ := hsound j hj
  refine ⟨hIj, hSj, fun i hij => ?_⟩
  -- the steps from `i` to `j` compose
  obtain ⟨d, rfl⟩ := Nat.exists_eq_add_of_le hij
  clear hIj hSj hij
  induction d with
  | zero => exact Grows.refl _ _
  | succ d ih =>
    obtain ⟨u, hu⟩ := hGj (i + d) (by omega)
    exact (ih (by omega) fun k hk => hGj k (by omega)).trans (hu.mono fun x hx => ⟨u, hx⟩)

end Threads

omit [DecidableEq Node] in
/-- Nodes that are linked stay linked while the list grows. -/
lemma Grows.linkedAt {new : Node → Prop} {s s' : Links Node} (h : L.Grows new s s')
    (hs : L.Valid s) : s.maxHeight ≤ s'.maxHeight ∧
      ∀ i < L.kMaxHeight, ∀ n, L.LinkedAt s i n → L.LinkedAt s' i n := by
  obtain ⟨chain, hS⟩ := hs
  obtain ⟨chain', hS', he⟩ := h chain hS
  exact ⟨he.maxHeight_le, fun i hi n hn =>
    (hS'.linkedAt_iff hi).mpr (he.sub i n ((hS.linkedAt_iff hi).mp hn))⟩

omit [DecidableEq Node] in
/-- What an insertion knows when it returns is stable. -/
lemma Inserted.stable {x : Node} {b : Bool} {new : Node → Prop} {s s' : Links Node}
    {chain chain' : ℕ → List Node} (h : L.Inserted x b chain)
    (he : L.Extends new s chain s' chain') (hx : ¬new x) : L.Inserted x b chain' := by
  cases b with
  | true =>
    rw [Inserted, if_pos rfl] at h ⊢
    exact fun j => (he.mem_iff hx j).trans (h j)
  | false =>
    rw [Inserted, if_neg Bool.false_ne_true] at h ⊢
    exact ⟨fun j hj => h.1 j ((he.mem_iff hx j).mp hj), he.stored h.2⟩

/-! ## Insertions -/

section Insertions

variable {T : Type} [DecidableEq T]

/-- **Insertions next to insertions.**  Along every run of `InsertConcurrently` calls on nodes of
their own, the memory is a skip list and no assertion is violated; no node is lost from a level and
`max_height_` does not decrease; and when all calls have returned, exactly one call of each class of
equal keys has returned `true`, level `0` holds exactly the nodes of these calls, and each of them
is linked on exactly the levels below its height. -/
theorem insertConcurrently_linearizable (hpos : 0 < L.kMaxHeight)
    (hk : L.kMaxHeight < kMaxPossibleHeight) (raw : Node → ℕ → Option Node) (node : T → Node)
    (hinj : Function.Injective node) (hnode : ∀ t, L.Insertable (node t)) (fuel : T → ℕ)
    (prev : T → ℕ → Node) (next : T → ℕ → Option Node)
    {c : ℕ → Config T (LinkOp Node) LinkOp.Ret (fun _ => Bool) (Links Node)} {n : ℕ}
    (hprog : ∀ t, (c 0).prog t = L.insertConcurrently (fuel t) (node t) (prev t) (next t))
    (hmem : (c 0).mem = L.construct raw) (hrun : Config.IsRun Exec c n) :
    (∀ j ≤ n, L.WellFormed (c j).mem ∧ ∀ t, (c j).prog t ≠ .fault) ∧
    (∀ j k, j ≤ k → k ≤ n → (c j).mem.maxHeight ≤ (c k).mem.maxHeight ∧
      ∀ i < L.kMaxHeight, ∀ y, L.LinkedAt (c j).mem i y → L.LinkedAt (c k).mem i y) ∧
    ∀ res : T → Bool, (∀ t, (c n).prog t = .done (res t)) →
      (∀ t, ∃! u, res u = true ∧ L.cmp.Equiv (L.key (node t)) (L.key (node u))) ∧
      (∀ y, L.LinkedAt (c n).mem 0 y ↔ ∃ t, node t = y ∧ res t = true) ∧
      ∀ t, res t = true → ∀ i < L.kMaxHeight,
        L.LinkedAt (c n).mem i (node t) ↔ i < L.unstashHeight (node t) := by
  have hS₀ : L.Shape (c 0).mem fun _ => [] := hmem ▸ Shape.construct raw hpos
  have hother : ∀ t, ¬others (fun t x => x = node t) t (node t) := by
    rintro t ⟨u, hut, he⟩
    exact hut (hinj he).symm
  have hsafe₀ : ∀ t, L.SafeIn (others (fun t x => x = node t) t) (fun x => x = node t)
      (fun b s => ∃ chain, L.Shape s chain ∧ L.Inserted (node t) b chain) ((c 0).prog t)
      (c 0).mem := by
    intro t
    rw [hprog t]
    refine insertConcurrently_safe (hnode t) (hother t) ?_ hk hS₀ (fun _ => List.not_mem_nil)
      (prev t) (next t)
    rfl
  have hall := safe_of_isRun hrun ⟨_, hS₀⟩ hsafe₀
  refine ⟨fun j hj => ?_, fun j k hjk hkn => ?_, fun res hres => ?_⟩
  · obtain ⟨⟨chain, hS⟩, hsafe, -⟩ := hall j hj
    exact ⟨hS.wellFormed, fun t => (hsafe t).ne_fault⟩
  · exact ((hall k hkn).2.2 j hjk).linkedAt (hall j (hjk.trans hkn)).1
  · obtain ⟨-, hsafe, hgrow⟩ := hall n le_rfl
    obtain ⟨chain, hS, he⟩ := hgrow 0 (Nat.zero_le n) _ hS₀
    have hins : ∀ t, L.Inserted (node t) (res t) chain := by
      intro t
      obtain ⟨i, -, -, ⟨chainᵢ, hSᵢ, hi⟩, hR⟩ := (hsafe t).exists_of_done (hres t)
      obtain ⟨chain', hS', he'⟩ := hR chainᵢ hSᵢ
      rw [hS.unique hS']
      exact hi.stable he' (hother t)
    have htrue : ∀ t, res t = true → ∀ j, node t ∈ chain j ↔ j < L.unstashHeight (node t) := by
      intro t ht
      have := hins t
      rwa [Inserted, if_pos ht] at this
    have hmem0 : ∀ y, y ∈ chain 0 ↔ ∃ t, node t = y ∧ res t = true := by
      intro y
      constructor
      · intro hy
        obtain ⟨t, rfl⟩ := (he.only 0 y hy).resolve_left List.not_mem_nil
        refine ⟨t, rfl, ?_⟩
        by_contra ht
        have := hins t
        rw [Inserted, if_neg ht] at this
        exact this.1 0 hy
      · rintro ⟨t, rfl, ht⟩
        exact (htrue t ht 0).mpr (hnode t).height_pos
    refine ⟨fun t => ?_, fun y => (hS.linkedAt_iff hpos).trans (hmem0 y), fun t ht i hi =>
      (hS.linkedAt_iff hi).trans (htrue t ht i)⟩
    have hexists : ∃ u, res u = true ∧ L.cmp.Equiv (L.key (node t)) (L.key (node u)) := by
      by_cases ht : res t = true
      · exact ⟨t, ht, Comparator.equiv_iff.mpr
          ⟨Comparator.lt_irrefl _, Comparator.lt_irrefl _⟩⟩
      · have := hins t
        rw [Inserted, if_neg ht] at this
        obtain ⟨b, hb, heq⟩ := this.2
        obtain ⟨u, rfl, hu⟩ := (hmem0 b).mp hb
        exact ⟨u, hu, heq⟩
    obtain ⟨u, hu, heq⟩ := hexists
    refine ⟨u, ⟨hu, heq⟩, ?_⟩
    rintro v ⟨hv, heqv⟩
    apply hinj
    exact hS.eq_of_equiv ((hmem0 _).mpr ⟨v, rfl, hv⟩) ((hmem0 _).mpr ⟨u, rfl, hu⟩)
      (heqv.symm.trans heq)

end Insertions

/-! ## A search next to insertions -/

/-- What the threads return when one of them, `none`, runs the search `q` and the others insert. -/
abbrev Returned (Node : Type) {T : Type} (q : Search Key) : Option T → Type
  | none => q.Result Node
  | some _ => Bool

/-- The nodes that the threads link: the search links none. -/
def linkedBy {T : Type} (node : T → Node) : Option T → Node → Prop
  | none, _ => False
  | some t, x => x = node t

/-- What a returned `Contains` says: it returns `true` if a node with an equal key satisfied
`before`, and only if one satisfied `during`. -/
def ContainsSpec (L : InlineSkipList Key DecodedKey Node) (before during : Node → Prop) :
    (q : Search Key) → q.Result Node → Prop
  | .contains a, b =>
    ((∃ y, before y ∧ L.cmp.Equiv a (L.key y)) → b = true) ∧
      (b = true → ∃ y, during y ∧ L.cmp.Equiv a (L.key y))
  | _, _ => True

/-- What holds at the instant at which a thread returns. -/
def ReturnSpec (L : InlineSkipList Key DecodedKey Node) {T : Type} (node : T → Node)
    (q : Search Key) : (u : Option T) → Returned Node q u → Links Node → Prop
  | none, r, s => ∃ chain, L.Shape s chain ∧ r = L.answer (chain 0) q
  | some t, b, s => ∃ chain, L.Shape s chain ∧ L.Inserted (node t) b chain

/-- A search that has not begun has not returned. -/
lemma searchProg_ne_done (L : InlineSkipList Key DecodedKey Node) (fuel : ℕ) (q : Search Key)
    (a : q.Result Node) : L.searchProg fuel q ≠ .done a := by
  cases q <;> exact fun h => nomatch h

section Search

variable {T : Type} [DecidableEq T] {node : T → Node} {q : Search Key}
  {c : ℕ → Config (Option T) (LinkOp Node) LinkOp.Ret (Returned Node q) (Links Node)} {n : ℕ}

/-- A search is linearizable next to insertions into any skip list that does not hold their
nodes. -/
theorem search_of_shape {chain₀ : ℕ → List Node}
    (hinj : Function.Injective node) (hnode : ∀ t, L.Insertable (node t))
    (hS₀ : L.Shape (c 0).mem chain₀) (hnew : ∀ t i, node t ∉ chain₀ i) {fuel : ℕ}
    {fuels : T → ℕ} {prevs : T → ℕ → Node} {nexts : T → ℕ → Option Node}
    (hsearch : (c 0).prog none = L.searchProg fuel q)
    (hprog : ∀ t, (c 0).prog (some t) =
      L.insertConcurrently (fuels t) (node t) (prevs t) (nexts t))
    (hrun : Config.IsRun Exec c n) :
    (c n).prog none ≠ .fault ∧ ∀ m ≤ n, ∀ a, (c m).prog none = L.searchProg fuel q →
      (c n).prog none = .done a →
      (∃ i l, m ≤ i ∧ i ≤ n ∧ L.LevelChain (c i).mem 0 l ∧ a = L.answer l q) ∧
      L.ContainsSpec (L.LinkedAt (c m).mem 0)
        (fun y => ∃ i, m ≤ i ∧ i ≤ n ∧ L.LinkedAt (c i).mem 0 y) q a := by
  have hpos : 0 < L.kMaxHeight := lt_of_lt_of_le hS₀.maxHeight_pos hS₀.maxHeight_le
  -- an insertion that would violate an assertion or leave the arrays on its stack just stops
  have hsafe₀ : ∀ u, L.SafeIn (others (linkedBy node) u) (linkedBy node u) (L.ReturnSpec node q u)
      (bif u.isNone then (c 0).prog u else ((c 0).prog u).haltOnFault) (c 0).mem := by
    intro u
    cases u with
    | none =>
      change L.SafeIn _ _ _ ((c 0).prog none) _
      rw [hsearch]
      exact searchProg_safe hS₀ q
    | some t =>
      change L.SafeIn _ _ _ ((c 0).prog (some t)).haltOnFault _
      rw [hprog t]
      have hother : ¬others (linkedBy node) (some t) (node t) := by
        rintro ⟨u, hut, he⟩
        cases u with
        | none => exact he
        | some u => exact hut (congrArg some (hinj he).symm)
      have hown : linkedBy node (some t) (node t) := rfl
      exact insertConcurrently_haltOnFault_safe (hnode t) hother hown hS₀ (hnew t) (prevs t)
        (nexts t)
  have hall := safe_of_isRun (hrun.haltOnFault Option.isNone) ⟨_, hS₀⟩ hsafe₀
  refine ⟨((hall n le_rfl).2.1 none).ne_fault, fun m hmn a hm hdone => ?_⟩
  obtain ⟨i, hmi, hin, ⟨chain, hS, ha⟩, -⟩ := ((hall n le_rfl).2.1 none).of_done hmn hdone
    (hm ▸ searchProg_ne_done L fuel q a)
  refine ⟨⟨i, chain 0, hmi, hin, hS.linked 0 hpos, ha⟩, ?_⟩
  cases q with
  | contains k =>
    have hiff : a = true ↔ ∃ y ∈ chain 0, L.cmp.Equiv k (L.key y) := by
      rw [ha, answer, List.any_eq_true]
      simp only [decide_eq_true_eq]
      rfl
    refine ⟨?_, ?_⟩
    · rintro ⟨y, hy, he⟩
      have hyi := (((hall i hin).2.2 m hmi).linkedAt (hall m hmn).1).2 0 hpos y hy
      exact hiff.mpr ⟨y, (hS.linkedAt_iff hpos).mp hyi, he⟩
    · intro hb
      obtain ⟨y, hy, he⟩ := hiff.mp hb
      exact ⟨y, ⟨i, hmi, hin, (hS.linkedAt_iff hpos).mpr hy⟩, he⟩
  | findGreaterOrEqual k => trivial
  | findLessThan k => trivial
  | findLast => trivial

end Search

/-! ## Runs on the list of integers -/

/-- The operations of a thread, without spurious failures. -/
def execLinks (o : LinkOp Node) (s : Links Node) : o.Ret × Links Node :=
  ((execSolo o ⟨s, 0⟩).1, (execSolo o ⟨s, 0⟩).2.links)

lemma exec_execLinks (o : LinkOp Node) (s : Links Node) :
    Exec o s (execLinks o s).1 (execLinks o s).2 :=
  exec_execSolo o ⟨s, 0⟩

/-- Two threads that insert nodes with equal keys, by turns until the second one has returned. -/
def equalKeys : ℕ → Config Bool (LinkOp ℕ) LinkOp.Ret (fun _ => Bool) (Links ℕ) :=
  Config.follow execLinks (fun j => decide (j % 2 = 0 ∨ 16 < j))
    ⟨fun t => integers.insertConcurrently 20 (if t then 5 else 4) (fun _ => 7) (fun _ => some 9),
      integers.construct fun _ _ => some 8⟩

/-- `insertConcurrently_linearizable` for the two threads. -/
theorem equalKeys_linearizable : integers.WellFormed (equalKeys 19).mem ∧
    ∀ t : Bool, ∃! u : Bool, u = true ∧
      integers.cmp.Equiv (integers.key (if t then 5 else 4))
        (integers.key (if u then 5 else 4)) := by
  have hrun : Config.IsRun Exec equalKeys 19 :=
    Config.isRun_follow execLinks exec_execLinks (by decide)
  obtain ⟨hwf, -, hret⟩ := insertConcurrently_linearizable (L := integers) (by decide) (by decide)
    (fun _ _ => some 8) (fun t : Bool => if t then 5 else 4)
    (fun t u h => by cases t <;> cases u <;> first | rfl | exact absurd h (by decide))
    (fun t => ⟨by cases t <;> decide, by cases t <;> decide, by cases t <;> decide⟩)
    (fun _ => 20) (fun _ _ => 7) (fun _ _ => some 9) (fun _ => rfl) rfl hrun
  exact ⟨(hwf 19 le_rfl).1, (hret id fun t => by cases t <;> rfl).1⟩

end InlineSkipList

end PmemKv
