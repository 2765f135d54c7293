import PmemKv.SkipList.Clients

/-!
# Traversals next to insertions

A traversal positions an iterator and then moves it with `Next` or `Prev` until it is no longer
valid.  No snapshot is taken, and other threads insert while it runs.  What it visits is
nevertheless in order, without repetitions, and complete for the nodes that were linked when it
began: a node that was linked stays linked, and moving on from a node finds its neighbour at that
instant.
-/

namespace PmemKv

open AtomicProg AtomicProg.Prog LinkedChain

namespace InlineSkipList

/-- A loop `for (it.Seek…(…); it.Valid(); it.Next())` or `for (it.Seek…(…); it.Valid(); it.Prev())`,
from a key or from the end of the list. -/
inductive Traversal (Key : Type) : Type
  /-- From `SeekToFirst`, or from `Seek(target)`, with `Next`. -/
  | forward (start : Option Key)
  /-- From `SeekToLast`, or from `SeekForPrev(target)`, with `Prev`. -/
  | backward (start : Option Key)

variable {Key DecodedKey Node : Type} [DecidableEq Node] (L : InlineSkipList Key DecodedKey Node)

namespace Traversal

/-- The program of a traversal, which returns the nodes that it visits. -/
def prog (fuel : ℕ) : Traversal Key → ListProg Node (List Node)
  | forward none => Iterator.visitForward L fuel
  | forward (some target) => do
    let it ← Iterator.seek L fuel target
    Iterator.visit Iterator.next fuel it
  | backward none => Iterator.visitBackward L fuel
  | backward (some target) => do
    let it ← Iterator.seekForPrev L fuel target
    Iterator.visit (Iterator.prev L fuel) fuel it

/-- The order in which nodes are visited. -/
def Before (L : InlineSkipList Key DecodedKey Node) : Traversal Key → Node → Node → Prop
  | forward _, n, m => L.NodeLt n m
  | backward _, n, m => L.NodeLt m n

/-- The nodes that the traversal is about. -/
def Covers (L : InlineSkipList Key DecodedKey Node) : Traversal Key → Node → Prop
  | forward none, _ => True
  | forward (some target), n => ¬L.cmp.Lt (L.key n) target
  | backward none, _ => True
  | backward (some target), n => ¬L.cmp.Lt target (L.key n)

/-- How the traversal moves on. -/
def advance (fuel : ℕ) : Traversal Key → Iterator Node → ListProg Node (Iterator Node)
  | forward _ => Iterator.next
  | backward _ => Iterator.prev L fuel

end Traversal

variable {L} {s : Links Node} {chain : ℕ → List Node} {fuel : ℕ} {rely guar : Node → Prop}
  {R : Node → Node → Prop} {P : Node → Prop}

/-- The iterator stands at the first of the nodes of `l` that satisfy `P`, in the order `R`. -/
structure StandsAtFirst (R : Node → Node → Prop) (P : Node → Prop) (l : List Node)
    (it : Iterator Node) : Prop where
  /-- It stands at such a node, if it is valid. -/
  mem : ∀ m, it.node = some m → m ∈ l ∧ P m
  /-- Every such node is the one it stands at, or comes behind. -/
  first : ∀ m ∈ l, P m → ∃ m₀, it.node = some m₀ ∧ (m = m₀ ∨ R m₀ m)

omit [DecidableEq Node] in
/-- The head of a sorted list of nodes. -/
lemma standsAtFirst_head {l l' : List Node} (hs : l'.Pairwise R)
    (hl : ∀ m, m ∈ l' ↔ m ∈ l ∧ P m) : StandsAtFirst R P l ⟨l'.head?⟩ where
  mem m hm := (hl m).mp (List.mem_of_head? hm)
  first m hm hP := by
    cases l' with
    | nil => exact absurd ((hl m).mpr ⟨hm, hP⟩) List.not_mem_nil
    | cons m₀ l' =>
      refine ⟨m₀, rfl, ?_⟩
      rcases List.mem_cons.mp ((hl m).mpr ⟨hm, hP⟩) with rfl | hm'
      · exact Or.inl rfl
      · exact Or.inr ((List.pairwise_cons.mp hs).1 m hm')

omit [DecidableEq Node] in
/-- The last node of a sorted list, which is the first one in the reverse order. -/
lemma standsAtFirst_last {l l' : List Node} (hs : l'.Pairwise R)
    (hl : ∀ m, m ∈ l' ↔ m ∈ l ∧ P m) : StandsAtFirst (fun n m => R m n) P l ⟨l'.getLast?⟩ := by
  rw [← List.head?_reverse]
  exact standsAtFirst_head (List.pairwise_reverse.mpr hs) fun m => by rw [List.mem_reverse, hl m]

/-- One step of a traversal next to insertions finds the next node in its order. -/
theorem Traversal.advance_safe (q : Traversal Key) {n : Node} (h : L.Shape s chain)
    (hn : n ∈ chain 0) :
    L.SafeIn rely guar
      (fun it s' => ∃ chain', L.Shape s' chain' ∧
        StandsAtFirst (q.Before L) (q.Before L n) (chain' 0) it)
      (q.advance L fuel ⟨some n⟩) s := by
  cases q with
  | forward =>
    refine (Iterator.next_safe h hn).mono ?_
    rintro _ s₁ ⟨chain₁, l₁, l₂, hS₁, hl, rfl⟩
    have hs := hS₁.sorted 0
    rw [hl] at hs
    obtain ⟨-, hs₂, hcross⟩ := List.pairwise_append.mp hs
    obtain ⟨hafter, hs₂⟩ := List.pairwise_cons.mp hs₂
    refine ⟨chain₁, hS₁, standsAtFirst_head hs₂ fun m => ⟨fun hm => ?_, fun ⟨hm, hnm⟩ => ?_⟩⟩
    · exact ⟨by rw [hl]; exact List.mem_append_right _ (List.mem_cons_of_mem _ hm), hafter m hm⟩
    · rw [hl] at hm
      rcases List.mem_append.mp hm with hm | hm
      · exact absurd hnm (hcross m hm n List.mem_cons_self).asymm
      · rcases List.mem_cons.mp hm with rfl | hm
        · exact absurd hnm (Comparator.lt_irrefl _)
        · exact hm
  | backward =>
    refine (Iterator.prev_safe h hn).mono ?_
    rintro _ s₁ ⟨chain₁, l₁, l₂, hS₁, hl, rfl⟩
    have hs := hS₁.sorted 0
    rw [hl] at hs
    obtain ⟨hs₁, hs₂, hcross⟩ := List.pairwise_append.mp hs
    obtain ⟨hafter, -⟩ := List.pairwise_cons.mp hs₂
    refine ⟨chain₁, hS₁, standsAtFirst_last hs₁ fun m => ⟨fun hm => ?_, fun ⟨hm, hmn⟩ => ?_⟩⟩
    · exact ⟨by rw [hl]; exact List.mem_append_left _ hm, hcross m hm n List.mem_cons_self⟩
    · rw [hl] at hm
      rcases List.mem_append.mp hm with hm | hm
      · exact hm
      · rcases List.mem_cons.mp hm with rfl | hm
        · exact absurd hmn (Comparator.lt_irrefl _)
        · exact absurd hmn (hafter m hm).asymm

/-- What a traversal has visited, if it started from the nodes of `l` and ended with those of `l'`:
in its order, every node of `l` that it is about and only such nodes of `l'`. -/
structure Visits (R : Node → Node → Prop) (P : Node → Prop) (l l' visited : List Node) : Prop where
  /-- The nodes are visited in order, without repetitions. -/
  pairwise : visited.Pairwise R
  /-- No node that was there from the beginning is missed. -/
  complete : ∀ m ∈ l, P m → m ∈ visited
  /-- Only nodes that are there in the end are visited. -/
  sound : ∀ m ∈ visited, m ∈ l' ∧ P m

/-- The rest of a traversal next to insertions. -/
theorem Traversal.visit_safe (q : Traversal Key) {it : Iterator Node} {rounds : ℕ}
    (h : L.Shape s chain) (hP : ∀ n m, P n → q.Before L n m → P m)
    (hit : StandsAtFirst (q.Before L) P (chain 0) it) :
    L.SafeIn rely guar
      (fun l s' => ∃ chain', L.Shape s' chain' ∧ Visits (q.Before L) P (chain 0) (chain' 0) l)
      (Iterator.visit (q.advance L fuel) rounds it) s := by
  have htrans : ∀ a b c, q.Before L a b → q.Before L b c → q.Before L a c := by
    cases q with
    | forward => exact fun a b c hab hbc => Comparator.Lt.trans hab hbc
    | backward => exact fun a b c hab hbc => Comparator.Lt.trans hbc hab
  induction rounds generalizing s chain P it with
  | zero => trivial
  | succ rounds ih =>
    rw [Iterator.visit]
    cases hn : it.node with
    | none =>
      refine ⟨chain, h, List.Pairwise.nil, fun m hm hPm => ?_,
        fun m hm => absurd hm List.not_mem_nil⟩
      obtain ⟨m₀, hm₀, -⟩ := hit.first m hm hPm
      rw [hn] at hm₀
      cases hm₀
    | some n =>
      obtain ⟨hmem, hPn⟩ := hit.mem n hn
      obtain rfl : it = ⟨some n⟩ := by
        cases it
        exact congrArg _ hn
      refine SafeIn.bind_of ((q.advance_safe h hmem).track h) ?_
      rintro it' s₁ ⟨⟨chain₁, hS₁, hit'⟩, chain', hS', he⟩
      obtain rfl := hS₁.unique hS'
      -- from here on the traversal is about the nodes behind `n`
      refine SafeIn.bind_of ((ih hS₁ (fun a b ha hab => htrans n a b ha hab) hit').track hS₁) ?_
      rintro l s₂ ⟨⟨chain₂, hS₂, hvis⟩, chain', hS'', he₂⟩
      obtain rfl := hS₂.unique hS''
      refine ⟨chain₂, hS₂, List.pairwise_cons.mpr ⟨fun m hm => (hvis.sound m hm).2, hvis.pairwise⟩,
        fun m hm hPm => ?_, fun m hm => ?_⟩
      · obtain ⟨m₀, hm₀, hor⟩ := hit.first m hm hPm
        obtain rfl : n = m₀ := Option.some.inj hm₀
        rcases hor with rfl | hnm
        · exact List.mem_cons_self
        · exact List.mem_cons_of_mem _ (hvis.complete m (he.sub 0 m hm) hnm)
      · rcases List.mem_cons.mp hm with rfl | hm
        · exact ⟨he₂.sub 0 _ (he.sub 0 _ hmem), hPn⟩
        · obtain ⟨hm', hnm⟩ := hvis.sound m hm
          exact ⟨hm', hP n m hPn hnm⟩

/-- A traversal next to insertions, once its start is known. -/
lemma Traversal.of_start (q : Traversal Key) {start : ListProg Node (Iterator Node)}
    (h : L.Shape s chain)
    (hstart : L.SafeIn rely guar (fun it s' => ∃ chain', L.Shape s' chain' ∧
      StandsAtFirst (q.Before L) (q.Covers L) (chain' 0) it) start s)
    (hP : ∀ n m, q.Covers L n → q.Before L n m → q.Covers L m) :
    L.SafeIn rely guar
      (fun l s' => ∃ chain', L.Shape s' chain' ∧
        Visits (q.Before L) (q.Covers L) (chain 0) (chain' 0) l)
      (start >>= fun it => Iterator.visit (q.advance L fuel) fuel it) s := by
  refine SafeIn.bind_of (hstart.track h) ?_
  rintro it s₁ ⟨⟨chain₁, hS₁, hit⟩, chain', hS', he⟩
  obtain rfl := hS₁.unique hS'
  refine (q.visit_safe hS₁ hP hit).mono ?_
  rintro l s₂ ⟨chain₂, hS₂, hvis⟩
  exact ⟨chain₂, hS₂, hvis.pairwise, fun m hm => hvis.complete m (he.sub 0 m hm), hvis.sound⟩

/-- **A traversal next to insertions** visits, in its order, every node that it is about and that
was linked when it began, and only nodes that are linked when it ends. -/
theorem Traversal.prog_safe (q : Traversal Key) (h : L.Shape s chain) :
    L.SafeIn rely guar
      (fun l s' => ∃ chain', L.Shape s' chain' ∧
        Visits (q.Before L) (q.Covers L) (chain 0) (chain' 0) l)
      (q.prog L fuel) s := by
  have hfilter : ∀ (l : List Node) (p : Node → Prop) [DecidablePred p] (m : Node),
      m ∈ l.filter (fun m => decide (p m)) ↔ m ∈ l ∧ p m := fun l p _ m => by
    rw [List.mem_filter, decide_eq_true_eq]
  cases q with
  | forward start =>
    cases start with
    | none =>
      refine Traversal.of_start (.forward none) h ?_ fun _ _ _ _ => trivial
      refine (Iterator.seekToFirst_safe h).mono ?_
      rintro _ s₁ ⟨chain₁, hS₁, rfl⟩
      exact ⟨chain₁, hS₁, standsAtFirst_head (hS₁.sorted 0) fun m =>
        ⟨fun hm => ⟨hm, trivial⟩, And.left⟩⟩
    | some target =>
      refine Traversal.of_start (.forward (some target)) h ?_ fun n m hn hnm hlt =>
        hn (Comparator.Lt.trans hnm hlt)
      refine (Iterator.seek_safe h).mono ?_
      rintro _ s₁ ⟨chain₁, hS₁, rfl⟩
      refine ⟨chain₁, hS₁, ?_⟩
      rw [Iterator.succAt_eq_filter (c := ⟨s₁, 0⟩) hS₁]
      exact standsAtFirst_head ((hS₁.sorted 0).sublist List.filter_sublist) (hfilter _ _)
  | backward start =>
    cases start with
    | none =>
      refine Traversal.of_start (.backward none) h ?_ fun _ _ _ _ => trivial
      refine (Iterator.seekToLast_safe h).mono ?_
      rintro _ s₁ ⟨chain₁, hS₁, rfl⟩
      exact ⟨chain₁, hS₁, standsAtFirst_last (hS₁.sorted 0) fun m =>
        ⟨fun hm => ⟨hm, trivial⟩, And.left⟩⟩
    | some target =>
      refine Traversal.of_start (.backward (some target)) h ?_ fun n m hn hnm hlt =>
        hn (Comparator.Lt.trans hlt hnm)
      refine (Iterator.seekForPrev_safe h).mono ?_
      rintro _ s₁ ⟨chain₁, hS₁, rfl⟩
      exact ⟨chain₁, hS₁, standsAtFirst_last ((hS₁.sorted 0).sublist List.filter_sublist)
        (hfilter _ _)⟩

/-! ## A traversal next to clients -/

section Runs

variable {ι T : Type} [DecidableEq ι] [DecidableEq T] {q : Traversal Key}

/-- What the threads return when one of them, `none`, runs a traversal and the others are
clients. -/
abbrev TraversalReturned (Node : Type) {T : Type} : Option T → Type
  | none => List Node
  | some _ => List (Reply Node)

/-- The nodes that the threads link: the traversal links none. -/
def ownedBy (own : T → Node → Prop) : Option T → Node → Prop
  | none, _ => False
  | some t, x => own t x

variable {client : T → List (Reply Node) → Option (Request Key Node ι)}
  {kBranching : ℕ} {env : T → Surroundings Node} {rounds : T → ℕ}
  {c : ℕ → Config (Option T) (LinkOp Node) LinkOp.Ret (TraversalReturned Node) (Links Node)} {n : ℕ}

/-- **Traversals are weakly consistent.**  Next to any number of clients, a traversal forwards or
backwards, from an end of the list or from a key, violates no assertion.  When it has returned, it
has visited nodes in strictly increasing or decreasing order; it has missed no node of its range
that was linked when it began; and every node that it has visited is linked and in its range. -/
theorem traversal_weakly_consistent (hpos : 0 < L.kMaxHeight)
    (hk : L.kMaxHeight < kMaxPossibleHeight)
    (raw : Node → ℕ → Option Node) (prev : T → ι → ℕ → Node) (next : T → ι → ℕ → Option Node)
    (own : T → Node → Prop) (hown : ∀ t u x, own t x → own u x → t = u)
    (hclient : ∀ t, L.WellBehaved (own t) (client t)) (hmem : (c 0).mem = L.construct raw)
    (htraversal : (c 0).prog none = q.prog L fuel)
    (hprog : ∀ t, (c 0).prog (some t) = session (Request.prog L kBranching (env t)) (client t)
      (rounds t) (fun i => L.allocateSplice (prev t i) (next t i)) [])
    (hrun : Config.IsRun Exec c n) :
    (c n).prog none ≠ .fault ∧ ∀ m ≤ n, ∀ visited, (c m).prog none = q.prog L fuel →
      (c n).prog none = .done visited →
      visited.Pairwise (q.Before L) ∧
      (∀ y, L.LinkedAt (c m).mem 0 y → q.Covers L y → y ∈ visited) ∧
      ∀ y ∈ visited, q.Covers L y ∧ L.LinkedAt (c n).mem 0 y := by
  have hS₀ : L.Shape (c 0).mem fun _ => [] := hmem ▸ Shape.construct raw hpos
  have hother : ∀ t x, own t x → ¬others (ownedBy own) (some t) x := by
    rintro t x hx ⟨u, hut, hu⟩
    cases u with
    | none => exact hu
    | some u => exact hut (congrArg some (hown u t x hu hx))
  have hsafe₀ : ∀ u, L.SafeIn (others (ownedBy own) u) (ownedBy own u) (fun _ _ => True)
      ((c 0).prog u) (c 0).mem := by
    intro u
    cases u with
    | none =>
      rw [htraversal]
      exact (q.prog_safe hS₀).mono fun _ _ _ => trivial
    | some t =>
      rw [hprog t]
      have hbetween : L.Between (client t) (own t) []
          (fun i => L.allocateSplice (prev t i) (next t i)) (c 0).mem :=
        ⟨_, hS₀, fun _ _ _ _ => List.not_mem_nil, fun _ _ hit => absurd hit List.not_mem_nil,
          fun _ => ⟨Or.inl rfl, Nat.lt_succ_self L.kMaxHeight⟩⟩
      exact SafeIn.mono (hbetween.session_safe hk kBranching (env t) (hclient t) (hother t))
        fun _ _ _ => trivial
  have hall := safe_of_isRun hrun ⟨_, hS₀⟩ hsafe₀
  refine ⟨((hall n le_rfl).2.1 none).ne_fault, fun m hmn visited hm hdone => ?_⟩
  obtain ⟨chain, hS⟩ := (hall m hmn).1
  have hsurrounds : Config.Surrounds Exec L.Valid (L.Grows (others (ownedBy own) none)) c none n :=
    ⟨hrun, fun j hj => (hall j hj).1, fun j hj u hu hstep =>
      (hstep.safe (hall j hj.le).1 ((hall j hj.le).2.1 u)).2.1.mono fun x hx => ⟨u, hu, hx⟩⟩
  have hsafe : L.SafeIn (others (ownedBy own) none) (ownedBy own none) _
      (q.prog L fuel) (c m).mem :=
    q.prog_safe hS
  obtain ⟨e, hme, hen, chain', hS', hvis⟩ := hsurrounds.exists_of_done (Grows.refl _)
    (fun _ _ _ => Grows.trans) hmn hm hsafe hdone
  refine ⟨hvis.pairwise, fun y hy => hvis.complete y ((hS.linkedAt_iff hpos).mp hy), fun y hy => ?_⟩
  obtain ⟨hy', hc⟩ := hvis.sound y hy
  exact ⟨hc, (((hall n le_rfl).2.2 e hen).linkedAt (hall e hen).1).2 0 hpos y
    ((hS'.linkedAt_iff hpos).mpr hy')⟩

end Runs

/-- The calls of a client that inserts two nodes. -/
def insertTwo : List (Request ℤ ℕ Unit) := [.insertConcurrently 5, .insert 3 () true]

/-- A client that inserts a node and then another one, and a traversal that starts when the first of
them is linked. -/
def insertAndTraverse : ℕ → Config (Option Unit) (LinkOp ℕ) LinkOp.Ret (TraversalReturned ℕ)
    (Links ℕ) :=
  Config.follow execLinks (fun j => if j < 8 then some () else none)
    ⟨fun
      | none => Traversal.prog integers 20 (.forward (some 1))
      | some _ => session (Request.prog integers 4 ⟨20, fun _ _ => 7, fun _ _ => some 9⟩)
          (fun replies => insertTwo[replies.length]?) 4
          (fun _ => integers.allocateSplice (fun _ => 6) fun _ => some 1) [],
      integers.construct fun _ _ => some 8⟩

/-- `traversal_weakly_consistent` for the traversal. -/
theorem insertAndTraverse_weakly_consistent :
    (∀ y, integers.LinkedAt (insertAndTraverse 8).mem 0 y →
      Traversal.Covers integers (.forward (some 1)) y → y ∈ [5]) ∧
    ∀ y ∈ [5], Traversal.Covers integers (.forward (some 1)) y ∧
      integers.LinkedAt (insertAndTraverse 13).mem 0 y := by
  have hrun : Config.IsRun Exec insertAndTraverse 13 :=
    Config.isRun_follow execLinks exec_execLinks (by decide)
  have hins : ∀ x ∈ [5, 3], integers.Insertable x := by
    have h : ∀ x ∈ [5, 3], x ≠ integers.head ∧ 1 ≤ integers.unstashHeight x ∧
        integers.unstashHeight x ≤ integers.kMaxHeight := by decide
    exact fun x hx => ⟨(h x hx).1, (h x hx).2.1, (h x hx).2.2⟩
  have hclient : integers.WellBehaved (fun x => x ∈ insertTwo.filterMap Request.node)
      fun replies => insertTwo[replies.length]? := by
    have hmem : ∀ q ∈ insertTwo, ∀ x, q.node = some x → x ∈ insertTwo.filterMap Request.node :=
      fun q hq x hx => List.mem_filterMap.mpr ⟨q, hq, hx⟩
    exact .of_list (fun q hq x hx => ⟨hmem q hq x hx, hins x (hmem q hq x hx)⟩) (by decide)
      (by simp [insertTwo, Request.iterator])
  exact ((traversal_weakly_consistent (L := integers) (by decide) (by decide) (fun _ _ => some 8)
    (fun _ _ _ => 6) (fun _ _ _ => some 1) (fun _ x => x ∈ insertTwo.filterMap Request.node)
    (fun _ _ _ _ _ => rfl) (fun _ => hclient) rfl rfl (fun _ => rfl) hrun).2 8 (by decide) [5] rfl
    rfl).2

end InlineSkipList

end PmemKv
