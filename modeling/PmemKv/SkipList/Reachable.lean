import PmemKv.SkipList.Interleavings

/-!
# The reachable states of a list

A list is used for any length of time: insertions run one after the other through the list's own
splice or any other, and phases in which any number of `InsertConcurrently` calls run interleaved
come in between.  Such a phase may end at any of its points, with calls that have not returned.
Nothing is assumed about the configured height; a call that would violate an assertion or leave the
arrays on its stack stops there.

In every reachable state the links form sorted, nested chains and every splice is empty or nested,
and from there a search is linearizable next to any further insertions.
-/

namespace PmemKv

open AtomicProg AtomicProg.Prog

namespace InlineSkipList

variable {Key DecodedKey Node ι : Type} [DecidableEq Node] [DecidableEq ι]
  (L : InlineSkipList Key DecodedKey Node)

/-- The states that a list can be in when no insertion is running. -/
inductive Reachable : ListState Node ι → Prop
  /-- The constructor, and the allocation of the splices; `raw`, `prev` and `next` are what the
  memory held. -/
  | initial (raw : Node → ℕ → Option Node) (prev : Option ι → ℕ → Node)
      (next : Option ι → ℕ → Option Node) (hpos : 0 < L.kMaxHeight) :
      Reachable (L.initial raw prev next)
  /-- An insertion of a node that is not linked runs alone and returns. -/
  | call {s s' : ListState Node ι} (call : Call Node ι) (b : Bool) (h : Reachable s)
      (hnode : L.Insertable call.node) (hnot : ¬L.LinkedAt s.links 0 call.node)
      (hrun : ∃ N, ∀ fuel ≥ N, L.runCall fuel call s = .done b s') : Reachable s'
  /-- Calls of `InsertConcurrently`, each with a node of its own that is not linked, make `n`
  steps. -/
  | concurrent {s : ListState Node ι} {T : Type} [DecidableEq T] (node : T → Node) (fuel : T → ℕ)
      (prev : T → ℕ → Node) (next : T → ℕ → Option Node)
      (c : ℕ → Config T (LinkOp Node) LinkOp.Ret (fun _ => Bool) (Links Node)) (n : ℕ)
      (h : Reachable s) (hinj : Function.Injective node) (hnode : ∀ t, L.Insertable (node t))
      (hnot : ∀ t, ¬L.LinkedAt s.links 0 (node t)) (hmem : (c 0).mem = s.links)
      (hprog : ∀ t, (c 0).prog t = L.insertConcurrently (fuel t) (node t) (prev t) (next t))
      (hsteps : Config.IsRun Exec c n) : Reachable { s with links := (c n).mem }

/-- What holds in every reachable state: the links form chains and no splice misleads. -/
structure Consistent (s : ListState Node ι) (chain : ℕ → List Node) : Prop where
  /-- The links form the chains. -/
  shape : L.Shape s.links chain
  /-- Every splice is empty or nested. -/
  splices : ∀ i, L.SpliceInv s.links chain (s.splices i)
  /-- The arrays of every splice have the length that `AllocateSplice` gives them. -/
  size : ∀ i, (s.splices i).size = L.kMaxHeight + 1

variable {L} {s : ListState Node ι} {chain : ℕ → List Node} {x : Node}

namespace Consistent

omit [DecidableEq Node] [DecidableEq ι] in
/-- A node that is not on level `0` is in no chain. -/
lemma notMem (h : L.Consistent s chain) (hnot : ¬L.LinkedAt s.links 0 x) (j : ℕ) : x ∉ chain j := by
  have hpos : 0 < L.kMaxHeight := lt_of_lt_of_le h.shape.maxHeight_pos h.shape.maxHeight_le
  exact fun hj => hnot ((h.shape.linkedAt_iff hpos).mpr (h.shape.mem_of_le (Nat.zero_le j) hj))

omit [DecidableEq Node] [DecidableEq ι] in
/-- The links may change as insertions change them. -/
lemma grows {new : Node → Prop} {links : Links Node} (h : L.Consistent s chain)
    (hg : L.Grows new s.links links) :
    ∃ chain', L.Consistent (ι := ι) { s with links := links } chain' ∧
      ∀ i, ∀ n ∈ chain' i, n ∈ chain i ∨ new n := by
  obtain ⟨chain', hS', he⟩ := hg chain h.shape
  exact ⟨chain', ⟨hS', fun i => (h.splices i).mono he.maxHeight_le he.sub, h.size⟩, he.only⟩

/-- An insertion through one of the splices, run alone, keeps the state consistent and links no
other node. -/
lemma runThrough (h : L.Consistent s chain) (hx : L.Insertable x)
    (hnot : ¬L.LinkedAt s.links 0 x) {fuel spurious : ℕ} {useCAS fix b : Bool} {i : Option ι}
    (hfuel : (chain 0).length + spurious + L.kMaxHeight + 1 < fuel) {s' : ListState Node ι}
    (hrun : L.runThrough fuel useCAS x i fix spurious s = .done b s') :
    ∃ chain', L.Consistent s' chain' ∧ ∀ j, ∀ n ∈ chain' j, n ∈ chain j ∨ n = x := by
  obtain ⟨sp, c, hr, rfl⟩ := runThrough_eq_done.mp hrun
  have hk : max s.links.maxHeight (L.unstashHeight x) ≤ kMaxPossibleHeight := by
    by_contra hlt
    rw [run_insertWithSplice_of_lt (c := ⟨s.links, spurious⟩) hx.height_pos hx.height_le
      (show spurious + 1 < fuel by omega) useCAS fix (not_le.mp hlt)] at hr
    cases hr
  have hlen : ∀ j, (chain j).length + 1 < fuel := fun j => by
    have := h.shape.length_le j
    omega
  obtain ⟨r', c', hrun', -, hS, hinv, hsize, hmax⟩ := returns_iff_run.mp
    (insertWithSplice_returns_of_le (c := ⟨s.links, spurious⟩) h.shape
      ⟨hx.ne_head, h.notMem hnot, hx.height_pos, hx.height_le⟩ hk (h.splices i)
      (by rw [h.size i]; omega) hlen (show spurious + L.kMaxHeight + 1 < fuel by omega) useCAS fix)
  obtain ⟨rfl, rfl⟩ := Outcome.done.inj (hr.symm.trans hrun')
  have hsub : ∀ j, ∀ n ∈ chain j, n ∈ L.insertChain x chain j := by
    intro j n hn
    rw [InlineSkipList.insertChain]
    split
    · exact hn
    · exact mem_linkUpTo.mpr (Or.inr hn)
  refine ⟨_, ⟨hS, ?_, ?_⟩, fun j n hn => ?_⟩
  · refine (Function.forall_update_iff _ fun _ splice => L.SpliceInv c.links _ splice).mpr
      ⟨hinv, fun j _ => ?_⟩
    exact (h.splices j).mono (hmax ▸ le_max_left _ _) hsub
  · refine (Function.forall_update_iff _ fun _ (splice : Splice Node) => splice.size = _).mpr
      ⟨?_, fun j _ => h.size j⟩
    exact hsize.trans (h.size i)
  · rw [InlineSkipList.insertChain] at hn
    split at hn
    · exact Or.inl hn
    · exact (mem_linkUpTo.mp hn).symm.imp id And.right

omit [DecidableEq ι] in
/-- `InsertConcurrently`, run alone, keeps the state consistent and links no other node. -/
lemma insertConcurrently (h : L.Consistent s chain) (hx : L.Insertable x)
    (hnot : ¬L.LinkedAt s.links 0 x) {fuel spurious : ℕ} {prev : ℕ → Node}
    {next : ℕ → Option Node} {b : Bool} {c : Solo Node}
    (hrun : run execSolo (L.insertConcurrently fuel x prev next) ⟨s.links, spurious⟩ = .done b c) :
    ∃ chain', L.Consistent (ι := ι) { s with links := c.links } chain' ∧
      ∀ j, ∀ n ∈ chain' j, n ∈ chain j ∨ n = x := by
  have hsafe : L.SafeIn (fun _ => False) (fun y => y = x)
      (fun b s' => ∃ chain', L.Shape s' chain' ∧ L.Inserted x b chain')
      (L.insertConcurrently fuel x prev next).haltOnFault s.links := by
    refine insertConcurrently_haltOnFault_safe hx id ?_ h.shape (h.notMem hnot) prev next
    rfl
  exact h.grows (Safe.of_run (s := ⟨s.links, spurious⟩) Solo.links hsafe ⟨chain, h.shape⟩
    (Grows.refl _) (Grows.refl _) (fun _ _ _ => Grows.trans) exec_execSolo (run_haltOnFault hrun)).1

/-- A call that returns keeps the state consistent and links no node but its own. -/
lemma runCall (h : L.Consistent s chain) {call : Call Node ι} {b : Bool} {s' : ListState Node ι}
    (hnode : L.Insertable call.node) (hnot : ¬L.LinkedAt s.links 0 call.node) {fuel : ℕ}
    (hfuel : (chain 0).length + call.spurious + L.kMaxHeight + 1 < fuel)
    (hrun : L.runCall fuel call s = .done b s') :
    ∃ chain', L.Consistent s' chain' ∧ ∀ j, ∀ n ∈ chain' j, n ∈ chain j ∨ n = call.node := by
  obtain ⟨x, entry, spurious⟩ := call
  cases entry with
  | insert => exact h.runThrough hnode hnot hfuel (runCall_insert fuel x spurious s ▸ hrun)
  | insertConcurrently prev next =>
    simp only [InlineSkipList.runCall] at hrun
    cases hr : run execSolo (L.insertConcurrently fuel x prev next) ⟨s.links, spurious⟩ with
    | done b c =>
      rw [hr] at hrun
      cases hrun
      exact h.insertConcurrently hnode hnot hr
    | fault =>
      rw [hr] at hrun
      cases hrun
    | exhausted =>
      rw [hr] at hrun
      cases hrun
  | insertWithSplice useCAS i fix => exact h.runThrough hnode hnot hfuel hrun

end Consistent

/-- **Every reachable state is consistent.** -/
theorem Reachable.consistent (h : L.Reachable s) : ∃ chain, L.Consistent s chain := by
  induction h with
  | initial raw prev next hpos =>
    exact ⟨fun _ => [], Shape.construct raw hpos, fun _ => Or.inl rfl, fun _ => rfl⟩
  | call call b _ hnode hnot hrun ih =>
    obtain ⟨chain, hc⟩ := ih
    obtain ⟨N, hN⟩ := hrun
    have hrun := hN (N + (chain 0).length + call.spurious + L.kMaxHeight + 2) (by omega)
    obtain ⟨chain', hc', -⟩ := hc.runCall hnode hnot (by omega) hrun
    exact ⟨chain', hc'⟩
  | concurrent node fuel prev next c n _ hinj hnode hnot hmem hprog hsteps ih =>
    obtain ⟨chain, hc⟩ := ih
    have hother : ∀ t, ¬others (fun t x => x = node t) t (node t) := by
      rintro t ⟨u, hut, he⟩
      exact hut (hinj he).symm
    -- the calls run without their assertions, so that a call that would fail just stops
    have hsafe : ∀ t, L.SafeIn (others (fun t x => x = node t) t) (fun x => x = node t)
        (fun b s' => ∃ chain', L.Shape s' chain' ∧ L.Inserted (node t) b chain')
        ((c 0).prog t).haltOnFault (c 0).mem := by
      intro t
      rw [hprog t, hmem]
      refine insertConcurrently_haltOnFault_safe (hnode t) (hother t) ?_ hc.shape
        (hc.notMem (hnot t)) (prev t) (next t)
      rfl
    have hvalid : L.Valid (c 0).mem := ⟨chain, hmem ▸ hc.shape⟩
    obtain ⟨-, -, hgrow⟩ := safe_of_isRun (hsteps.haltOnFault fun _ => false) hvalid hsafe n le_rfl
    obtain ⟨chain', hc', -⟩ := hc.grows (hmem ▸ hgrow 0 (Nat.zero_le n))
    exact ⟨chain', hc'⟩

/-- **Searches are linearizable.**  In any reachable state, of a list of any configured height, let
a search run next to any number of `InsertConcurrently` calls on nodes of their own.  What the
search returns is the answer that the chain of level `0` gave at an instant at which the search had
begun and not yet returned.  In particular `Contains` returns `true` if an equal key was linked
before it began, and only if one was linked by the time it returned. -/
theorem search_linearizable {T : Type} [DecidableEq T] (h : L.Reachable s) {node : T → Node}
    (hinj : Function.Injective node) (hnode : ∀ t, L.Insertable (node t))
    (hnot : ∀ t, ¬L.LinkedAt s.links 0 (node t)) {q : Search Key} {fuel : ℕ} {fuels : T → ℕ}
    {prevs : T → ℕ → Node} {nexts : T → ℕ → Option Node}
    {c : ℕ → Config (Option T) (LinkOp Node) LinkOp.Ret (Returned Node q) (Links Node)} {n : ℕ}
    (hmem : (c 0).mem = s.links) (hsearch : (c 0).prog none = L.searchProg fuel q)
    (hprog : ∀ t, (c 0).prog (some t) =
      L.insertConcurrently (fuels t) (node t) (prevs t) (nexts t))
    (hrun : Config.IsRun Exec c n) :
    (c n).prog none ≠ .fault ∧ ∀ m ≤ n, ∀ a, (c m).prog none = L.searchProg fuel q →
      (c n).prog none = .done a →
      (∃ i l, m ≤ i ∧ i ≤ n ∧ L.LevelChain (c i).mem 0 l ∧ a = L.answer l q) ∧
      L.ContainsSpec (L.LinkedAt (c m).mem 0)
        (fun y => ∃ i, m ≤ i ∧ i ≤ n ∧ L.LinkedAt (c i).mem 0 y) q a := by
  obtain ⟨chain, hc⟩ := h.consistent
  have hS : L.Shape (c 0).mem chain := hmem ▸ hc.shape
  exact search_of_shape hinj hnode hS (fun t => hc.notMem (hnot t)) hsearch hprog hrun

/-! ## A list of integers -/

/-- The list of integers after the given insertions. -/
def integersAfter (calls : List (Call ℕ Unit)) : ListState ℕ Unit :=
  match integers.runCalls 20 calls
      (integers.initial (fun _ _ => some 8) (fun _ _ => 6) fun _ _ => some 1) with
  | .done _ s => s
  | _ => integers.initial (fun _ _ => some 8) (fun _ _ => 6) fun _ _ => some 1

/-- Three insertions, one by each entry. -/
def threeCalls : List (Call ℕ Unit) :=
  [⟨5, .insert, 0⟩, ⟨2, .insertConcurrently (fun _ => 7) (fun _ => some 9), 1⟩,
    ⟨7, .insertWithSplice true (some ()) true, 2⟩]

omit [DecidableEq Node] in
/-- A node outside the chain of a level is not linked there. -/
lemma LevelChain.not_linkedAt {s : Links Node} {i : ℕ} {l : List Node} (h : L.LevelChain s i l)
    (hx : x ∉ l) : ¬L.LinkedAt s i x := by
  rintro ⟨l', hl', hx'⟩
  exact hx (h.unique hl' ▸ hx')

/-- Level `0` after each of the three insertions. -/
lemma threeCalls_levelChain :
    integers.LevelChain (integersAfter (threeCalls.take 0)).links 0 [] ∧
    integers.LevelChain (integersAfter (threeCalls.take 1)).links 0 [5] ∧
    integers.LevelChain (integersAfter (threeCalls.take 2)).links 0 [2, 5] ∧
    integers.LevelChain (integersAfter threeCalls).links 0 [2, 5, 7] :=
  ⟨rfl, ⟨rfl, rfl⟩, ⟨rfl, rfl, rfl⟩, ⟨rfl, rfl, rfl, rfl⟩⟩

/-- The list with the three integers is reachable. -/
lemma threeCalls_reachable : integers.Reachable (integersAfter threeCalls) := by
  obtain ⟨hl₀, hl₁, hl₂, -⟩ := threeCalls_levelChain
  have h₁ : integers.Reachable (integersAfter (threeCalls.take 1)) := by
    refine .call ⟨5, .insert, 0⟩ true (.initial _ _ _ (by decide)) ⟨by decide, by decide, by decide⟩
      (hl₀.not_linkedAt (by decide)) ⟨12, fun fuel h => ?_⟩
    obtain ⟨k, rfl⟩ := Nat.exists_eq_add_of_le' h
    rfl
  have h₂ : integers.Reachable (integersAfter (threeCalls.take 2)) := by
    refine .call ⟨2, .insertConcurrently (fun _ => 7) (fun _ => some 9), 1⟩ true h₁
      ⟨by decide, by decide, by decide⟩ (hl₁.not_linkedAt (by decide)) ⟨12, fun fuel h => ?_⟩
    obtain ⟨k, rfl⟩ := Nat.exists_eq_add_of_le' h
    rfl
  refine .call ⟨7, .insertWithSplice true (some ()) true, 2⟩ true h₂
    ⟨by decide, by decide, by decide⟩ (hl₂.not_linkedAt (by decide)) ⟨12, fun fuel h => ?_⟩
  obtain ⟨k, rfl⟩ := Nat.exists_eq_add_of_le' h
  rfl

/-- A thread that has just linked its node on level `0`, and then a search for the key. -/
def insertThenFind : ℕ → Config (Option Unit) (LinkOp ℕ) LinkOp.Ret
    (Returned ℕ (.findGreaterOrEqual (2 : ℤ))) (Links ℕ) :=
  Config.follow execLinks (fun j => if j < 7 then some () else none)
    ⟨fun
      | none => integers.searchProg 20 (.findGreaterOrEqual 2)
      | some _ => integers.insertConcurrently 20 5 (fun _ => 7) (fun _ => some 9),
      integers.construct fun _ _ => some 8⟩

/-- `search_linearizable` for the search. -/
theorem insertThenFind_linearizable : ∃ i l, 7 ≤ i ∧ i ≤ 11 ∧
    integers.LevelChain (insertThenFind i).mem 0 l ∧
      some 5 = integers.answer l (.findGreaterOrEqual 2) := by
  have hrun : Config.IsRun Exec insertThenFind 11 :=
    Config.isRun_follow execLinks exec_execLinks (by decide)
  have hnew : integers.Reachable (integersAfter []) := .initial _ _ _ (by decide)
  have hnode : integers.Insertable 5 := ⟨by decide, by decide, by decide⟩
  have hchain : integers.LevelChain (integersAfter []).links 0 [] := rfl
  exact ((search_linearizable hnew (fun (_ _ : Unit) _ => rfl) (fun _ => hnode)
    (fun _ => hchain.not_linkedAt List.not_mem_nil) rfl rfl (fun _ => rfl) hrun).2 7 (by decide)
    (some 5) rfl rfl).1

end InlineSkipList

end PmemKv
