import PmemKv.SkipList.InsertSpec
import Mathlib.Data.List.Sort

/-!
# Runs of insertions, one at a time

A list is constructed and insertions run to completion one after the other: through the list's own
splice, through a splice on the stack with compare-and-swap, or through one of any number of splices
that the caller obtained from `AllocateSplice`.  After every run the list holds exactly the nodes
whose insertion returned `true`, and no insertion depends on what its splice remembers.
-/

namespace PmemKv

open AtomicProg AtomicProg.Prog LinkedChain

/-- How an insertion is made; `ι` names the splices that the caller allocated. -/
inductive Entry (Node ι : Type) : Type
  /-- `Insert(key)`, through `seq_splice_`. -/
  | insert
  /-- `InsertConcurrently(key)`; `prev` and `next` are what its arrays on the stack hold. -/
  | insertConcurrently (prev : ℕ → Node) (next : ℕ → Option Node)
  /-- `Insert<useCAS>(key, splice, fix)`, through `seq_splice_` (`none`) or an allocated splice. -/
  | insertWithSplice (useCAS : Bool) (splice : Option ι) (fix : Bool)

/-- One insertion. -/
structure Call (Node ι : Type) where
  /-- The node that the inserted key belongs to. -/
  node : Node
  /-- The function that is called. -/
  entry : Entry Node ι
  /-- How often the weak compare-exchange on `max_height_` fails spuriously during the call. -/
  spurious : ℕ

/-- What insertions leave behind for each other: the links and all splices. -/
structure ListState (Node ι : Type) where
  /-- The shared memory. -/
  links : Links Node
  /-- `seq_splice_` (at `none`) and the splices that the caller allocated. -/
  splices : Option ι → Splice Node

namespace InlineSkipList

variable {Key DecodedKey Node ι : Type} (L : InlineSkipList Key DecodedKey Node)

section Calls

variable [DecidableEq Node] [DecidableEq ι]

/-- The state after the constructor and the allocation of the splices; `raw`, `prev` and `next` are
what the memory held. -/
def initial (raw : Node → ℕ → Option Node) (prev : Option ι → ℕ → Node)
    (next : Option ι → ℕ → Option Node) : ListState Node ι where
  links := L.construct raw
  splices i := L.allocateSplice (prev i) (next i)

/-- An insertion through the splice `i`. -/
def runThrough (fuel : ℕ) (useCAS : Bool) (x : Node) (i : Option ι) (fix : Bool) (spurious : ℕ)
    (s : ListState Node ι) : Outcome Bool (ListState Node ι) :=
  match run execSolo (L.insertWithSplice fuel useCAS x (s.splices i) fix) ⟨s.links, spurious⟩ with
  | .done r c => .done r.1 ⟨c.links, Function.update s.splices i r.2⟩
  | .fault => .fault
  | .exhausted => .exhausted

/-- One insertion, run to completion. -/
def runCall (fuel : ℕ) (call : Call Node ι) (s : ListState Node ι) :
    Outcome Bool (ListState Node ι) :=
  match call.entry with
  | .insert =>
    match run execSolo (L.insert fuel call.node (s.splices none)) ⟨s.links, call.spurious⟩ with
    | .done r c => .done r.1 ⟨c.links, Function.update s.splices none r.2⟩
    | .fault => .fault
    | .exhausted => .exhausted
  | .insertConcurrently prev next =>
    match run execSolo (L.insertConcurrently fuel call.node prev next)
        ⟨s.links, call.spurious⟩ with
    | .done b c => .done b { s with links := c.links }
    | .fault => .fault
    | .exhausted => .exhausted
  | .insertWithSplice useCAS i fix => L.runThrough fuel useCAS call.node i fix call.spurious s

/-- A sequence of insertions, with the results of the calls. -/
def runCalls (fuel : ℕ) : List (Call Node ι) → ListState Node ι →
    Outcome (List Bool) (ListState Node ι)
  | [], s => .done [] s
  | call :: calls, s =>
    match L.runCall fuel call s with
    | .done b s' =>
      match runCalls fuel calls s' with
      | .done bs s'' => .done (b :: bs) s''
      | .fault => .fault
      | .exhausted => .exhausted
    | .fault => .fault
    | .exhausted => .exhausted

end Calls

/-- The nodes whose insertion returned `true`. -/
def accepted : List (Call Node ι) → List Bool → List Node
  | call :: calls, b :: bs =>
    if b then call.node :: accepted calls bs else accepted calls bs
  | _, _ => []

/-- The number of spurious failures during the calls. -/
def spuriousFailures : List (Call Node ι) → ℕ
  | [] => 0
  | call :: calls => call.spurious + spuriousFailures calls

/-- Every call brings a node of its own, of an admissible height, and none brings the head. -/
structure Admissible (calls : List (Call Node ι)) : Prop where
  /-- The nodes are distinct. -/
  nodup : (calls.map Call.node).Nodup
  /-- No node is the head. -/
  ne_head : ∀ call ∈ calls, call.node ≠ L.head
  /-- The heights are in `1..kMaxHeight_`. -/
  height : ∀ call ∈ calls, 1 ≤ L.unstashHeight call.node ∧ L.unstashHeight call.node ≤ L.kMaxHeight

/-- The links hold exactly the given nodes, as a skip list. -/
structure Holds (s : Links Node) (nodes : List Node) : Prop where
  /-- The chain of every level from the head is finite and strictly increasing. -/
  chain : ∀ i < L.kMaxHeight, ∃ l, L.LevelChain s i l ∧ l.Pairwise L.NodeLt
  /-- A node of height `h` is linked in exactly the levels below `h`. -/
  linkedAt_iff : ∀ i < L.kMaxHeight, ∀ n ∈ nodes, L.LinkedAt s i n ↔ i < L.unstashHeight n
  /-- A level is a subsequence of the level below. -/
  sublist : ∀ i, i + 1 < L.kMaxHeight → ∀ l l', L.LevelChain s (i + 1) l → L.LevelChain s i l' →
    l.Sublist l'
  /-- The levels at or above `max_height_` are empty. -/
  above : ∀ i < L.kMaxHeight, s.maxHeight ≤ i → L.LevelChain s i []
  /-- Level `0` holds exactly the given nodes, each once. -/
  level_zero : ∃ l, L.LevelChain s 0 l ∧ l.Perm nodes

/-- What holds between two insertions: the links form the chains, no splice misleads, and the chains
consist of the accepted nodes on the levels below their heights. -/
structure RunInv (s : ListState Node ι) (chain : ℕ → List Node) (nodes : List Node) : Prop where
  /-- The links form the chains. -/
  shape : L.Shape s.links chain
  /-- Every splice is empty or nested. -/
  splices : ∀ i, L.SpliceInv s.links chain (s.splices i)
  /-- The arrays of every splice have the length that `AllocateSplice` gives them. -/
  size : ∀ i, (s.splices i).size = L.kMaxHeight + 1
  /-- The accepted nodes are distinct. -/
  nodup : nodes.Nodup
  /-- The chains consist of the accepted nodes. -/
  mem_iff : ∀ i n, n ∈ chain i ↔ n ∈ nodes ∧ i < L.unstashHeight n

variable {L} {s : ListState Node ι} {chain : ℕ → List Node} {nodes : List Node}
  {x : Node}

/-! ## One insertion -/

/-- The initial state holds nothing. -/
lemma RunInv.initial [DecidableEq Node] (hk : 0 < L.kMaxHeight) (raw : Node → ℕ → Option Node)
    (prev : Option ι → ℕ → Node) (next : Option ι → ℕ → Option Node) :
    L.RunInv (L.initial raw prev next) (fun _ => []) [] where
  shape := Shape.construct raw hk
  splices _ := Or.inl rfl
  size _ := rfl
  nodup := List.nodup_nil
  mem_iff _ n := by simp

/-- The accepted nodes bound the length of every chain. -/
lemma RunInv.length_le (h : L.RunInv s chain nodes) (i : ℕ) : (chain i).length ≤ nodes.length := by
  have hnodup := nodup_of_pairwise_nodeLt (h.shape.sorted i)
  exact (List.Nodup.subperm hnodup fun n hn => ((h.mem_iff i n).mp hn).1).length_le

/-- A node that was not accepted and has an admissible height is fresh. -/
lemma RunInv.fresh (h : L.RunInv s chain nodes) (hx : x ∉ nodes) (hhead : x ≠ L.head)
    (h₁ : 1 ≤ L.unstashHeight x) (h₂ : L.unstashHeight x ≤ L.kMaxHeight) : L.Fresh chain x :=
  ⟨hhead, fun i hi => hx ((h.mem_iff i x).mp hi).1, h₁, h₂⟩

/-- An equal key is stored exactly if an accepted node has one. -/
lemma RunInv.stored_iff (h : L.RunInv s chain nodes) (hpos : ∀ n ∈ nodes, 1 ≤ L.unstashHeight n)
    {a : Key} : L.Stored chain a ↔ ∃ n ∈ nodes, L.cmp.Equiv a (L.key n) := by
  constructor
  · rintro ⟨n, hn, he⟩
    exact ⟨n, ((h.mem_iff 0 n).mp hn).1, he⟩
  · rintro ⟨n, hn, he⟩
    exact ⟨n, (h.mem_iff 0 n).mpr ⟨hn, hpos n hn⟩, he⟩

/-- The accepted nodes after the insertion of `x`. -/
def acceptNode (L : InlineSkipList Key DecodedKey Node) (chain : ℕ → List Node)
    (nodes : List Node) (x : Node) : List Node :=
  if L.Stored chain (L.key x) then nodes else nodes ++ [x]

/-- The state after an insertion, with any splice that the insertion left empty or nested. -/
lemma RunInv.insertChain (h : L.RunInv s chain nodes) (hx : x ∉ nodes) {links : Links Node}
    {splices : Option ι → Splice Node} (hshape : L.Shape links (L.insertChain x chain))
    (hmax : links.maxHeight = max s.links.maxHeight (L.unstashHeight x))
    (hsplices : ∀ i, L.SpliceInv links (L.insertChain x chain) (splices i) ∨
      splices i = s.splices i)
    (hsize : ∀ i, (splices i).size = L.kMaxHeight + 1) :
    L.RunInv ⟨links, splices⟩ (L.insertChain x chain) (L.acceptNode chain nodes x) := by
  have hsub : ∀ i, ∀ n ∈ chain i, n ∈ L.insertChain x chain i := by
    intro i n hn
    rw [InlineSkipList.insertChain]
    split
    · exact hn
    · exact mem_linkUpTo.mpr (Or.inr hn)
  refine ⟨hshape, fun i => ?_, hsize, ?_, fun i n => ?_⟩
  · rcases hsplices i with hi | hi
    · exact hi
    · change L.SpliceInv links (L.insertChain x chain) (splices i)
      rw [hi]
      exact (h.splices i).mono (hmax ▸ le_max_left _ _) hsub
  · rw [acceptNode]
    split
    · exact h.nodup
    · rw [List.nodup_append]
      exact ⟨h.nodup, List.nodup_singleton x, fun a ha b hb hab =>
        hx (List.mem_singleton.mp hb ▸ hab ▸ ha)⟩
  · rw [InlineSkipList.insertChain, acceptNode]
    split
    · exact h.mem_iff i n
    · rw [mem_linkUpTo, h.mem_iff i n, List.mem_append, List.mem_singleton]
      constructor
      · rintro (⟨hi, rfl⟩ | ⟨hn, hi⟩)
        · exact ⟨Or.inr rfl, hi⟩
        · exact ⟨Or.inl hn, hi⟩
      · rintro ⟨hn | rfl, hi⟩
        · exact Or.inr ⟨hn, hi⟩
        · exact Or.inl ⟨hi, rfl⟩

variable [DecidableEq Node] [DecidableEq ι]

/-- `Insert` goes through the list's own splice. -/
lemma runCall_insert (fuel : ℕ) (x : Node) (spurious : ℕ) (s : ListState Node ι) :
    L.runCall fuel ⟨x, .insert, spurious⟩ s = L.runThrough fuel false x none false spurious s :=
  rfl

/-- What an insertion through a splice leaves behind. -/
lemma runThrough_eq_done {fuel spurious : ℕ} {useCAS fix b : Bool} {i : Option ι}
    {s' : ListState Node ι} :
    L.runThrough fuel useCAS x i fix spurious s = .done b s' ↔ ∃ sp c,
      run execSolo (L.insertWithSplice fuel useCAS x (s.splices i) fix) ⟨s.links, spurious⟩ =
        .done (b, sp) c ∧ s' = ⟨c.links, Function.update s.splices i sp⟩ := by
  rw [runThrough]
  constructor
  · intro h
    cases hr : run execSolo (L.insertWithSplice fuel useCAS x (s.splices i) fix)
        ⟨s.links, spurious⟩ with
    | done r c =>
      rw [hr] at h
      cases h
      exact ⟨r.2, c, rfl, rfl⟩
    | fault =>
      rw [hr] at h
      cases h
    | exhausted =>
      rw [hr] at h
      cases h
  · rintro ⟨sp, c, hr, rfl⟩
    rw [hr]

/-- **One insertion of a run** returns whether no equal key was stored and keeps the invariant. -/
theorem runCall_spec (h : L.RunInv s chain nodes) (hk : L.kMaxHeight < kMaxPossibleHeight)
    (call : Call Node ι) (hx : call.node ∉ nodes) (hfresh : L.Fresh chain call.node) (fuel : ℕ)
    (hfuel : nodes.length + call.spurious + L.kMaxHeight + 1 < fuel) :
    ∃ s', L.runCall fuel call s = .done (!decide (L.Stored chain (L.key call.node))) s' ∧
      L.RunInv s' (L.insertChain call.node chain) (L.acceptNode chain nodes call.node) := by
  have hlen : ∀ i, (chain i).length + 1 < fuel := fun i => by
    have := h.length_le i
    omega
  have hspec := fun (splice : Splice Node) (hs : L.SpliceInv s.links chain splice)
      (hsize : L.kMaxHeight < splice.size) (useCAS fix : Bool) =>
    returns_iff_run.mp (insertWithSplice_returns (c := ⟨s.links, call.spurious⟩) h.shape hfresh
      hk.le hs hsize hlen (show call.spurious + L.kMaxHeight + 1 < fuel by omega) useCAS fix)
  have hupdate : ∀ i (sp : Splice Node), sp.size = (s.splices i).size →
      ∀ j, (Function.update s.splices i sp j).size = L.kMaxHeight + 1 := by
    intro i sp hsp
    refine (Function.forall_update_iff _ fun _ (splice : Splice Node) => splice.size = _).mpr
      ⟨?_, fun j _ => h.size j⟩
    exact hsp.trans (h.size i)
  -- an insertion through a splice that is kept
  have hkept : ∀ (i : Option ι) (useCAS fix : Bool), ∃ s',
      L.runThrough fuel useCAS call.node i fix call.spurious s =
        .done (!decide (L.Stored chain (L.key call.node))) s' ∧
      L.RunInv s' (L.insertChain call.node chain) (L.acceptNode chain nodes call.node) := by
    intro i useCAS fix
    obtain ⟨⟨_, sp⟩, c, hrun, rfl, hshape, hinv, hsize, hmax⟩ :=
      hspec (s.splices i) (h.splices i) (by rw [h.size i]; omega) useCAS fix
    refine ⟨_, runThrough_eq_done.mpr ⟨sp, c, hrun, rfl⟩,
      h.insertChain hx hshape hmax (fun j => ?_) (hupdate i sp hsize)⟩
    by_cases hj : j = i
    · subst hj
      rw [Function.update_self]
      exact Or.inl hinv
    · exact Or.inr (Function.update_of_ne hj _ _)
  obtain ⟨x, entry, spurious⟩ := call
  cases entry with
  | insert =>
    rw [runCall_insert]
    exact hkept none false false
  | insertConcurrently prev next =>
    obtain ⟨r, c, hrun, hb, hshape, hinv, hsize, hmax⟩ :=
      hspec (stackSplice prev next) (Or.inl rfl) hk true false
    have hrun' : run execSolo (L.insertConcurrently fuel x prev next) ⟨s.links, spurious⟩ =
        .done r.1 c := run_bind_of hrun
    refine ⟨_, ?_, h.insertChain hx hshape hmax (fun j => Or.inr rfl) h.size⟩
    simp only [runCall]
    rw [hrun']
    exact congrArg (Outcome.done · _) hb
  | insertWithSplice useCAS i fix => exact hkept i useCAS fix

/-! ## Whole runs -/

/-- **A run of insertions** returns and keeps the invariant; the accepted nodes are those whose
insertion returned `true`. -/
theorem runCalls_spec (hk : L.kMaxHeight < kMaxPossibleHeight) (calls : List (Call Node ι))
    (h : L.RunInv s chain nodes) (hcalls : L.Admissible calls)
    (hnew : ∀ call ∈ calls, call.node ∉ nodes) (fuel : ℕ)
    (hfuel : nodes.length + calls.length + spuriousFailures calls + L.kMaxHeight + 1 < fuel) :
    ∃ bs s' chain', L.runCalls fuel calls s = .done bs s' ∧ bs.length = calls.length ∧
      L.RunInv s' chain' (nodes ++ accepted calls bs) := by
  induction calls generalizing s chain nodes with
  | nil => exact ⟨[], s, chain, rfl, rfl, by simpa [accepted] using h⟩
  | cons call calls ih =>
    have hx := hnew call List.mem_cons_self
    obtain ⟨hnotin, hnodup⟩ := List.nodup_cons.mp hcalls.nodup
    obtain ⟨hh₁, hh₂⟩ := hcalls.height call List.mem_cons_self
    simp only [spuriousFailures, List.length_cons] at hfuel
    obtain ⟨s', hrun, hinv⟩ := runCall_spec h hk call hx
      (h.fresh hx (hcalls.ne_head call List.mem_cons_self) hh₁ hh₂) fuel (by omega)
    have hlen : (L.acceptNode chain nodes call.node).length ≤ nodes.length + 1 := by
      rw [acceptNode]
      split
      · exact Nat.le_succ _
      · rw [List.length_append, List.length_singleton]
    have hnew' : ∀ c ∈ calls, c.node ∉ L.acceptNode chain nodes call.node := by
      intro c hc
      rw [acceptNode]
      split
      · exact hnew c (List.mem_cons_of_mem _ hc)
      · rw [List.mem_append, List.mem_singleton]
        rintro (hm | he)
        · exact hnew c (List.mem_cons_of_mem _ hc) hm
        · exact hnotin (List.mem_map.mpr ⟨c, hc, he⟩)
    have hcalls' : L.Admissible calls :=
      ⟨hnodup, fun c hc => hcalls.ne_head c (List.mem_cons_of_mem _ hc),
        fun c hc => hcalls.height c (List.mem_cons_of_mem _ hc)⟩
    obtain ⟨bs, s'', chain', hruns, hbs, hinv'⟩ := ih hinv hcalls' hnew' (by omega)
    refine ⟨_ :: bs, s'', chain', by rw [runCalls, hrun]; simp only [hruns]; rfl, by simp [hbs], ?_⟩
    rw [accepted]
    rw [acceptNode] at hinv'
    by_cases hst : L.Stored chain (L.key call.node)
    · rw [if_pos hst] at hinv'
      simpa [hst] using hinv'
    · rw [if_neg hst, List.append_assoc, List.singleton_append] at hinv'
      simpa [hst] using hinv'

omit [DecidableEq Node] [DecidableEq ι] in
/-- The nodes that were accepted are nodes of the calls. -/
lemma mem_accepted {calls : List (Call Node ι)} {bs : List Bool} {n : Node}
    (hn : n ∈ accepted calls bs) : ∃ call ∈ calls, call.node = n := by
  induction calls generalizing bs with
  | nil => exact absurd hn List.not_mem_nil
  | cons call calls ih =>
    cases bs with
    | nil => exact absurd hn List.not_mem_nil
    | cons b bs =>
      rw [accepted] at hn
      split at hn
      · rcases List.mem_cons.mp hn with rfl | hn
        · exact ⟨call, List.mem_cons_self, rfl⟩
        · obtain ⟨c, hc, he⟩ := ih hn
          exact ⟨c, List.mem_cons_of_mem _ hc, he⟩
      · obtain ⟨c, hc, he⟩ := ih hn
        exact ⟨c, List.mem_cons_of_mem _ hc, he⟩

omit [DecidableEq Node] [DecidableEq ι] in
/-- The links of a run hold the accepted nodes. -/
lemma RunInv.holds (h : L.RunInv s chain nodes) (hpos : 0 < L.kMaxHeight)
    (hheight : ∀ n ∈ nodes, 1 ≤ L.unstashHeight n) : L.Holds s.links nodes := by
  have hnodup : ∀ i, (chain i).Nodup := fun i => nodup_of_pairwise_nodeLt (h.shape.sorted i)
  have hanti : Std.Antisymm L.NodeLt := ⟨fun a b hab hba => absurd hba (Comparator.Lt.asymm hab)⟩
  refine ⟨fun i hi => ⟨chain i, h.shape.linked i hi, h.shape.sorted i⟩, fun i hi n hn => ?_,
    fun i hi l l' hl hl' => ?_, fun i hi hmax => ?_, chain 0, h.shape.linked 0 hpos, ?_⟩
  · rw [h.shape.linkedAt_iff hi, h.mem_iff i n, and_iff_right hn]
  · obtain rfl := hl.unique (h.shape.linked (i + 1) hi)
    obtain rfl := hl'.unique (h.shape.linked i (Nat.lt_of_succ_lt hi))
    exact List.sublist_of_subperm_of_pairwise
      (List.Nodup.subperm (hnodup (i + 1)) fun n hn => h.shape.nested i n hn)
      (h.shape.sorted (i + 1)) (h.shape.sorted i)
  · have hempty : chain i = [] := List.eq_nil_iff_forall_not_mem.mpr fun n hn =>
      absurd (h.shape.lt_maxHeight hn) (not_lt.mpr hmax)
    exact hempty ▸ h.shape.linked i hi
  · refine (List.perm_ext_iff_of_nodup (hnodup 0) h.nodup).mpr fun n => ?_
    rw [h.mem_iff 0 n]
    exact and_iff_left_of_imp fun hn => hheight n hn

omit [DecidableEq Node] in
/-- The chains of a shape are the chains of every level. -/
lemma Shape.levelChain_iff {s₁ s₂ : Links Node} (h₁ : L.Shape s₁ chain) (h₂ : L.Shape s₂ chain)
    {i : ℕ} (hi : i < L.kMaxHeight) {l : List Node} :
    L.LevelChain s₁ i l ↔ L.LevelChain s₂ i l := by
  constructor
  · exact fun hl => hl.unique (h₁.linked i hi) ▸ h₂.linked i hi
  · exact fun hl => hl.unique (h₂.linked i hi) ▸ h₁.linked i hi

section Initial

variable (hpos : 0 < L.kMaxHeight) (hk : L.kMaxHeight < kMaxPossibleHeight)
  (raw : Node → ℕ → Option Node) (prev : Option ι → ℕ → Node) (next : Option ι → ℕ → Option Node)
  {calls : List (Call Node ι)} (hcalls : L.Admissible calls)

include hpos hk hcalls

/-- A run from the constructor returns and keeps the invariant. -/
lemma runCalls_initial (fuel : ℕ)
    (hfuel : calls.length + spuriousFailures calls + L.kMaxHeight + 1 < fuel) :
    ∃ bs s chain, L.runCalls fuel calls (L.initial raw prev next) = .done bs s ∧
      bs.length = calls.length ∧ L.RunInv s chain (accepted calls bs) := by
  have := runCalls_spec hk calls (RunInv.initial hpos raw prev next) hcalls
    (fun _ _ => List.not_mem_nil) fuel (by rwa [List.length_nil, Nat.zero_add])
  simpa only [List.nil_append] using this

omit [DecidableEq Node] [DecidableEq ι] hpos hk hcalls in
/-- The node of a further call is fresh. -/
lemma Admissible.fresh {s : ListState Node ι} {chain : ℕ → List Node} {bs : List Bool}
    {call : Call Node ι} (h : L.RunInv s chain (accepted calls bs))
    (hcall : L.Admissible (calls ++ [call])) :
    call.node ∉ accepted calls bs ∧ L.Fresh chain call.node := by
  have hnodup := hcall.nodup
  rw [List.map_append, List.nodup_append] at hnodup
  have hx : call.node ∉ accepted calls bs := fun hm => by
    obtain ⟨c, hc, he⟩ := mem_accepted hm
    exact hnodup.2.2 c.node (List.mem_map_of_mem hc) call.node (by simp) he
  obtain ⟨h₁, h₂⟩ := hcall.height call (by simp)
  exact ⟨hx, h.fresh hx (hcall.ne_head call (by simp)) h₁ h₂⟩

/-- **Insertions one after the other.**  After any sequence of insertions the list holds exactly the
accepted nodes, `Contains` finds exactly their keys, and the next insertion returns `false` exactly
if an equal key was accepted, in which case it changes no chain. -/
theorem holds_accepted : ∃ N, ∀ fuel ≥ N, ∃ bs s,
    L.runCalls fuel calls (L.initial raw prev next) = .done bs s ∧
    bs.length = calls.length ∧ L.Holds s.links (accepted calls bs) ∧
    (∀ a, ∃ M, ∀ fuel ≥ M, run execSolo (L.contains fuel a) ⟨s.links, 0⟩ =
      .done (decide (∃ n ∈ accepted calls bs, L.cmp.Equiv a (L.key n))) ⟨s.links, 0⟩) ∧
    ∀ call, L.Admissible (calls ++ [call]) → ∃ M, ∀ fuel ≥ M, ∃ b s',
      L.runCall fuel call s = .done b s' ∧
      (b = false ↔ ∃ n ∈ accepted calls bs, L.cmp.Equiv (L.key call.node) (L.key n)) ∧
      (b = false → ∀ i < L.kMaxHeight, ∀ l,
        L.LevelChain s'.links i l ↔ L.LevelChain s.links i l) := by
  refine ⟨calls.length + spuriousFailures calls + L.kMaxHeight + 2, fun fuel hfuel => ?_⟩
  obtain ⟨bs, s, chain, hrun, hbs, hinv⟩ :=
    runCalls_initial hpos hk raw prev next hcalls fuel (by omega)
  have hheight : ∀ n ∈ accepted calls bs, 1 ≤ L.unstashHeight n := by
    intro n hn
    obtain ⟨c, hc, rfl⟩ := mem_accepted hn
    exact (hcalls.height c hc).1
  refine ⟨bs, s, hrun, hbs, hinv.holds hpos hheight, fun a => ?_, fun call hcall => ?_⟩
  · refine ⟨L.kMaxHeight * ((chain 0).length + 1) + 1, fun fuel hfuel => ?_⟩
    have hfuel' : L.kMaxHeight * ((chain 0).length + 1) < fuel := by omega
    obtain ⟨b, c, hc, rfl, rfl⟩ := returns_iff_run.mp
      (contains_returns (c := ⟨s.links, 0⟩) (a := a) hinv.shape hfuel')
    rw [hc]
    congr 1
    exact decide_eq_decide.mpr (hinv.stored_iff hheight)
  · obtain ⟨hx, hfresh⟩ := Admissible.fresh hinv hcall
    refine ⟨(accepted calls bs).length + call.spurious + L.kMaxHeight + 2, fun fuel hfuel => ?_⟩
    obtain ⟨s', hrun', hinv'⟩ := runCall_spec hinv hk call hx hfresh fuel (by omega)
    refine ⟨_, s', hrun', ?_, fun hb i hi l => ?_⟩
    · rw [← hinv.stored_iff hheight]
      simp
    · have hst : L.Stored chain (L.key call.node) := by simpa using hb
      rw [InlineSkipList.insertChain, if_pos hst] at hinv'
      exact hinv'.shape.levelChain_iff hinv.shape hi

/-- **Insertions through a used splice.**  After any sequence of insertions, an insertion through
any of the splices returns the same Boolean and leaves the same chains as through a splice that was
never used; no assertion is violated by either, and the loops that skip equal bad entries of a
splice end at or below `max_height_`. -/
theorem insertWithSplice_eq_unused : ∃ N, ∀ fuel ≥ N, ∃ bs s,
    L.runCalls fuel calls (L.initial raw prev next) = .done bs s ∧
    (∀ (i : Option ι) (useCAS fix : Bool) (x : Node) (spurious : ℕ) (unused : Splice Node),
      unused.height = 0 → unused.size = L.kMaxHeight + 1 →
      L.Admissible (calls ++ [⟨x, .insertWithSplice useCAS i fix, spurious⟩]) →
      ∃ M, ∀ fuel ≥ M, ∃ b splice splice' c c',
        run execSolo (L.insertWithSplice fuel useCAS x (s.splices i) fix) ⟨s.links, spurious⟩ =
          .done (b, splice) c ∧
        run execSolo (L.insertWithSplice fuel useCAS x unused fix) ⟨s.links, spurious⟩ =
          .done (b, splice') c' ∧
        c.links.maxHeight = c'.links.maxHeight ∧
        ∀ j < L.kMaxHeight, ∀ l, L.LevelChain c.links j l ↔ L.LevelChain c'.links j l) ∧
    ∀ (i : Option ι) (m : ℕ), m < (s.splices i).height → ∃ M, ∀ fuel ≥ M, ∀ c : Solo Node,
      ((s.splices i).prev m ≠ L.head → ∃ r ≤ s.links.maxHeight,
        run execSolo (skipPrev (s.splices i) ((s.splices i).prev m) fuel m) c = .done r c) ∧
      ((s.splices i).next m ≠ none → ∃ r ≤ s.links.maxHeight,
        run execSolo (skipNext (s.splices i) ((s.splices i).next m) fuel m) c = .done r c) := by
  refine ⟨calls.length + spuriousFailures calls + L.kMaxHeight + 2, fun fuel hfuel => ?_⟩
  obtain ⟨bs, s, chain, hrun, hbs, hinv⟩ :=
    runCalls_initial hpos hk raw prev next hcalls fuel (by omega)
  refine ⟨bs, s, hrun, fun i useCAS fix x spurious unused hunused hsize hcall => ?_,
    fun i m hm => ?_⟩
  · obtain ⟨hx, hfresh⟩ := Admissible.fresh hinv hcall
    refine ⟨(accepted calls bs).length + spurious + L.kMaxHeight + 2, fun fuel hfuel => ?_⟩
    have hlen : ∀ j, (chain j).length + 1 < fuel := fun j => by
      have := hinv.length_le j
      omega
    have hspec := fun (splice : Splice Node) (hs : L.SpliceInv s.links chain splice)
        (hsize : L.kMaxHeight < splice.size) =>
      returns_iff_run.mp (insertWithSplice_returns (c := ⟨s.links, spurious⟩) hinv.shape hfresh
        hk.le hs hsize hlen (show spurious + L.kMaxHeight + 1 < fuel by omega) useCAS fix)
    obtain ⟨⟨b, splice⟩, c, hrun, rfl, hshape, -, -, hmax⟩ :=
      hspec (s.splices i) (hinv.splices i) (by rw [hinv.size i]; omega)
    obtain ⟨⟨b', splice'⟩, c', hrun', rfl, hshape', -, -, hmax'⟩ :=
      hspec unused (Or.inl hunused) (by omega)
    exact ⟨_, splice, splice', c, c', hrun, hrun', hmax.trans hmax'.symm,
      fun j hj l => hshape.levelChain_iff hshape' hj⟩
  · have hnest : L.Nested s.links chain (s.splices i) := (hinv.splices i).resolve_left (by omega)
    have hle := hnest.height_le
    have hsize : (s.splices i).height < (s.splices i).size := by
      have := hinv.shape.maxHeight_le
      rw [hinv.size i]
      omega
    refine ⟨(s.splices i).height + 1, fun fuel hfuel c => ?_⟩
    have hfuel' : (s.splices i).height - m < fuel := by omega
    refine ⟨fun hne => ?_, fun hne => ?_⟩
    · obtain ⟨r, c', hr, rfl, -, hrle, -⟩ := returns_iff_run.mp
        (skipPrev_returns (c := c) hne hm.le hnest.prev_height hsize hfuel')
      exact ⟨r, hrle.trans hle, hr⟩
    · obtain ⟨r, c', hr, rfl, -, hrle, -⟩ := returns_iff_run.mp
        (skipNext_returns (c := c) hne hm.le hnest.next_height hsize hfuel')
      exact ⟨r, hrle.trans hle, hr⟩

end Initial

/-! ## A list of integers -/

/-- A list of three levels; the node `n` has the key `n / 2` and a height from `1` to `3`. -/
def integers : InlineSkipList ℤ ℤ ℕ where
  cmp := Comparator.int
  kMaxHeight := 3
  head := 0
  key n := n / 2
  unstashHeight n := n % 3 + 1

/-- Four insertions, by all three entries; the third and the fourth bring keys that are stored. -/
def integerCalls : List (Call ℕ Unit) :=
  [⟨5, .insert, 0⟩, ⟨2, .insertConcurrently (fun _ => 7) (fun _ => some 9), 1⟩,
    ⟨4, .insertWithSplice true (some ()) true, 2⟩, ⟨3, .insert, 0⟩]

/-- The insertions bring distinct nodes of admissible heights. -/
lemma integerCalls_admissible : integers.Admissible integerCalls :=
  ⟨by decide, by decide, by decide⟩

/-- `holds_accepted` for the four insertions. -/
theorem integers_holds_accepted : ∃ fuel bs s,
    integers.runCalls fuel integerCalls
      (integers.initial (fun _ _ => some 8) (fun _ _ => 6) fun _ _ => some 1) = .done bs s ∧
    integers.Holds s.links (accepted integerCalls bs) := by
  obtain ⟨N, h⟩ := holds_accepted (L := integers) (by decide) (by decide) (fun _ _ => some 8)
    (fun _ _ => 6) (fun _ _ => some 1) integerCalls_admissible
  obtain ⟨bs, s, hrun, -, hholds, -⟩ := h N le_rfl
  exact ⟨N, bs, s, hrun, hholds⟩

/-- `insertWithSplice_eq_unused` for a fifth insertion, through `seq_splice_`. -/
theorem integers_insertWithSplice_eq_unused : ∃ fuel bs s,
    integers.runCalls fuel integerCalls
      (integers.initial (fun _ _ => some 8) (fun _ _ => 6) fun _ _ => some 1) = .done bs s ∧
    ∃ fuel b splice splice' c c',
      run execSolo (integers.insertWithSplice fuel false 8 (s.splices none) true) ⟨s.links, 0⟩ =
        .done (b, splice) c ∧
      run execSolo (integers.insertWithSplice fuel false 8 ⟨0, fun _ => 6, fun _ => none, 4⟩ true)
        ⟨s.links, 0⟩ = .done (b, splice') c' := by
  obtain ⟨N, h⟩ := insertWithSplice_eq_unused (L := integers) (by decide) (by decide)
    (fun _ _ => some 8) (fun _ _ => 6) (fun _ _ => some 1) integerCalls_admissible
  obtain ⟨bs, s, hrun, hnext, -⟩ := h N le_rfl
  obtain ⟨M, hM⟩ := hnext none false true 8 0 ⟨0, fun _ => 6, fun _ => none, 4⟩ rfl rfl
    ⟨by decide, by decide, by decide⟩
  obtain ⟨b, splice, splice', c, c', h₁, h₂, -⟩ := hM M le_rfl
  exact ⟨N, bs, s, hrun, M, b, splice, splice', c, c', h₁, h₂⟩

end InlineSkipList

end PmemKv
