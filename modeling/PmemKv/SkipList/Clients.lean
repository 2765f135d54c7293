import PmemKv.Library.Linearizability
import PmemKv.SkipList.ConcurrentIteration
import PmemKv.SkipList.Interleavings
import Mathlib.Data.List.Sort

/-!
# Clients of a skip list

Any number of threads use one list at the same time.  The client of a thread chooses its calls of
the public interface one after another, from the replies so far: `Insert<true>` through splices of
its own, which it may use again and again, `InsertConcurrently`, `Contains`, `EstimateCount`, and
the functions of iterators.

Such a run is linearizable: there is one order of all calls, compatible with real time, in which a
sorted list that executes them one after another gives the same replies and ends up with the same
nodes.  Nothing is said about the numbers that `EstimateCount` returns.
-/

namespace PmemKv

open AtomicProg AtomicProg.Prog LinkedChain

namespace InlineSkipList

/-! ## The calls of a client -/

/-- A call of the public interface; a thread has a splice for every `i : ι`. -/
inductive Request (Key Node ι : Type) : Type
  /-- `Insert<true>(key, splice, allow_partial_splice_fix)`. -/
  | insert (x : Node) (splice : ι) (allowPartialSpliceFix : Bool)
  /-- `InsertConcurrently(key)`. -/
  | insertConcurrently (x : Node)
  /-- `Contains(key)`. -/
  | contains (key : Key)
  /-- `EstimateCount(key)`. -/
  | estimateCount (key : Key)
  /-- `it.Seek(target)`. -/
  | seek (target : Key)
  /-- `it.SeekForPrev(target)`. -/
  | seekForPrev (target : Key)
  /-- `it.SeekToFirst()`. -/
  | seekToFirst
  /-- `it.SeekToLast()`. -/
  | seekToLast
  /-- `it.Next()`. -/
  | next (it : Iterator Node)
  /-- `it.Prev()`. -/
  | prev (it : Iterator Node)

/-- What a call returns, or the iterator as the call leaves it. -/
inductive Reply (Node : Type) : Type
  /-- The result of an insertion or of `Contains`. -/
  | flag (b : Bool)
  /-- The result of `EstimateCount`. -/
  | count (m : ℕ)
  /-- The iterator after the call. -/
  | position (it : Iterator Node)

/-- What the calls of a thread find besides the list: the fuel of their loops and what the arrays on
the stack hold when a node is inserted. -/
structure Surroundings (Node : Type) where
  /-- The fuel. -/
  fuel : ℕ
  /-- The predecessor array on the stack. -/
  prev : Node → ℕ → Node
  /-- The successor array on the stack. -/
  next : Node → ℕ → Option Node

variable {Key DecodedKey Node ι : Type}

namespace Request

/-- The node that a call inserts. -/
def node : Request Key Node ι → Option Node
  | insert x _ _ => some x
  | insertConcurrently x => some x
  | _ => none

/-- The iterator that a call moves. -/
def iterator : Request Key Node ι → Option (Iterator Node)
  | next it => some it
  | prev it => some it
  | _ => none

/-- The program of a call. -/
def prog [DecidableEq Node] [DecidableEq ι] (L : InlineSkipList Key DecodedKey Node)
    (kBranching : ℕ) (env : Surroundings Node) :
    Request Key Node ι → (ι → Splice Node) → ListProg Node (Reply Node × (ι → Splice Node))
  | insert x i fix, splices => do
    let r ← L.insertWithSplice env.fuel true x (splices i) fix
    pure (.flag r.1, Function.update splices i r.2)
  | insertConcurrently x, splices => do
    let b ← L.insertConcurrently env.fuel x (env.prev x) (env.next x)
    pure (.flag b, splices)
  | contains key, splices => do
    let b ← L.contains env.fuel key
    pure (.flag b, splices)
  | estimateCount key, splices => do
    let m ← L.estimateCount kBranching env.fuel key
    pure (.count m, splices)
  | seek target, splices => do
    let it ← Iterator.seek L env.fuel target
    pure (.position it, splices)
  | seekForPrev target, splices => do
    let it ← Iterator.seekForPrev L env.fuel target
    pure (.position it, splices)
  | seekToFirst, splices => do
    let it ← Iterator.seekToFirst L
    pure (.position it, splices)
  | seekToLast, splices => do
    let it ← Iterator.seekToLast L env.fuel
    pure (.position it, splices)
  | next it, splices => do
    let it ← it.next
    pure (.position it, splices)
  | prev it, splices => do
    let it ← it.prev L env.fuel
    pure (.position it, splices)

/-- A sorted list that executes the calls one after another: an insertion is refused exactly if an
equal key is there, and the other calls read off their answer.  `EstimateCount` is not part of this
object: the list says only that the call returns some number and changes nothing. -/
def Seq (L : InlineSkipList Key DecodedKey Node) : Request Key Node ι → Reply Node → List Node →
    List Node → Prop
  | insert x _ _, r, l, l' =>
      (∃ y ∈ l, L.cmp.Equiv (L.key x) (L.key y)) ∧ r = .flag false ∧ l' = l ∨
      (∀ y ∈ l, ¬L.cmp.Equiv (L.key x) (L.key y)) ∧ r = .flag true ∧ l' = L.insertNode x l
  | insertConcurrently x, r, l, l' =>
      (∃ y ∈ l, L.cmp.Equiv (L.key x) (L.key y)) ∧ r = .flag false ∧ l' = l ∨
      (∀ y ∈ l, ¬L.cmp.Equiv (L.key x) (L.key y)) ∧ r = .flag true ∧ l' = L.insertNode x l
  | contains key, r, l, l' => l' = l ∧ r = .flag (l.any fun n => L.cmp.Equiv key (L.key n))
  | estimateCount _, r, l, l' => l' = l ∧ ∃ m, r = .count m
  | seek target, r, l, l' => l' = l ∧ r = .position ⟨l.find? fun n => !L.isBefore target n⟩
  | seekForPrev target, r, l, l' => l' = l ∧ r = .position ⟨Iterator.lastNotAfter L l target⟩
  | seekToFirst, r, l, l' => l' = l ∧ r = .position ⟨l.head?⟩
  | seekToLast, r, l, l' => l' = l ∧ r = .position ⟨l.getLast?⟩
  | next it, r, l, l' => l' = l ∧ ∃ l₁ n l₂, it.node = some n ∧ l = l₁ ++ n :: l₂ ∧
      r = .position ⟨l₂.head?⟩
  | prev it, r, l, l' => l' = l ∧ ∃ l₁ n l₂, it.node = some n ∧ l = l₁ ++ n :: l₂ ∧
      r = .position ⟨l₁.getLast?⟩

end Request

variable (L : InlineSkipList Key DecodedKey Node)

/-- The node was inserted by an earlier call. -/
def Used (client : List (Reply Node) → Option (Request Key Node ι)) (replies : List (Reply Node))
    (x : Node) : Prop :=
  ∃ k < replies.length, ∃ q, client (replies.take k) = some q ∧ q.node = some x

/-- What a client has to keep to: it inserts nodes of its own, each at most once, and it moves only
iterators that an earlier call has left at a node. -/
structure WellBehaved (own : Node → Prop)
    (client : List (Reply Node) → Option (Request Key Node ι)) : Prop where
  /-- An inserted node is an own one that was not inserted before. -/
  node : ∀ replies q x, client replies = some q → q.node = some x →
    own x ∧ L.Insertable x ∧ ¬Used client replies x
  /-- A moved iterator is valid and comes from an earlier call. -/
  iterator : ∀ replies q it, client replies = some q → q.iterator = some it →
    it.valid = true ∧ .position it ∈ replies

variable {L} {s s' : Links Node} {chain chain' : ℕ → List Node} {rely : Node → Prop}
  {q : Request Key Node ι} {r : Reply Node}

/-! ## The obligation of one call -/

/-- What holds when a call returns: its node is inserted or refused, or its reply is the one of the
chain of level `0`. -/
def Request.Outcome (L : InlineSkipList Key DecodedKey Node) (q : Request Key Node ι)
    (r : Reply Node) (chain : ℕ → List Node) : Prop :=
  match q.node with
  | some x => ∃ b, r = .flag b ∧ L.Inserted x b chain
  | none => q.Seq L r (chain 0) (chain 0)

/-- What an insertion does to a sorted list. -/
lemma Request.seq_of_node {x : Node} {l l' : List Node} (hx : q.node = some x) :
    q.Seq L r l l' ↔ (∃ y ∈ l, L.cmp.Equiv (L.key x) (L.key y)) ∧ r = .flag false ∧ l' = l ∨
      (∀ y ∈ l, ¬L.cmp.Equiv (L.key x) (L.key y)) ∧ r = .flag true ∧ l' = L.insertNode x l := by
  cases q with
  | insert y _ _ =>
    cases hx
    rfl
  | insertConcurrently y =>
    cases hx
    rfl
  | _ => exact nomatch hx

/-- The outcome of an insertion. -/
lemma Request.outcome_of_node {x : Node} (hx : q.node = some x) :
    q.Outcome L r chain ↔ ∃ b, r = .flag b ∧ L.Inserted x b chain := by
  rw [Outcome, hx]

/-- The outcome of any other call. -/
lemma Request.outcome_of_none (hq : q.node = none) :
    q.Outcome L r chain ↔ q.Seq L r (chain 0) (chain 0) := by
  rw [Outcome, hq]

/-- Iterators are left at nodes of the list. -/
lemma Request.Outcome.position_mem (h : q.Outcome L r chain) {it : Iterator Node}
    (hr : r = .position it) {n : Node} (hn : it.node = some n) : n ∈ chain 0 := by
  subst hr
  cases q with
  | insert => exact nomatch h.choose_spec.1
  | insertConcurrently => exact nomatch h.choose_spec.1
  | contains => exact nomatch h.2
  | estimateCount => exact nomatch h.2.choose_spec
  | seek target =>
    cases h.2
    exact List.mem_of_find?_eq_some hn
  | seekForPrev target =>
    cases h.2
    exact (List.mem_filter.mp (List.mem_of_getLast? hn)).1
  | seekToFirst =>
    cases h.2
    exact List.mem_of_head? hn
  | seekToLast =>
    cases h.2
    exact List.mem_of_getLast? hn
  | next it =>
    obtain ⟨-, l₁, m, l₂, -, hl, he⟩ := h
    cases he
    rw [hl]
    exact List.mem_append_right _ (List.mem_cons_of_mem _ (List.mem_of_head? hn))
  | prev it =>
    obtain ⟨-, l₁, m, l₂, -, hl, he⟩ := h
    cases he
    rw [hl]
    exact List.mem_append_left _ (List.mem_of_getLast? hn)

variable [DecidableEq Node] [DecidableEq ι]

/-- The obligation of a call next to insertions by other threads. -/
theorem Request.prog_safe (hk : L.kMaxHeight < kMaxPossibleHeight) (kBranching : ℕ)
    (env : Surroundings Node) {splices : ι → Splice Node} (hS : L.Shape s chain)
    (hnode : ∀ x, q.node = some x → L.Insertable x ∧ (∀ j, x ∉ chain j) ∧ ¬rely x)
    (hit : ∀ it, q.iterator = some it → ∃ n, it.node = some n ∧ n ∈ chain 0)
    (hsplices : ∀ i, L.SpliceInv s chain (splices i) ∧ L.kMaxHeight < (splices i).size) :
    L.SafeIn rely (fun x => q.node = some x)
      (fun r s' => ∃ chain', L.Shape s' chain' ∧ q.Outcome L r.1 chain' ∧
        ∀ i, L.SpliceInv s' chain' (r.2 i) ∧ L.kMaxHeight < (r.2 i).size)
      (q.prog L kBranching env splices) s := by
  have hgrown : ∀ {s₁ chain₁ new}, L.Extends new s chain s₁ chain₁ →
      ∀ i, L.SpliceInv s₁ chain₁ (splices i) ∧ L.kMaxHeight < (splices i).size := fun he i =>
    ⟨(hsplices i).1.mono he.maxHeight_le he.sub, (hsplices i).2⟩
  obtain ⟨guar, hguar⟩ : ∃ guar : Node → Prop, guar = fun x => q.node = some x := ⟨_, rfl⟩
  have hown : ∀ x, q.node = some x → guar x := fun x hx => by rwa [hguar]
  rw [← hguar]
  clear hguar
  cases q with
  | insert x i fix =>
    obtain ⟨hx, hnot, hrely⟩ := hnode x rfl
    refine SafeIn.bind_of ((insertWithSplice_safe hx hrely (hown x rfl) hk.le hS hnot (hsplices i).1
      (hsplices i).2 fix).track hS) ?_
    rintro r s₁ ⟨⟨chain₁, hS₁, hins, hsize, hinv⟩, chain₂, hS₂, he⟩
    obtain rfl := hS₁.unique hS₂
    refine ⟨chain₁, hS₁, ⟨r.1, rfl, hins⟩, fun j => ?_⟩
    by_cases hji : j = i
    · subst hji
      simp only [Function.update_self]
      exact ⟨hinv, hsize ▸ (hsplices j).2⟩
    · simp only [Function.update_of_ne hji]
      exact hgrown he j
  | insertConcurrently x =>
    obtain ⟨hx, hnot, hrely⟩ := hnode x rfl
    refine SafeIn.bind_of ((insertConcurrently_safe hx hrely (hown x rfl) hk hS hnot (env.prev x)
      (env.next x)).track hS) ?_
    rintro b s₁ ⟨⟨chain₁, hS₁, hins⟩, chain₂, hS₂, he⟩
    obtain rfl := hS₁.unique hS₂
    exact ⟨chain₁, hS₁, ⟨b, rfl, hins⟩, hgrown he⟩
  | contains key =>
    refine SafeIn.bind_of ((contains_safe (a := key) hS).track hS) ?_
    rintro b s₁ ⟨⟨chain₁, hS₁, hb⟩, chain₂, hS₂, he⟩
    obtain rfl := hS₁.unique hS₂
    refine ⟨chain₁, hS₁, ⟨rfl, ?_⟩, hgrown he⟩
    rw [hb, Reply.flag.injEq, Bool.eq_iff_iff, decide_eq_true_iff, List.any_eq_true]
    simp only [decide_eq_true_eq]
    rfl
  | estimateCount key =>
    refine SafeIn.bind_of ((estimateCount_safe (a := key) hS kBranching).track hS) ?_
    rintro m s₁ ⟨-, chain₁, hS₁, he⟩
    exact ⟨chain₁, hS₁, ⟨rfl, m, rfl⟩, hgrown he⟩
  | seek target =>
    refine SafeIn.bind_of ((Iterator.seek_safe (a := target) hS).track hS) ?_
    rintro it s₁ ⟨⟨chain₁, hS₁, rfl⟩, chain₂, hS₂, he⟩
    obtain rfl := hS₁.unique hS₂
    exact ⟨chain₁, hS₁, ⟨rfl, by rw [(hS₁.neighbours_eq target 0).2]⟩, hgrown he⟩
  | seekForPrev target =>
    refine SafeIn.bind_of ((Iterator.seekForPrev_safe (a := target) hS).track hS) ?_
    rintro it s₁ ⟨⟨chain₁, hS₁, rfl⟩, chain₂, hS₂, he⟩
    obtain rfl := hS₁.unique hS₂
    exact ⟨chain₁, hS₁, ⟨rfl, rfl⟩, hgrown he⟩
  | seekToFirst =>
    refine SafeIn.bind_of ((Iterator.seekToFirst_safe hS).track hS) ?_
    rintro it s₁ ⟨⟨chain₁, hS₁, rfl⟩, chain₂, hS₂, he⟩
    obtain rfl := hS₁.unique hS₂
    exact ⟨chain₁, hS₁, ⟨rfl, rfl⟩, hgrown he⟩
  | seekToLast =>
    refine SafeIn.bind_of ((Iterator.seekToLast_safe hS).track hS) ?_
    rintro it s₁ ⟨⟨chain₁, hS₁, rfl⟩, chain₂, hS₂, he⟩
    obtain rfl := hS₁.unique hS₂
    exact ⟨chain₁, hS₁, ⟨rfl, rfl⟩, hgrown he⟩
  | next it =>
    obtain ⟨n, hn, hmem⟩ := hit it rfl
    obtain rfl : it = ⟨some n⟩ := by
      cases it
      exact congrArg _ hn
    refine SafeIn.bind_of ((Iterator.next_safe hS hmem).track hS) ?_
    rintro it s₁ ⟨⟨chain₁, l₁, l₂, hS₁, hl, rfl⟩, chain₂, hS₂, he⟩
    obtain rfl := hS₁.unique hS₂
    exact ⟨chain₁, hS₁, ⟨rfl, l₁, n, l₂, rfl, hl, rfl⟩, hgrown he⟩
  | prev it =>
    obtain ⟨n, hn, hmem⟩ := hit it rfl
    obtain rfl : it = ⟨some n⟩ := by
      cases it
      exact congrArg _ hn
    refine SafeIn.bind_of ((Iterator.prev_safe hS hmem).track hS) ?_
    rintro it s₁ ⟨⟨chain₁, l₁, l₂, hS₁, hl, rfl⟩, chain₂, hS₂, he⟩
    obtain rfl := hS₁.unique hS₂
    exact ⟨chain₁, hS₁, ⟨rfl, l₁, n, l₂, rfl, hl, rfl⟩, hgrown he⟩

/-! ## Sessions -/

section Sessions

variable {client : List (Reply Node) → Option (Request Key Node ι)} {own : Node → Prop}
  {replies : List (Reply Node)} {splices : ι → Splice Node}

/-- What a thread knows between two calls: the nodes that it has not used are not linked, the
iterators that it was left with stand at nodes of the list, and its splices can be used. -/
def Between (L : InlineSkipList Key DecodedKey Node)
    (client : List (Reply Node) → Option (Request Key Node ι)) (own : Node → Prop)
    (replies : List (Reply Node)) (splices : ι → Splice Node) (s : Links Node) : Prop :=
  ∃ chain, L.Shape s chain ∧ (∀ x, own x → ¬Used client replies x → ∀ i, x ∉ chain i) ∧
    (∀ it n, .position it ∈ replies → it.node = some n → n ∈ chain 0) ∧
    ∀ i, L.SpliceInv s chain (splices i) ∧ L.kMaxHeight < (splices i).size

omit [DecidableEq Node] [DecidableEq ι] in
/-- The insertions of other threads leave it so. -/
lemma Between.stable {other : Node → Prop} (h : L.Between client own replies splices s)
    (hother : ∀ x, own x → ¬other x) (hgrow : L.Grows other s s') :
    L.Between client own replies splices s' := by
  obtain ⟨chain, hS, hfresh, hpos, hsp⟩ := h
  obtain ⟨chain', hS', he⟩ := hgrow chain hS
  exact ⟨chain', hS', fun x hx hu i hm => hfresh x hx hu i ((he.mem_iff (hother x hx) i).mp hm),
    fun it n hit hn => he.sub 0 n (hpos it n hit hn),
    fun i => ⟨(hsp i).1.mono he.maxHeight_le he.sub, (hsp i).2⟩⟩

omit [DecidableEq Node] [DecidableEq ι] in
/-- A node used before or by the next call is used after it. -/
lemma Used.of_call {x : Node} (hcall : client replies = some q) (r : Reply Node)
    (h : Used client replies x ∨ q.node = some x) : Used client (replies ++ [r]) x := by
  rcases h with ⟨k, hk, q', hq', hx⟩ | hx
  · refine ⟨k, by rw [List.length_append]; omega, q', ?_, hx⟩
    rwa [List.take_append_of_le_length hk.le]
  · refine ⟨replies.length, by simp, q, ?_, hx⟩
    rwa [List.take_left]

/-- A call of a well-behaved client meets its obligation and leaves its thread ready for the
next. -/
theorem Between.prog_safe (hk : L.kMaxHeight < kMaxPossibleHeight) (kBranching : ℕ)
    (env : Surroundings Node) (hclient : L.WellBehaved own client) (hrely : ∀ x, own x → ¬rely x)
    (hcall : client replies = some q) (h : L.Between client own replies splices s) :
    L.SafeIn rely (fun x => q.node = some x)
      (fun r s' => (∃ chain, L.Shape s' chain ∧ q.Outcome L r.1 chain) ∧
        L.Between client own (replies ++ [r.1]) r.2 s')
      (q.prog L kBranching env splices) s := by
  obtain ⟨chain, hS, hfresh, hpos, hsp⟩ := h
  have hnode : ∀ x, q.node = some x → L.Insertable x ∧ (∀ j, x ∉ chain j) ∧ ¬rely x := by
    intro x hx
    obtain ⟨hown, hins, hused⟩ := hclient.node replies q x hcall hx
    exact ⟨hins, hfresh x hown hused, hrely x hown⟩
  have hit : ∀ it, q.iterator = some it → ∃ n, it.node = some n ∧ n ∈ chain 0 := by
    intro it hit
    obtain ⟨hvalid, hmem⟩ := hclient.iterator replies q it hcall hit
    obtain ⟨n, hn⟩ := Option.isSome_iff_exists.mp hvalid
    exact ⟨n, hn, hpos it n hmem hn⟩
  refine ((Request.prog_safe hk kBranching env hS hnode hit hsp).track hS).mono ?_
  rintro ⟨r, splices'⟩ s₁ ⟨⟨chain₁, hS₁, hout, hsp₁⟩, chain₂, hS₂, he⟩
  obtain rfl := hS₁.unique hS₂
  refine ⟨⟨chain₁, hS₁, hout⟩, chain₁, hS₁, fun x hx hu i hm => ?_, fun it n hit hn => ?_, hsp₁⟩
  · have hx' : ¬Used client replies x := fun h => hu (.of_call hcall r (Or.inl h))
    rcases he.only i x hm with hm | hr | hq
    · exact hfresh x hx hx' i hm
    · exact hrely x hx hr
    · exact hu (.of_call hcall r (Or.inr hq))
  · rcases List.mem_append.mp hit with hit | hit
    · exact he.sub 0 n (hpos it n hit hn)
    · exact hout.position_mem (List.mem_singleton.mp hit).symm hn

/-- The session of a well-behaved client is safe next to insertions of other nodes. -/
theorem Between.session_safe (hk : L.kMaxHeight < kMaxPossibleHeight) (kBranching : ℕ)
    (env : Surroundings Node) (hclient : L.WellBehaved own client) (hrely : ∀ x, own x → ¬rely x)
    {rounds : ℕ} (h : L.Between client own replies splices s) :
    L.SafeIn rely own (fun replies s' => ∃ splices, L.Between client own replies splices s')
      (session (Request.prog L kBranching env) client rounds splices replies) s :=
  AtomicProg.session_safe (fun (q : Request Key Node ι) => L.Grows fun x => q.node = some x)
    (fun q r s => ∃ chain, L.Shape s chain ∧ q.Outcome L r chain) (L.Between client own)
    (fun _ _ _ _ hq hb => hb.prog_safe hk kBranching env hclient hrely hq)
    (fun replies q hq _ _ hG => hG.mono fun x hx => (hclient.node replies q x hq hx).1) h

omit [DecidableEq Node] in
/-- A call does not return without an operation. -/
lemma Request.prog_ne_done (L : InlineSkipList Key DecodedKey Node) [DecidableEq Node]
    (kBranching : ℕ) (env : Surroundings Node) (q : Request Key Node ι)
    (splices : ι → Splice Node) (r : Reply Node × (ι → Splice Node)) :
    q.prog L kBranching env splices ≠ .done r := by
  have hinsert : ∀ x splice fix a, L.insertWithSplice env.fuel true x splice fix ≠ .done a := by
    intro x splice fix a
    rw [insertWithSplice_eq]
    exact check_bind_ne_done (bind_ne_done (p := getMaxHeight) (fun m h => nomatch h) _) _ a
  cases q with
  | insert x i fix => exact bind_ne_done (hinsert x _ fix) _ r
  | insertConcurrently x => exact bind_ne_done (bind_ne_done (hinsert x _ false) _) _ r
  | contains => exact fun h => nomatch h
  | estimateCount => exact fun h => nomatch h
  | seek => exact fun h => nomatch h
  | seekForPrev => exact fun h => nomatch h
  | seekToFirst => exact fun h => nomatch h
  | seekToLast => exact fun h => nomatch h
  | next it =>
    refine bind_ne_done (check_bind_ne_done (fun a => ?_) _) _ r
    cases it.node with
    | some n => exact fun h => nomatch h
    | none => exact fun h => nomatch h
  | prev it =>
    refine bind_ne_done (check_bind_ne_done (fun a => ?_) _) _ r
    cases it.node with
    | some n => exact fun h => nomatch h
    | none => exact fun h => nomatch h

end Sessions

/-! ## Runs of clients -/

section Runs

variable {T : Type} [DecidableEq T] {own : T → Node → Prop}
  {client : T → List (Reply Node) → Option (Request Key Node ι)}
  {c : ℕ → Config T (LinkOp Node) LinkOp.Ret (fun _ => List (Reply Node)) (Links Node)} {n : ℕ}
  {hist : T → List (CallRecord (Request Key Node ι) (Reply Node))} {chains : ℕ → ℕ → List Node}

/-- What is known along a run of clients: the chains at every point, which grow in every step by
nodes of the thread that moves and in the steps of a call by its node only; a call's node is not
linked when the call begins, and its outcome holds when it returns. -/
structure Observed (L : InlineSkipList Key DecodedKey Node) (own : T → Node → Prop)
    (c : ℕ → Config T (LinkOp Node) LinkOp.Ret (fun _ => List (Reply Node)) (Links Node)) (n : ℕ)
    (hist : T → List (CallRecord (Request Key Node ι) (Reply Node)))
    (chains : ℕ → ℕ → List Node) : Prop where
  /-- The configurations are a run. -/
  isRun : Config.IsRun Exec c n
  /-- No two threads own the same node. -/
  disjoint : ∀ t u x, own t x → own u x → t = u
  /-- The memory is a skip list. -/
  shape : ∀ j ≤ n, L.Shape (c j).mem (chains j)
  /-- A thread links its own nodes only. -/
  step : ∀ j < n, ∀ t, Config.StepBy Exec t (c j) (c (j + 1)) →
    L.Grows (own t) (c j).mem (c (j + 1)).mem
  /-- A call links its own node only. -/
  call : ∀ t, ∀ rec ∈ hist t, Config.MovesAlong Exec c t
    (L.Grows fun x => rec.call.node = some x) rec.inv (rec.finish n)
  /-- The node of a call is an own one of positive height and is not linked when the call begins. -/
  fresh : ∀ t, ∀ rec ∈ hist t, ∀ x, rec.call.node = some x →
    own t x ∧ 1 ≤ L.unstashHeight x ∧ x ∉ chains rec.inv 0
  /-- The outcome of a call holds when it returns. -/
  outcome : ∀ t, ∀ rec ∈ hist t, ∀ e r, rec.ret = some (e, r) → rec.call.Outcome L r (chains e)
  /-- A call lies within the run, and every operation of a thread belongs to a call. -/
  bounds : ∀ t, ∀ rec ∈ hist t, rec.inv < rec.finish n ∧ rec.finish n ≤ n
  /-- A call returns with an operation of its thread. -/
  last_step : ∀ t, ∀ rec ∈ hist t, ∀ e r, rec.ret = some (e, r) →
    Config.StepBy Exec t (c (e - 1)) (c e)
  /-- Every operation of a thread belongs to a call. -/
  exists_record : ∀ t, ∀ j < n, Config.StepBy Exec t (c j) (c (j + 1)) →
    ∃ (k : ℕ) (rec : CallRecord (Request Key Node ι) (Reply Node)),
      (hist t)[k]? = some rec ∧ rec.inv ≤ j ∧ j < rec.finish n

namespace Observed

variable (h : L.Observed own c n hist chains)

include h

omit [DecidableEq ι]

/-- What a step that links nodes of `new` only does to the chains. -/
lemma extends_of_grows {new : Node → Prop} {j : ℕ} (hj : j < n)
    (hgrow : L.Grows new (c j).mem (c (j + 1)).mem) :
    L.Extends new (c j).mem (chains j) (c (j + 1)).mem (chains (j + 1)) := by
  obtain ⟨chain', hS', he⟩ := hgrow _ (h.shape j hj.le)
  rwa [(h.shape (j + 1) hj).unique hS']

/-- No node is lost from level `0`. -/
lemma mem_mono {i j : ℕ} (hij : i ≤ j) (hj : j ≤ n) {x : Node} (hx : x ∈ chains i 0) :
    x ∈ chains j 0 := by
  induction j, hij using Nat.le_induction with
  | base => exact hx
  | succ j hij ih =>
    obtain ⟨t, ht⟩ := h.isRun j hj
    exact (h.extends_of_grows hj (h.step j hj t ht)).sub 0 x (ih (Nat.le_of_succ_le hj))

/-- An own node that comes to be linked is linked by an operation of its owner. -/
lemma exists_link {i e : ℕ} (hie : i ≤ e) (he : e ≤ n) {t : T} {x : Node} (hx : own t x)
    (hi : x ∉ chains i 0) (hmem : x ∈ chains e 0) :
    ∃ j, i ≤ j ∧ j < e ∧ x ∉ chains j 0 ∧ x ∈ chains (j + 1) 0 ∧
      Config.StepBy Exec t (c j) (c (j + 1)) := by
  induction e, hie using Nat.le_induction with
  | base => exact absurd hmem hi
  | succ e hie ih =>
    by_cases hxe : x ∈ chains e 0
    · obtain ⟨j, hij, hje, hj⟩ := ih (Nat.le_of_succ_le he) hxe
      exact ⟨j, hij, Nat.lt_succ_of_lt hje, hj⟩
    · obtain ⟨u, hu⟩ := h.isRun e he
      have hown := ((h.extends_of_grows he (h.step e he u hu)).only 0 x hmem).resolve_left hxe
      obtain rfl := h.disjoint t u x hx hown
      exact ⟨e, hie, Nat.lt_succ_self e, hxe, hmem, hu⟩

/-- A step by which no node of `new` comes in leaves level `0` as it is. -/
lemma chain_eq {new : Node → Prop} {j : ℕ} (hj : j < n)
    (hgrow : L.Grows new (c j).mem (c (j + 1)).mem)
    (hnew : ∀ x, new x → x ∈ chains (j + 1) 0 → x ∈ chains j 0) :
    chains (j + 1) 0 = chains j 0 := by
  have he := h.extends_of_grows hj hgrow
  have hasymm : Std.Antisymm L.NodeLt := ⟨fun a b hab hba => absurd hba hab.asymm⟩
  have hirrefl : Std.Irrefl L.NodeLt := ⟨fun a => Comparator.lt_irrefl _⟩
  refine ((h.shape (j + 1) hj).sorted 0).eq_of_mem_iff ((h.shape j hj.le).sorted 0) fun x => ?_
  exact ⟨fun hx => (he.only 0 x hx).elim id fun hn => hnew x hn hx, he.sub 0 x⟩

/-- A step by which a node comes in puts it at its place, and no equal key was there. -/
lemma chain_insert {j : ℕ} (hj : j < n) {x : Node}
    (hgrow : L.Grows (fun y => some x = some y) (c j).mem (c (j + 1)).mem) (hx : x ∉ chains j 0)
    (hx' : x ∈ chains (j + 1) 0) :
    (∀ y ∈ chains j 0, ¬L.cmp.Equiv (L.key x) (L.key y)) ∧
      chains (j + 1) 0 = L.insertNode x (chains j 0) := by
  have he := h.extends_of_grows hj hgrow
  have hdup : ∀ y ∈ chains j 0, ¬L.cmp.Equiv (L.key x) (L.key y) := by
    intro y hy heq
    exact hx ((h.shape (j + 1) hj).eq_of_equiv hx' (he.sub 0 y hy) heq ▸ hy)
  have hasymm : Std.Antisymm L.NodeLt := ⟨fun a b hab hba => absurd hba hab.asymm⟩
  have hirrefl : Std.Irrefl L.NodeLt := ⟨fun a => Comparator.lt_irrefl _⟩
  refine ⟨hdup, ((h.shape (j + 1) hj).sorted 0).eq_of_mem_iff
    ((h.shape j hj.le).insertNode_sorted hdup) fun y => ?_⟩
  rw [Shape.mem_insertNode]
  constructor
  · intro hy
    exact (he.only 0 y hy).symm.imp (fun hxy => (Option.some.inj hxy).symm) id
  · rintro (rfl | hy)
    · exact hx'
    · exact he.sub 0 y hy

end Observed

/-- A call takes effect in the step `j`: its node is linked on level `0`, or it does not link a node
and returns. -/
def TakesEffect (hist : T → List (CallRecord (Request Key Node ι) (Reply Node)))
    (chains : ℕ → ℕ → List Node) (n j : ℕ) (o : T × ℕ) : Prop :=
  ∃ rec, recordAt hist o = some rec ∧ rec.inv ≤ j ∧ j < rec.finish n ∧
    ((∃ x, rec.call.node = some x ∧ x ∉ chains j 0 ∧ x ∈ chains (j + 1) 0) ∨
      ∃ r, rec.ret = some (j + 1, r) ∧ ∀ x, rec.call.node = some x → r = .flag false)

namespace Observed

variable (h : L.Observed own c n hist chains) {j : ℕ} {o : T × ℕ}

include h

omit [DecidableEq ι]

/-- A call takes effect in an operation of its thread. -/
lemma effect_step (hj : j < n) (ho : TakesEffect hist chains n j o) :
    Config.StepBy Exec o.1 (c j) (c (j + 1)) := by
  obtain ⟨rec, hrec, -, -, ⟨x, hx, hxj, hxj'⟩ | ⟨r, hret, -⟩⟩ := ho
  · have hown := (h.fresh o.1 rec (List.mem_of_getElem? hrec) x hx).1
    obtain ⟨j', hjj', hj', -, -, hstep⟩ := h.exists_link (Nat.le_succ j) hj hown hxj hxj'
    obtain rfl : j' = j := by omega
    exact hstep
  · exact h.last_step o.1 rec (List.mem_of_getElem? hrec) _ r hret

/-- **Every effect is a step of the sequential list.** -/
theorem effect_seqStep (hj : j < n) (ho : TakesEffect hist chains n j o) :
    SeqStep hist (Request.Seq L) o (chains j 0) (chains (j + 1) 0) := by
  have hstep := h.effect_step hj ho
  obtain ⟨rec, hrec, hinv, hfin, heff⟩ := ho
  have hmem : rec ∈ hist o.1 := List.mem_of_getElem? hrec
  have hgrow := h.call o.1 rec hmem j hinv hfin hstep
  rcases heff with ⟨x, hx, hxj, hxj'⟩ | ⟨r, hret, hfalse⟩
  · -- the node is linked, so the call returns `true` if it returns
    rw [hx] at hgrow
    obtain ⟨hdup, heq⟩ := h.chain_insert hj hgrow hxj hxj'
    refine ⟨rec, .flag true, hrec, fun e r hret => ?_,
      (Request.seq_of_node hx).mpr (Or.inr ⟨hdup, rfl, heq⟩)⟩
    have hfe : rec.finish n = e := by rw [CallRecord.finish, hret]; rfl
    have hen := (h.bounds o.1 rec hmem).2
    obtain ⟨b, rfl, hins⟩ := (Request.outcome_of_node hx).mp (h.outcome o.1 rec hmem e r hret)
    cases b with
    | true => rfl
    | false =>
      rw [Inserted, if_neg Bool.false_ne_true] at hins
      exact absurd (h.mem_mono (by omega) (by omega) hxj') (hins.1 0)
  · -- the call returns and level `0` stays as it is
    have hout := h.outcome o.1 rec hmem _ r hret
    cases hq : rec.call.node with
    | none =>
      have heq := h.chain_eq hj hgrow fun x hx => absurd hx (by simp [hq])
      refine ⟨rec, r, hrec, fun e r' hret' => ?_, ?_⟩
      · rw [hret] at hret'
        cases hret'
        rfl
      · rw [Request.outcome_of_none hq] at hout
        rwa [heq] at hout ⊢
    | some x =>
      obtain rfl := hfalse x hq
      obtain ⟨b, hb, hins⟩ := (Request.outcome_of_node hq).mp hout
      cases hb
      rw [Inserted, if_neg Bool.false_ne_true] at hins
      rw [hq] at hgrow
      have heq := h.chain_eq hj hgrow fun y hy hmemy =>
        absurd (Option.some.inj hy ▸ hmemy) (hins.1 0)
      refine ⟨rec, .flag false, hrec, fun e r' hret' => ?_,
        (Request.seq_of_node hq).mpr (Or.inl ⟨?_, rfl, heq⟩)⟩
      · rw [hret] at hret'
        cases hret'
        rfl
      · obtain ⟨y, hy, he⟩ := hins.2
        exact ⟨y, heq ▸ hy, he⟩

/-- A call takes effect once. -/
lemma effect_once {j' : ℕ} (hj : j < n) (hj' : j' < n) (ho : TakesEffect hist chains n j o)
    (ho' : TakesEffect hist chains n j' o) : j = j' := by
  -- of two effects of one call, none comes after the other
  suffices hle : ∀ {j j' : ℕ}, j' < n → TakesEffect hist chains n j o →
      TakesEffect hist chains n j' o → ¬j < j' from
    le_antisymm (not_lt.mp (hle hj ho' ho)) (not_lt.mp (hle hj' ho ho'))
  rintro j j' hj' ⟨rec, hrec, -, hfin, heff⟩ ⟨rec', hrec', -, hfin', heff'⟩ hlt
  obtain rfl : rec = rec' := Option.some.inj (hrec.symm.trans hrec')
  rcases heff with ⟨x, hx, hxj, hxj'⟩ | ⟨r, hret, -⟩
  · rcases heff' with ⟨x', hx', hx'j, -⟩ | ⟨r, hret, hfalse⟩
    · obtain rfl : x = x' := Option.some.inj (hx.symm.trans hx')
      exact hx'j (h.mem_mono hlt hj'.le hxj')
    · obtain ⟨b, hb, hins⟩ := (Request.outcome_of_node hx).mp
        (h.outcome o.1 rec (List.mem_of_getElem? hrec) _ r hret)
      rw [hfalse x hx] at hb
      cases hb
      rw [Inserted, if_neg Bool.false_ne_true] at hins
      exact hins.1 0 (h.mem_mono (by omega) hj' hxj')
  · rw [CallRecord.finish, hret] at hfin'
    exact absurd (show j' < j + 1 from hfin') (by omega)

/-- A call that has returned has taken effect. -/
lemma effect_exists {rec : CallRecord (Request Key Node ι) (Reply Node)}
    (hrec : recordAt hist o = some rec) (hret : rec.ret.isSome) :
    ∃ j < n, TakesEffect hist chains n j o := by
  obtain ⟨⟨e, r⟩, hret⟩ := Option.isSome_iff_exists.mp hret
  have hmem : rec ∈ hist o.1 := List.mem_of_getElem? hrec
  obtain ⟨hlt, hle⟩ := h.bounds o.1 rec hmem
  have hfe : rec.finish n = e := by rw [CallRecord.finish, hret]; rfl
  have hout := h.outcome o.1 rec hmem e r hret
  obtain ⟨e, rfl⟩ : ∃ e', e = e' + 1 := ⟨e - 1, by omega⟩
  by_cases hfalse : ∀ x, rec.call.node = some x → r = .flag false
  · exact ⟨e, by omega, rec, hrec, by omega, by omega, Or.inr ⟨r, hret, hfalse⟩⟩
  · push Not at hfalse
    obtain ⟨x, hx, hr⟩ := hfalse
    obtain ⟨b, rfl, hins⟩ := (Request.outcome_of_node hx).mp hout
    cases b with
    | false => exact absurd rfl hr
    | true =>
      -- the node is linked now and was not when the call began
      obtain ⟨hown, hheight, hfresh⟩ := h.fresh o.1 rec hmem x hx
      rw [Inserted, if_pos rfl] at hins
      obtain ⟨j, hij, hje, hxj, hxj', -⟩ := h.exists_link (by omega) (by omega) hown hfresh
        ((hins 0).mpr hheight)
      exact ⟨j, by omega, rec, hrec, hij, by omega, Or.inl ⟨x, hx, hxj, hxj'⟩⟩

/-- A step in which no call takes effect leaves level `0` as it is. -/
lemma chain_eq_of_no_effect (hj : j < n) (hnone : ∀ o, ¬TakesEffect hist chains n j o) :
    chains (j + 1) 0 = chains j 0 := by
  obtain ⟨t, ht⟩ := h.isRun j hj
  obtain ⟨k, rec, hrec, hinv, hfin⟩ := h.exists_record t j hj ht
  refine h.chain_eq hj (h.call t rec (List.mem_of_getElem? hrec) j hinv hfin ht) fun x hx hmem => ?_
  by_contra hxj
  exact hnone (t, k) ⟨rec, hrec, hinv, hfin, Or.inl ⟨x, hx, hxj, hmem⟩⟩

end Observed

section Linearizable

variable {kBranching : ℕ} {env : T → Surroundings Node} {rounds : T → ℕ}
  {splices : T → ι → Splice Node}

/-- The runs of well-behaved clients are observed as `Observed` says. -/
theorem exists_observed {chain₀ : ℕ → List Node} (hk : L.kMaxHeight < kMaxPossibleHeight)
    (hown : ∀ t u x, own t x → own u x → t = u)
    (hclient : ∀ t, L.WellBehaved (own t) (client t)) (hS₀ : L.Shape (c 0).mem chain₀)
    (hfresh : ∀ t x, own t x → ∀ i, x ∉ chain₀ i)
    (hsplices : ∀ t i, L.SpliceInv (c 0).mem chain₀ (splices t i) ∧
      L.kMaxHeight < (splices t i).size)
    (hprog : ∀ t, (c 0).prog t = session (Request.prog L kBranching (env t)) (client t) (rounds t)
      (splices t) [])
    (hrun : Config.IsRun Exec c n) :
    (∀ j ≤ n, ∀ t, (c j).prog t ≠ .fault) ∧
    ∃ (hist : T → List (CallRecord (Request Key Node ι) (Reply Node))) (chains : ℕ → ℕ → List Node),
      (∀ t, IsHistory Exec (Request.prog L kBranching (env t)) (client t) c n t 0 (rounds t)
        (splices t) [] (hist t)) ∧ L.Observed own c n hist chains := by
  have hother : ∀ t x, own t x → ¬others own t x := by
    rintro t x hx ⟨u, hut, hu⟩
    exact hut (hown u t x hu hx)
  obtain ⟨hall, hist, hhist⟩ := exists_histories (fun t => Request.prog L kBranching (env t)) client
    L.Valid (fun t => L.Grows (others own t)) (fun t => L.Grows (own t))
    (fun t q s => ∀ x, q.node = some x → own t x ∧ L.Insertable x ∧
      ∀ chain, L.Shape s chain → x ∉ chain 0)
    (fun _ q => L.Grows fun x => q.node = some x)
    (fun _ q r s => ∃ chain, L.Shape s chain ∧ q.Outcome L r chain)
    (fun t => L.Between (client t) (own t))
    (fun t => Grows.refl _) (fun t _ _ _ => Grows.trans)
    (fun t u hut s s' _ hG => hG.mono fun x hx => ⟨t, hut.symm, hx⟩)
    (fun t replies q l s hq hb => hb.prog_safe hk kBranching (env t) (hclient t) (hother t) hq)
    (fun t replies q l s hq hb x hx => by
      obtain ⟨hxo, hins, hused⟩ := (hclient t).node replies q x hq hx
      obtain ⟨chain, hS, hfr, -⟩ := hb
      exact ⟨hxo, hins, fun chain' hS' => hS.unique hS' ▸ hfr x hxo hused 0⟩)
    (fun t replies q hq s s' hG => hG.mono fun x hx => ((hclient t).node replies q x hq hx).1)
    (fun t replies l s s' hb hR => hb.stable (hother t) hR)
    (fun t => Request.prog_ne_done L kBranching (env t)) hprog ⟨chain₀, hS₀⟩
    (fun t => ⟨chain₀, hS₀, fun x hx _ => hfresh t x hx,
      fun it m hit => absurd hit List.not_mem_nil,
      hsplices t⟩) hrun
  have hchains : ∀ j, ∃ chain, j ≤ n → L.Shape (c j).mem chain := by
    intro j
    by_cases hj : j ≤ n
    · obtain ⟨chain, hS⟩ := (hall j hj).1
      exact ⟨chain, fun _ => hS⟩
    · exact ⟨chain₀, fun h => absurd h hj⟩
  choose chains hshape using hchains
  refine ⟨fun j hj => (hall j hj).2.1, hist, chains, fun t => (hhist t).1, hrun, hown, hshape,
    fun j hj t hstep => (hall j hj.le).2.2 t hj hstep,
    fun t rec hrec => ((hhist t).2.1 rec hrec).2.1,
    fun t rec hrec x hx => ?_, fun t rec hrec e r hret => ?_,
    fun t rec hrec => ((hhist t).1.bounds hrec).2, fun t rec hrec e r hret =>
      (hhist t).1.last_step hrec hret,
    fun t j hj hstep => (hhist t).1.exists_record (Nat.zero_le j) hj hstep⟩
  · obtain ⟨hxo, hins, hnot⟩ := ((hhist t).2.1 rec hrec).1 x hx
    have hinv := ((hhist t).1.bounds hrec).2
    exact ⟨hxo, hins.height_pos, hnot _ (hshape rec.inv (by omega))⟩
  · obtain ⟨chain, hS, hout⟩ := ((hhist t).2.1 rec hrec).2.2 e r hret
    have hfe : rec.finish n = e := by rw [CallRecord.finish, hret]; rfl
    have hle := ((hhist t).1.bounds hrec).2.2
    rwa [hS.unique (hshape e (by omega))] at hout

/-- The calls of well-behaved clients that start from an empty list are linearizable. -/
theorem exists_linearization (hpos : 0 < L.kMaxHeight) (hk : L.kMaxHeight < kMaxPossibleHeight)
    (hown : ∀ t u x, own t x → own u x → t = u)
    (hclient : ∀ t, L.WellBehaved (own t) (client t)) (hS₀ : L.Shape (c 0).mem fun _ => [])
    (hsplices : ∀ t i, L.SpliceInv (c 0).mem (fun _ => []) (splices t i) ∧
      L.kMaxHeight < (splices t i).size)
    (hprog : ∀ t, (c 0).prog t = session (Request.prog L kBranching (env t)) (client t) (rounds t)
      (splices t) [])
    (hrun : Config.IsRun Exec c n) :
    (∀ j ≤ n, (∃ chain, L.Shape (c j).mem chain) ∧ ∀ t, (c j).prog t ≠ .fault) ∧
    ∃ hist : T → List (CallRecord (Request Key Node ι) (Reply Node)),
      (∀ t, IsHistory Exec (Request.prog L kBranching (env t)) (client t) c n t 0 (rounds t)
        (splices t) [] (hist t)) ∧
      ∃ order l, Linearizes hist (Request.Seq L) [] l order ∧ L.LevelChain (c n).mem 0 l := by
  obtain ⟨hfault, hist, chains, hhist, hobs⟩ := exists_observed hk hown hclient hS₀
    (fun t x _ i => List.not_mem_nil) hsplices hprog hrun
  refine ⟨fun j hj => ⟨⟨_, hobs.shape j hj⟩, hfault j hj⟩, hist, hhist, ?_⟩
  obtain ⟨order, horder⟩ := exists_linearizes (Request.Seq L) (fun j => chains j 0)
    (TakesEffect hist chains n) hhist
    (fun j hj o ho => by
      have hstep := hobs.effect_step hj ho
      obtain ⟨rec, hrec, hinv, hfin, -⟩ := ho
      exact ⟨rec, hrec, hinv, hfin, hstep⟩)
    (fun j hj j' hj' o => hobs.effect_once hj hj')
    (fun o rec => hobs.effect_exists) (fun j hj o => hobs.effect_seqStep hj)
    (fun j hj => hobs.chain_eq_of_no_effect hj)
  have hzero : chains 0 0 = [] := by rw [(hobs.shape 0 (Nat.zero_le n)).unique hS₀]
  rw [hzero] at horder
  exact ⟨order, _, horder, (hobs.shape n le_rfl).linked 0 hpos⟩

/-- **The concurrent skip list is linearizable.**  Any number of threads use a newly constructed
list through the public interface: each inserts nodes of its own, `Insert<true>` through splices of
its own that it uses again and again, with or without `allow_partial_splice_fix`, or
`InsertConcurrently`, and each searches and iterates as it likes.  At every point of every run the
memory is a skip list and no assertion is violated, and there is one order of the calls, compatible
with real time, in which a sorted list that executes them one after another gives the same replies
and ends up with the nodes of level `0`; what `EstimateCount` replies is left open. -/
theorem clients_linearizable (hpos : 0 < L.kMaxHeight) (hk : L.kMaxHeight < kMaxPossibleHeight)
    (raw : Node → ℕ → Option Node) (prev : T → ι → ℕ → Node) (next : T → ι → ℕ → Option Node)
    (own : T → Node → Prop) (hown : ∀ t u x, own t x → own u x → t = u)
    (hclient : ∀ t, L.WellBehaved (own t) (client t)) (hmem : (c 0).mem = L.construct raw)
    (hprog : ∀ t, (c 0).prog t = session (Request.prog L kBranching (env t)) (client t) (rounds t)
      (fun i => L.allocateSplice (prev t i) (next t i)) [])
    (hrun : Config.IsRun Exec c n) :
    (∀ j ≤ n, L.WellFormed (c j).mem ∧ ∀ t, (c j).prog t ≠ .fault) ∧
    ∃ hist : T → List (CallRecord (Request Key Node ι) (Reply Node)),
      (∀ t, IsHistory Exec (Request.prog L kBranching (env t)) (client t) c n t 0 (rounds t)
        (fun i => L.allocateSplice (prev t i) (next t i)) [] (hist t)) ∧
      ∃ order l, Linearizes hist (Request.Seq L) [] l order ∧ L.LevelChain (c n).mem 0 l := by
  have hS₀ : L.Shape (c 0).mem fun _ => [] := hmem ▸ Shape.construct raw hpos
  obtain ⟨hsafe, hlin⟩ := exists_linearization hpos hk hown hclient hS₀
    (fun t i => ⟨Or.inl rfl, Nat.lt_succ_self L.kMaxHeight⟩) hprog hrun
  refine ⟨fun j hj => ?_, hlin⟩
  obtain ⟨⟨chain, hS⟩, hfault⟩ := hsafe j hj
  exact ⟨hS.wellFormed, hfault⟩

end Linearizable

end Runs

/-! ## Two clients of a list of integers -/

omit [DecidableEq Node] [DecidableEq ι] in
/-- A client that makes the calls of a list, whatever the replies, is well-behaved if it inserts
distinct nodes of its own and moves no iterators. -/
lemma WellBehaved.of_list {own : Node → Prop} {calls : List (Request Key Node ι)}
    (hnode : ∀ q ∈ calls, ∀ x, q.node = some x → own x ∧ L.Insertable x)
    (hnodup : (calls.filterMap Request.node).Nodup) (hit : ∀ q ∈ calls, q.iterator = none) :
    L.WellBehaved own fun replies => calls[replies.length]? where
  node replies q x hq hx := by
    obtain ⟨hh₁, hh₂⟩ := hnode q (List.mem_of_getElem? hq) x hx
    refine ⟨hh₁, hh₂, ?_⟩
    rintro ⟨k, hk, q', hq', hx'⟩
    dsimp only at hq hq'
    rw [List.length_take, min_eq_left hk.le] at hq'
    obtain ⟨hlt, rfl⟩ := List.getElem?_eq_some_iff.mp hq
    obtain ⟨hlt', rfl⟩ := List.getElem?_eq_some_iff.mp hq'
    exact List.pairwise_iff_getElem.mp (List.pairwise_filterMap.mp hnodup) k replies.length hlt' hlt
      hk x hx' x hx rfl
  iterator replies q it hq hit' := by
    rw [hit q (List.mem_of_getElem? hq)] at hit'
    exact nomatch hit'

/-- One client inserts twice through the same splice, the other one inserts an equal key and
reads. -/
def twoClients (t : Bool) : List (Request ℤ ℕ Unit) :=
  if t then [.insert 4 () true, .insert 3 () true]
  else [.insertConcurrently 5, .contains 1, .seekToFirst]

/-- The nodes that the two clients insert. -/
def twoClientsOwn (t : Bool) (x : ℕ) : Prop := x ∈ (twoClients t).filterMap Request.node

lemma twoClients_wellBehaved (t : Bool) :
    integers.WellBehaved (twoClientsOwn t) fun replies => (twoClients t)[replies.length]? := by
  have hins : ∀ x ∈ [4, 3, 5], x ≠ integers.head ∧ 1 ≤ integers.unstashHeight x ∧
      integers.unstashHeight x ≤ integers.kMaxHeight := by decide
  have hnodes : ∀ t, ∀ x ∈ (twoClients t).filterMap Request.node, x ∈ [4, 3, 5] := by decide
  refine .of_list (fun q hq x hx => ?_) ?_ ?_
  · have hown : twoClientsOwn t x := List.mem_filterMap.mpr ⟨q, hq, hx⟩
    obtain ⟨h₁, h₂, h₃⟩ := hins x (hnodes t x hown)
    exact ⟨hown, h₁, h₂, h₃⟩
  · cases t <;> decide
  · cases t <;> simp [twoClients, Request.iterator]

lemma twoClients_disjoint (t u : Bool) (x : ℕ) (ht : twoClientsOwn t x) (hu : twoClientsOwn u x) :
    t = u := by
  have h : ∀ t u, ∀ x ∈ (twoClients t).filterMap Request.node,
      x ∈ (twoClients u).filterMap Request.node → t = u := by decide
  exact h t u x ht hu

/-- The two clients by turns, until both have made all their calls. -/
def twoClientsRun : ℕ → Config Bool (LinkOp ℕ) LinkOp.Ret (fun _ => List (Reply ℕ)) (Links ℕ) :=
  Config.follow execLinks (fun j => decide (j % 2 = 0 ∨ 21 < j))
    ⟨fun t => session (Request.prog integers 4 ⟨20, fun _ _ => 7, fun _ _ => some 9⟩)
      (fun replies => (twoClients t)[replies.length]?) 4
      (fun _ => integers.allocateSplice (fun _ => 6) fun _ => some 1) [],
      integers.construct fun _ _ => some 8⟩

/-- `clients_linearizable` for the two clients. -/
theorem twoClients_linearizable : integers.WellFormed (twoClientsRun 25).mem ∧
    ∃ (hist : Bool → List (CallRecord (Request ℤ ℕ Unit) (Reply ℕ))) (order : List (Bool × ℕ))
      (l : List ℕ), Linearizes hist (Request.Seq integers) [] l order ∧
        integers.LevelChain (twoClientsRun 25).mem 0 l := by
  have hrun : Config.IsRun Exec twoClientsRun 25 :=
    Config.isRun_follow execLinks exec_execLinks (by decide)
  obtain ⟨hwf, hist, -, order, l, hlin, hl⟩ := clients_linearizable (L := integers) (by decide)
    (by decide) (fun _ _ => some 8) (fun _ _ _ => 6) (fun _ _ _ => some 1) twoClientsOwn
    twoClients_disjoint twoClients_wellBehaved rfl (fun _ => rfl) hrun
  exact ⟨(hwf 25 le_rfl).1, hist, order, l, hlin, hl⟩

end InlineSkipList

end PmemKv
