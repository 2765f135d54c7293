import PmemKv.SkipList.Accesses
import PmemKv.SkipList.NodeSimulation

/-!
# Runs over the bytes of nodes

Threads that use a list access one memory of bytes, in which the nodes lie.  `ExecBytes` performs
the atomic operations of the list's functions there, as the member functions of `Node` do.  Whatever
the threads do to each other, such a run is a run over the links: every access stays inside the
block of the node that it is about, no link is read before it was written, and nothing but links
changes.
-/

namespace PmemKv

open AtomicProg AtomicProg.Prog PersistentMemory

/-- The memory that a list is in: the bytes, and `max_height_`. -/
structure ListMemory where
  /-- The bytes of the nodes. -/
  bytes : Memory
  /-- `max_height_`. -/
  maxHeight : ℕ

/-- The operation is performed by a member function of `Node`. -/
def PerformedOnBytes (o : LinkOp ℕ) (s : ListMemory) (r : o.Ret) (s' : ListMemory) : Prop :=
  ∃ (op : NodeOp) (a : Answer), op.Performs a o r ∧ run execMem op.prog s.bytes = .done a s'.bytes ∧
    s'.maxHeight = s.maxHeight

/-- The operations of a call that runs next to others, on bytes. -/
def ExecBytes : (o : LinkOp ℕ) → ListMemory → o.Ret → ListMemory → Prop
  | .next n level, s, r, s' => PerformedOnBytes (.next n level) s r s'
  | .setNext n level x, s, r, s' => PerformedOnBytes (.setNext n level x) s r s'
  | .casNext n level expected x, s, r, s' => PerformedOnBytes (.casNext n level expected x) s r s'
  | .loadMaxHeight, s, r, s' => r = s.maxHeight ∧ s' = s
  | .casMaxHeight expected desired, s, r, s' =>
    (s.maxHeight = expected ∧ r = (true, expected) ∧ s' = { s with maxHeight := desired }) ∨
      (r = (false, s.maxHeight) ∧ s' = s)

/-- The links that the bytes hold. -/
def ListMemory.links (s : ListMemory) : Links ℕ where
  next n level := pointer (s.bytes.word (Node.linkAddr n level))
  maxHeight := s.maxHeight

lemma ListMemory.links_next (s : ListMemory) (n level : ℕ) :
    s.links.next n level = pointer (s.bytes.word (Node.linkAddr n level)) := by
  rw [ListMemory.links]

/-- The byte belongs to no link of a node. -/
def OutsideLinks (blocks : List NodeBlock) (a : ℕ) : Prop :=
  ∀ b ∈ blocks, ∀ i < b.height,
    a < Node.linkAddr b.node i ∨ Node.linkAddr b.node i + 8 ≤ a

/-- Every access to memory that the operation makes is inside the block of its node. -/
def StaysInNodes (blocks : List NodeBlock) (o : LinkOp ℕ) (m : Memory) : Prop :=
  ∀ (op : NodeOp) (a : Answer) (r : o.Ret), op.Performs a o r → ∀ e ∈ trace execMem op.prog m,
    ∃ b ∈ blocks, b.node ∈ op.nodes ∧ e.Within b.raw b.last

/-- The link that an operation reads. -/
def LinkOp.reads {Node : Type} : LinkOp Node → Option (Node × ℕ)
  | .next n level => some (n, level)
  | .casNext n level _ _ => some (n, level)
  | _ => none

/-- The pointers of the operation are not the null address. -/
def LinkOp.isProper : LinkOp ℕ → Bool
  | .setNext _ _ x => x ≠ some 0
  | .casNext _ _ expected x => expected ≠ some 0 && x ≠ some 0
  | _ => true

/-! ## The single operations -/

namespace Represents

open NodeOp

variable {kMaxHeight n i : ℕ} {m m' : Memory} {A : Nodes} {op : NodeOp} {a : Answer}
  {expected x : Option ℕ}

/-- A link is read. -/
lemma performed_next {r : Option ℕ} (h : Represents kMaxHeight m A) (hlink : HasLink A.blocks n i)
    (hop : op.Performs a (.next n i) r) (hrun : run execMem op.prog m = .done a m') :
    m' = m ∧ r = pointer (A.link n i) := by
  have hnext := (h.refines_next hlink).run_eq
  cases hop with
  | next _ _ p =>
    rw [hnext] at hrun
    cases hrun
    exact ⟨rfl, rfl⟩
  | noBarrierNext _ _ p =>
    rw [show run execMem (NodeOp.noBarrierNext n i).prog m = _ from hnext] at hrun
    cases hrun
    exact ⟨rfl, rfl⟩

/-- A link is written. -/
lemma performed_setNext {r : Unit} (hop : op.Performs a (.setNext n i x) r)
    (hrun : run execMem op.prog m = .done a m') :
    ∃ p, pointer p = x ∧ m' = m.store (Node.linkAddr n i) (le64 p) := by
  cases hop with
  | setNext _ _ p =>
    cases hrun
    exact ⟨p, rfl, rfl⟩
  | noBarrierSetNext _ _ p =>
    cases hrun
    exact ⟨p, rfl, rfl⟩

/-- A link is exchanged, or it is not the expected one. -/
lemma performed_casNext {r : Bool} (h : Represents kMaxHeight m A) (hlink : HasLink A.blocks n i)
    (hop : op.Performs a (.casNext n i expected x) r) (hrun : run execMem op.prog m = .done a m') :
    ∃ e p, pointer e = expected ∧ pointer p = x ∧
      ((A.link n i = e ∧ r = true ∧ m' = m.store (Node.linkAddr n i) (le64 p)) ∨
        (A.link n i ≠ e ∧ r = false ∧ m' = m)) := by
  obtain ⟨b, hb, rfl, hn⟩ := hlink
  have hword := h.link b hb i hn
  cases hop with
  | casNext _ _ e p success =>
    refine ⟨e, p, rfl, rfl, ?_⟩
    by_cases he : A.link b.node i = e
    · have hcas := MemProg.run_compareExchange_of_eq (hword.trans he) p
      rw [show run execMem (NodeOp.casNext b.node i e p).prog m = _ from run_bind_of hcas] at hrun
      cases hrun
      exact Or.inl ⟨he, rfl, rfl⟩
    · have hcas := MemProg.run_compareExchange_of_ne (fun hw => he (hword.symm.trans hw)) p
      rw [show run execMem (NodeOp.casNext b.node i e p).prog m = _ from run_bind_of hcas] at hrun
      cases hrun
      exact Or.inr ⟨he, rfl, rfl⟩

end Represents

/-! ## Bytes and links next to each other -/

namespace InlineSkipList

variable {Key DecodedKey : Type} {L : InlineSkipList Key DecodedKey ℕ} {A₀ A : Nodes}
  {m₀ m : Memory}
  {w : ℕ → ℕ → Prop} {s s' : ListMemory} {u : Nodes × ℕ} {n i p : ℕ} {x : Option ℕ}

/-- The operations on the links, where the nodes are known by their records. -/
def ExecNodes (o : LinkOp ℕ) (u : Nodes × ℕ) (r : o.Ret) (u' : Nodes × ℕ) : Prop :=
  Exec o (u.1.links u.2) r (u'.1.links u'.2)

/-- When the links `w` have been written, the bytes hold the records: the written links belong to
nodes and point to written links, and all bytes besides links are as they were. -/
structure BytesHold (L : InlineSkipList Key DecodedKey ℕ) (A₀ : Nodes) (m₀ : Memory)
    (w : ℕ → ℕ → Prop) (s : ListMemory) (u : Nodes × ℕ) : Prop where
  /-- The bytes hold the records. -/
  represents : Represents L.kMaxHeight s.bytes u.1
  /-- `max_height_` is the same. -/
  maxHeight : s.maxHeight = u.2
  /-- `max_height_` is admissible. -/
  height : L.IsHeight s.maxHeight
  /-- The nodes stay. -/
  blocks : u.1.blocks = A₀.blocks
  /-- A written link belongs to a node. -/
  hasLink : ∀ n i, w n i → NodeOp.HasLink A₀.blocks n i
  /-- A written link points to written links. -/
  points : ∀ n i, w n i → PointsTo w i (pointer (u.1.link n i))
  /-- The bytes besides links are as they were. -/
  frame : ∀ a, OutsideLinks A₀.blocks a → s.bytes a = m₀ a

namespace BytesHold

/-- A pointer to a written link is a word. -/
lemma pointer_lt (h : L.BytesHold A₀ m₀ w s u) (hp : PointsTo w i (pointer p)) : p < 2 ^ 64 := by
  by_cases hzero : p = 0
  · rw [hzero]
    exact Nat.two_pow_pos 64
  · obtain ⟨b, hb, rfl, -⟩ := h.hasLink p i (hp p (if_neg hzero) i le_rfl)
    exact (h.represents.valid b (h.blocks ▸ hb)).node_lt

/-- A link is written. -/
lemma setLink (h : L.BytesHold A₀ m₀ w s u) (hlink : NodeOp.HasLink A₀.blocks n i)
    (hp : PointsTo w i (pointer p)) (hbytes : s'.bytes = s.bytes.store (Node.linkAddr n i) (le64 p))
    (hmax : s'.maxHeight = s.maxHeight) :
    L.BytesHold A₀ m₀ (fun m j => w m j ∨ m = n ∧ j = i) s' (u.1.setLink n i p, u.2) := by
  have hlt := h.pointer_lt hp
  have hgrow : w ≤ fun m j => w m j ∨ m = n ∧ j = i := fun _ _ => Or.inl
  obtain ⟨b, hb, rfl, hn⟩ := id hlink
  refine ⟨?_, hmax.trans h.maxHeight, hmax ▸ h.height, h.blocks, ?_, ?_, fun a ha => ?_⟩
  · rw [hbytes]
    exact h.represents.setLink (h.blocks ▸ hb) hn hlt
  · rintro m j (hm | ⟨rfl, rfl⟩)
    · exact h.hasLink m j hm
    · exact hlink
  · rintro m j hm
    by_cases he : m = b.node ∧ j = i
    · rw [show (u.1.setLink b.node i p).link m j = p from if_pos he, he.2]
      exact hp.later hgrow
    · rw [show (u.1.setLink b.node i p).link m j = u.1.link m j from if_neg he]
      exact (h.points m j (hm.resolve_right he)).later hgrow
  · have hdisjoint := ha b hb i hn
    rw [hbytes, Memory.store_apply_of_disjoint (by rw [length_le64]; exact hdisjoint)]
    exact h.frame a ha

/-- **An allowed operation on bytes is one on links**, and it answers what it may. -/
theorem exec {o : LinkOp ℕ} {r : o.Ret} (h : L.BytesHold A₀ m₀ w s u)
    (hallowed : (L.linkPermissions (NodeOp.HasLink A₀.blocks)).allowed w o)
    (hex : ExecBytes o s r s') :
    ∃ w' u', (L.linkPermissions (NodeOp.HasLink A₀.blocks)).answers o w r w' ∧ ExecNodes o u r u' ∧
      L.BytesHold A₀ m₀ w' s' u' := by
  have hlink : ∀ n i, NodeOp.HasLink A₀.blocks n i → NodeOp.HasLink u.1.blocks n i := fun n i hn =>
    h.blocks ▸ hn
  cases o with
  | next n i =>
    obtain ⟨op, a, hop, hrun, hmax⟩ := hex
    obtain ⟨hbytes, rfl⟩ := h.represents.performed_next
      (hlink n i (h.hasLink n i hallowed)) hop hrun
    obtain rfl : s' = s := by
      cases s
      cases s'
      exact congrArg₂ ListMemory.mk hbytes hmax
    exact ⟨w, u, ⟨rfl, h.points n i hallowed⟩, ⟨rfl, rfl⟩, h⟩
  | setNext n i x =>
    obtain ⟨op, a, hop, hrun, hmax⟩ := hex
    obtain ⟨hn, hx⟩ := hallowed
    obtain ⟨p, rfl, hbytes⟩ := Represents.performed_setNext hop hrun
    have hn' : NodeOp.HasLink A₀.blocks n i := hn.elim id (h.hasLink n i)
    exact ⟨_, (u.1.setLink n i p, u.2), rfl, u.1.links_setLink n i p u.2,
      h.setLink hn' hx hbytes hmax⟩
  | casNext n i expected x =>
    obtain ⟨op, a, hop, hrun, hmax⟩ := hex
    obtain ⟨hn, -, hx⟩ := hallowed
    obtain ⟨e, p, rfl, rfl, ⟨he, rfl, hbytes⟩ | ⟨he, rfl, hbytes⟩⟩ :=
      h.represents.performed_casNext (hlink n i (h.hasLink n i hn)) hop hrun
    · refine ⟨w, (u.1.setLink n i p, u.2), rfl,
        Or.inl ⟨congrArg pointer he, rfl, u.1.links_setLink n i p u.2⟩, ?_⟩
      -- the link was written before
      have hsame : (fun m j => w m j ∨ m = n ∧ j = i) = w := by
        funext m j
        exact propext ⟨fun hm => hm.elim id fun hm => hm.1 ▸ hm.2 ▸ hn, Or.inl⟩
      exact hsame ▸ h.setLink (h.hasLink n i hn) hx hbytes hmax
    · obtain rfl : s' = s := by
        cases s
        cases s'
        exact congrArg₂ ListMemory.mk hbytes hmax
      exact ⟨w, u, rfl, Or.inr ⟨fun hp => he (pointer_injective hp), rfl, rfl⟩, h⟩
  | loadMaxHeight =>
    obtain ⟨rfl, rfl⟩ := hex
    exact ⟨w, u, ⟨rfl, h.height⟩, ⟨h.maxHeight, rfl⟩, h⟩
  | casMaxHeight expected desired =>
    obtain ⟨he, rfl, rfl⟩ | ⟨rfl, rfl⟩ := hex
    · exact ⟨w, (u.1, desired), ⟨rfl, fun hf => nomatch hf⟩, Or.inl ⟨h.maxHeight ▸ he, rfl, rfl⟩,
        h.represents, rfl, hallowed, h.blocks, h.hasLink, h.points, h.frame⟩
    · exact ⟨w, u, ⟨rfl, fun _ => h.height⟩, Or.inr ⟨by rw [h.maxHeight]; rfl, rfl⟩, h⟩

/-- An allowed operation stays inside the block of its node. -/
lemma staysInNodes {o : LinkOp ℕ} (h : L.BytesHold A₀ m₀ w s u) (hk : L.kMaxHeight < 2 ^ 16)
    (hallowed : (L.linkPermissions (NodeOp.HasLink A₀.blocks)).allowed w o) :
    StaysInNodes A₀.blocks o s.bytes := by
  have hlink : ∀ n i, w n i → NodeOp.HasLink u.1.blocks n i := fun n i hn =>
    h.blocks ▸ h.hasLink n i hn
  have hlink' : ∀ n i, NodeOp.HasLink A₀.blocks n i ∨ w n i → NodeOp.HasLink u.1.blocks n i :=
    fun n i hn => hn.elim (fun hn => h.blocks ▸ hn) (hlink n i)
  intro op a r hop
  suffices hadm : op.Admissible L.kMaxHeight u.1.blocks ∧ op.blocksAfter u.1.blocks = A₀.blocks by
    obtain ⟨r', m', A', hR⟩ := h.represents.refines hk hadm.1
    have hblocks : A'.blocks = A₀.blocks := hR.spec.blocks_eq.trans hadm.2
    exact hblocks ▸ hR.within
  cases hop with
  | next n i p => exact ⟨hlink n i hallowed, h.blocks⟩
  | noBarrierNext n i p => exact ⟨hlink n i hallowed, h.blocks⟩
  | setNext n i p => exact ⟨⟨hlink' n i hallowed.1, h.pointer_lt hallowed.2⟩, h.blocks⟩
  | noBarrierSetNext n i p => exact ⟨⟨hlink' n i hallowed.1, h.pointer_lt hallowed.2⟩, h.blocks⟩
  | casNext n i e p success =>
    exact ⟨⟨hlink n i hallowed.1, h.pointer_lt hallowed.2.2⟩, h.blocks⟩

end BytesHold

/-! ## Runs -/

/-- The memory of a newly constructed list whose nodes have been allocated: the nodes lie in the
bytes, the links of the head are null, and every other node still holds its height. -/
structure Laid (L : InlineSkipList Key DecodedKey ℕ) (A : Nodes) (s : ListMemory) : Prop where
  /-- The bytes hold the nodes. -/
  represents : Represents L.kMaxHeight s.bytes A
  /-- The head is a node with all links. -/
  head : ∃ b ∈ A.blocks, b.node = L.head ∧ b.height = L.kMaxHeight
  /-- The links of the head are null. -/
  cleared : ∀ i < L.kMaxHeight, A.link L.head i = 0
  /-- Every other node has as many links as the height that is stashed in it. -/
  stash : ∀ b ∈ A.blocks, b.node ≠ L.head →
    b.height = L.unstashHeight b.node ∧ A.stashed b.node = true
  /-- `max_height_` is `1`. -/
  maxHeight : s.maxHeight = 1

/-- A newly constructed list, where the links of the head have been written. -/
lemma Laid.bytesHold (h : L.Laid A s) (hpos : 0 < L.kMaxHeight) :
    L.BytesHold A s.bytes (fun n i => n = L.head ∧ i < L.kMaxHeight) s (A, 1) where
  represents := h.represents
  maxHeight := h.maxHeight
  height := by
    rw [h.maxHeight]
    exact ⟨le_rfl, hpos⟩
  blocks := rfl
  hasLink := by
    rintro n i ⟨rfl, hi⟩
    obtain ⟨b, hb, hnode, hheight⟩ := h.head
    exact ⟨b, hb, hnode, hheight ▸ hi⟩
  points := by
    rintro n i ⟨rfl, hi⟩
    rw [h.cleared i hi]
    exact pointsTo_none
  frame _ _ := rfl

/-- The key of a node is no part of a link. -/
lemma Laid.key_outsideLinks {b : NodeBlock} {k : ℕ} (h : L.Laid A s) (hb : b ∈ A.blocks)
    (hk : k < b.keySize) : OutsideLinks A.blocks (Node.key b.node + k) := by
  intro c hc i hi
  have hlink := NodeBlock.linkAddr_bounds hi
  have hdisjoint := h.represents.disjoint (k := 1) hc hb ((h.represents.valid c hc).link_inside hi)
    ((h.represents.valid b hb).key_inside hk)
    (by
      rintro rfl
      rw [Node.key]
      omega)
  omega

section Runs

variable {T ι : Type} [DecidableEq T] {α : T → Type}

/-- The link is one of the head, which the constructor has written, or a thread has written it
before the point `j`. -/
def WrittenBefore (L : InlineSkipList Key DecodedKey ℕ)
    (c : ℕ → Config T (LinkOp ℕ) LinkOp.Ret α ListMemory) (j n i : ℕ) : Prop :=
  n = L.head ∧ i < L.kMaxHeight ∨
    ∃ j' < j, ∃ t x k, (c j').prog t = .step (.setNext n i x) k ∧
      Config.StepBy ExecBytes t (c j') (c (j' + 1))

variable {c : ℕ → Config T (LinkOp ℕ) LinkOp.Ret α ListMemory} {n : ℕ}
  {Q : (t : T) → α t → (ℕ → ℕ → Prop) → Prop} {world : ℕ → ℕ → ℕ → Prop} {v : ℕ → Nodes × ℕ}

/-- The links that are written in the world of a run are those that have been written before. -/
lemma written_iff_of_refinement
    (h : Refinement (L.linkPermissions (NodeOp.HasLink A.blocks)) ExecBytes ExecNodes
      (L.BytesHold A m) Q c n world v)
    (hzero : world 0 = fun n i => n = L.head ∧ i < L.kMaxHeight) {j : ℕ} (hj : j ≤ n) (x i : ℕ) :
    world j x i ↔ L.WrittenBefore c j x i := by
  constructor
  · intro hw
    induction j with
    | zero =>
      rw [hzero] at hw
      exact Or.inl hw
    | succ j ih =>
      have hlater : world j x i → L.WrittenBefore c (j + 1) x i := fun hw =>
        (ih (by omega) hw).imp_right fun ⟨j', hj', hrest⟩ => ⟨j', by omega, hrest⟩
      obtain ⟨t, o, k, r, hprog, hstep, hanswers⟩ := h.answers j hj
      cases o with
      | next n i' => exact hlater (hanswers.1 ▸ hw)
      | casNext n i' e p => exact hlater ((show world (j + 1) = world j from hanswers) ▸ hw)
      | loadMaxHeight => exact hlater (hanswers.1 ▸ hw)
      | casMaxHeight e d => exact hlater (hanswers.1 ▸ hw)
      | setNext n i' p =>
        rw [show world (j + 1) = _ from hanswers] at hw
        rcases hw with hw | ⟨rfl, rfl⟩
        · exact hlater hw
        · exact Or.inr ⟨j, Nat.lt_succ_self j, t, p, k, hprog, hstep⟩
  · rintro (⟨rfl, hi⟩ | ⟨j', hj', t, p, k, hprog, hstep⟩)
    · exact h.le (Nat.zero_le j) hj _ i (hzero ▸ ⟨rfl, hi⟩)
    · obtain ⟨t', o, k', r, hprog', hstep', hanswers⟩ := h.answers j' (by omega)
      obtain rfl : t = t' := hstep.unique hstep'
      rw [hprog] at hprog'
      cases hprog'
      refine h.le (show j' + 1 ≤ j from hj') hj x i ?_
      rw [show world (j' + 1) = _ from hanswers]
      exact Or.inr ⟨rfl, rfl⟩

/-- The links of the nodes, as the bytes hold them. -/
structure SameLinks (blocks : List NodeBlock) (s : ListMemory) (u : Links ℕ) : Prop where
  /-- The links are the same. -/
  next : ∀ b ∈ blocks, ∀ i < b.height, u.next b.node i =
    pointer (s.bytes.word (Node.linkAddr b.node i))
  /-- `max_height_` is the same. -/
  maxHeight : u.maxHeight = s.maxHeight

/-- What is known about the bytes at a point of a run: only links have changed, a link that has been
written is null or leads to a node whose links up to the level have been written, and an operation
that a thread is about to perform stays inside its node and reads only what has been written. -/
structure BytesSafe (L : InlineSkipList Key DecodedKey ℕ) (blocks : List NodeBlock)
    (c : ℕ → Config T (LinkOp ℕ) LinkOp.Ret α ListMemory) (j : ℕ) : Prop where
  /-- Bytes besides links are as they were. -/
  frame : ∀ a, OutsideLinks blocks a → (c j).mem.bytes a = (c 0).mem.bytes a
  /-- The keys are as they were. -/
  key : ∀ b ∈ blocks, read (c j).mem.bytes (Node.key b.node) b.keySize =
    read (c 0).mem.bytes (Node.key b.node) b.keySize
  /-- The links that have been written belong to nodes. -/
  hasLink : ∀ x i, L.WrittenBefore c j x i → NodeOp.HasLink blocks x i
  /-- There are no dangling pointers. -/
  points : ∀ x i, L.WrittenBefore c j x i →
    PointsTo (L.WrittenBefore c j) i (pointer ((c j).mem.bytes.word (Node.linkAddr x i)))
  /-- Operations stay inside the block of their node. -/
  inside : ∀ t o k, (c j).prog t = .step o k → StaysInNodes blocks o (c j).mem.bytes
  /-- Nothing is read before it was written. -/
  reads : ∀ t o k x i, (c j).prog t = .step o k → o.reads = some (x, i) → L.WrittenBefore c j x i

/-- **Runs over bytes are runs over links**, for all programs that access links as they may. -/
theorem refines_of_accesses (hpos : 0 < L.kMaxHeight) (hk : L.kMaxHeight < 2 ^ 16)
    (hlaid : L.Laid A (c 0).mem)
    (hprog : ∀ t, L.Accesses (NodeOp.HasLink A.blocks) (Q t) ((c 0).prog t)
      fun n i => n = L.head ∧ i < L.kMaxHeight)
    (hrun : Config.IsRun ExecBytes c n) :
    (∀ j ≤ n, L.BytesSafe A.blocks c j) ∧
    ∃ u : ℕ → Links ℕ, u 0 = A.links 1 ∧ (∀ j ≤ n, SameLinks A.blocks (c j).mem (u j)) ∧
      ∀ j < n, ∀ t, Config.StepBy ExecBytes t (c j) (c (j + 1)) →
        Config.StepBy Exec t ⟨(c j).prog, u j⟩ ⟨(c (j + 1)).prog, u (j + 1)⟩ := by
  have hexec : ∀ w s u o r s', L.BytesHold A (c 0).mem.bytes w s u →
      (L.linkPermissions (NodeOp.HasLink A.blocks)).allowed w o → ExecBytes o s r s' →
      ∃ w' u', (L.linkPermissions (NodeOp.HasLink A.blocks)).answers o w r w' ∧
        ExecNodes o u r u' ∧ L.BytesHold A (c 0).mem.bytes w' s' u' :=
    fun w s u o r s' hrel hallowed hex => hrel.exec hallowed hex
  obtain ⟨world, v, hworld, hv, h⟩ := exists_refinement hexec (hlaid.bytesHold hpos) hprog hrun
  have hwritten : ∀ j ≤ n, world j = L.WrittenBefore c j := fun j hj =>
    funext₂ fun x i => propext (written_iff_of_refinement h hworld hj x i)
  refine ⟨fun j hj => ?_, fun j => (v j).1.links (v j).2, by simp only [hv], fun j hj => ?_, h.step⟩
  · have hrel := h.rel j hj
    refine ⟨hrel.frame, fun b hb => ?_, fun x i hx => ?_, fun x i hx => ?_, fun t o k hp => ?_,
      fun t o k x i hp ho => ?_⟩
    · rw [Memory.read_eq_map, Memory.read_eq_map]
      refine List.map_congr_left fun i hi => ?_
      exact hrel.frame _ (hlaid.key_outsideLinks hb (List.mem_range.mp hi))
    · exact hrel.hasLink x i ((hwritten j hj).symm ▸ hx)
    · rw [← hwritten j hj] at hx ⊢
      obtain ⟨b, hb, rfl, hi⟩ := hrel.hasLink x i hx
      rw [hrel.represents.link b (hrel.blocks ▸ hb) i hi]
      exact hrel.points _ i hx
    · exact hrel.staysInNodes hk (h.allowed hj hp)
    · have hallowed := h.allowed hj hp
      rw [← hwritten j hj]
      cases o with
      | next n i' =>
        cases ho
        exact hallowed
      | casNext n i' e p =>
        cases ho
        exact hallowed.1
      | setNext n i' p => cases ho
      | loadMaxHeight => cases ho
      | casMaxHeight e d => cases ho
  · have hrel := h.rel j hj
    refine ⟨fun b hb i hi => ?_, hrel.maxHeight.symm⟩
    rw [hrel.represents.link b (hrel.blocks ▸ hb) i hi]
    rfl

section Clients

variable [DecidableEq ι] {kBranching : ℕ} {env : T → Surroundings ℕ} {rounds : T → ℕ}
  {c : ℕ → Config T (LinkOp ℕ) LinkOp.Ret (fun _ => List (Reply ℕ)) ListMemory} {own : T → ℕ → Prop}

/-- **Memory safety without synchronization.**  Any number of threads use a newly constructed list
in memory of bytes as they like, `Insert<false>` next to other insertions and `TEST_Validate`
included; each inserts allocated nodes of its own.  Then, whether or not assertions hold, at every
point of every run only links have changed, no pointer dangles, every access stays inside the block
of its node and reads only links that have been written; and the run over the bytes is a run over
the links. -/
theorem unchecked_bytesSafe (hpos : 0 < L.kMaxHeight) (hk : L.kMaxHeight < 2 ^ 16)
    (hlaid : L.Laid A (c 0).mem)
    {client : T → List (Reply ℕ) → Option (UncheckedRequest Key ℕ ι)}
    (hclient : L.UsesOwnNodes (NodeOp.HasLink A.blocks) own client)
    (prev : T → ι → ℕ → ℕ) (next : T → ι → ℕ → Option ℕ)
    (hprog : ∀ t, (c 0).prog t = session (UncheckedRequest.prog L kBranching (env t)) (client t)
      (rounds t) (fun i => L.allocateSplice (prev t i) (next t i)) [])
    (hrun : Config.IsRun ExecBytes c n) :
    (∀ j ≤ n, L.BytesSafe A.blocks c j) ∧
    ∃ u : ℕ → Links ℕ, u 0 = A.links 1 ∧ (∀ j ≤ n, SameLinks A.blocks (c j).mem (u j)) ∧
      ∀ j < n, ∀ t, Config.StepBy ExecBytes t (c j) (c (j + 1)) →
        Config.StepBy Exec t ⟨(c j).prog, u j⟩ ⟨(c (j + 1)).prog, u (j + 1)⟩ := by
  refine refines_of_accesses (Q := fun _ _ _ => True) hpos hk hlaid (fun t => ?_) hrun
  rw [hprog t]
  refine session_permitted L.RepliesWritten (fun replies q splices w hq h => ?_)
    ⟨fun i hi => ⟨rfl, hi⟩, fun it hit => absurd hit List.not_mem_nil,
      fun i => SpliceWritten.of_height_eq_zero rfl⟩
  exact q.prog_accesses hpos h (fun x hx => (hclient.node t replies q x hq hx).2)
    fun it hit => hclient.iterator t replies q it hq hit

/-- A newly constructed list is empty. -/
lemma Laid.shape (h : L.Laid A s) (hpos : 0 < L.kMaxHeight) :
    L.Shape (A.links 1) fun _ => [] where
  linked i hi := congrArg pointer (h.cleared i hi)
  sorted _ := List.Pairwise.nil
  head_notMem _ := List.not_mem_nil
  nested _ _ hn := absurd hn List.not_mem_nil
  height _ _ hn := absurd hn List.not_mem_nil
  maxHeight_pos := Nat.one_pos
  maxHeight_le := hpos

/-- The links of a chain have been written. -/
lemma BytesSafe.chain_written {j a : ℕ} {u : Links ℕ} {l : List ℕ}
    (h : L.BytesSafe A.blocks c j) (hsame : SameLinks A.blocks (c j).mem u)
    (ha : L.WrittenBefore c j a i) (hl : LinkedChain.Linked (fun x => u.next x i) a l) :
    ∀ x ∈ a :: l, L.WrittenBefore c j x i := by
  induction l generalizing a with
  | nil => exact List.forall_mem_singleton.mpr ha
  | cons b l ih =>
    obtain ⟨hab, hl⟩ := hl
    obtain ⟨d, hd, rfl, hi⟩ := h.hasLink a i ha
    change u.next d.node i = some b at hab
    rw [hsame.next d hd i hi] at hab
    exact List.forall_mem_cons.mpr ⟨ha, ih (h.points _ i ha b hab i le_rfl) hl⟩

/-- A chain of links is one of the bytes. -/
lemma BytesSafe.levelChain {j : ℕ} {u : Links ℕ} {l : List ℕ} (h : L.BytesSafe A.blocks c j)
    (hsame : SameLinks A.blocks (c j).mem u) (hi : i < L.kMaxHeight) (hl : L.LevelChain u i l) :
    L.LevelChain (c j).mem.links i l := by
  refine LinkedChain.Linked.congr hl fun x hx => ?_
  obtain ⟨b, hb, rfl, hlt⟩ := h.hasLink x i (h.chain_written hsame (Or.inl ⟨rfl, hi⟩) hl x hx)
  rw [ListMemory.links_next, hsame.next b hb i hlt]

/-- Links that form a skip list do so in the bytes. -/
lemma BytesSafe.shape {j : ℕ} {u : Links ℕ} {chain : ℕ → List ℕ} (h : L.BytesSafe A.blocks c j)
    (hsame : SameLinks A.blocks (c j).mem u) (hS : L.Shape u chain) :
    L.Shape (c j).mem.links chain where
  linked i hi := h.levelChain hsame hi (hS.linked i hi)
  sorted := hS.sorted
  head_notMem := hS.head_notMem
  nested := hS.nested
  height i x hx := ⟨(hS.height i x hx).1, (hS.height i x hx).2.trans hsame.maxHeight.le⟩
  maxHeight_pos := hS.maxHeight_pos.trans_le hsame.maxHeight.le
  maxHeight_le := hsame.maxHeight.ge.trans hS.maxHeight_le

/-- **The skip list in memory of bytes is linearizable.**  Threads use a newly constructed list,
whose nodes have been allocated in one memory of bytes, through the public interface, and each
inserts nodes of its own.  At every point of every run the links that the bytes hold are those of a
skip list, no assertion is violated, only links have changed and every access stays inside the block
of its node; and one order of the calls, compatible with real time, gives the same replies, but for
the numbers of `EstimateCount`, in a sorted list and the same nodes as the links of level `0`. -/
theorem bytes_linearizable (hpos : 0 < L.kMaxHeight) (hk : L.kMaxHeight < kMaxPossibleHeight)
    (hlaid : L.Laid A (c 0).mem) (hown : ∀ t u x, own t x → own u x → t = u)
    (halloc : ∀ t x, own t x → ∃ b ∈ A.blocks, b.node = x)
    {client : T → List (Reply ℕ) → Option (Request Key ℕ ι)}
    (hclient : ∀ t, L.WellBehaved (own t) (client t))
    (prev : T → ι → ℕ → ℕ) (next : T → ι → ℕ → Option ℕ)
    (hprog : ∀ t, (c 0).prog t = session (Request.prog L kBranching (env t)) (client t) (rounds t)
      (fun i => L.allocateSplice (prev t i) (next t i)) [])
    (hrun : Config.IsRun ExecBytes c n) :
    (∀ j ≤ n, L.WellFormed (c j).mem.links ∧ (∀ t, (c j).prog t ≠ .fault) ∧
      L.BytesSafe A.blocks c j) ∧
    ∃ hist : T → List (CallRecord (Request Key ℕ ι) (Reply ℕ)),
      (∀ t, IsHistory ExecBytes (Request.prog L kBranching (env t)) (client t) c n t 0 (rounds t)
        (fun i => L.allocateSplice (prev t i) (next t i)) [] (hist t)) ∧
      ∃ order l, Linearizes hist (Request.Seq L) [] l order ∧
        L.LevelChain (c n).mem.links 0 l := by
  have haccesses : ∀ t, L.Accesses (NodeOp.HasLink A.blocks) (fun _ _ => True) ((c 0).prog t)
      fun n i => n = L.head ∧ i < L.kMaxHeight := by
    intro t
    rw [hprog t]
    refine session_permitted L.RepliesWritten (fun replies q splices w hq h => ?_)
      ⟨fun i hi => ⟨rfl, hi⟩, fun it hit => absurd hit List.not_mem_nil,
        fun i => SpliceWritten.of_height_eq_zero rfl⟩
    refine Request.prog_accesses hpos h (fun x hx i hi => ?_)
      fun it hit => ((hclient t).iterator replies q it hq hit).2
    obtain ⟨hx, hins, -⟩ := (hclient t).node replies q x hq hx
    obtain ⟨b, hb, rfl⟩ := halloc t x hx
    exact ⟨b, hb, rfl, (hlaid.stash b hb hins.ne_head).1 ▸ hi⟩
  obtain ⟨hbytes, u, hu, hsame, hstep⟩ := refines_of_accesses (Q := fun _ _ _ => True) hpos
    (hk.trans (by decide)) hlaid haccesses hrun
  have hrun' : Config.IsRun Exec (fun j => ⟨(c j).prog, u j⟩) n := fun j hj => by
    obtain ⟨t, ht⟩ := hrun j hj
    exact ⟨t, hstep j hj t ht⟩
  obtain ⟨hsafe, hist, hhist, order, l, hlin, hl⟩ := exists_linearization hpos hk hown hclient
    (c := fun j => ⟨(c j).prog, u j⟩) (hu ▸ hlaid.shape hpos)
    (fun t i => ⟨Or.inl rfl, Nat.lt_succ_self L.kMaxHeight⟩) hprog hrun'
  refine ⟨fun j hj => ?_, hist, fun t => ?_, order, l, hlin,
    (hbytes n le_rfl).levelChain (hsame n le_rfl) hpos hl⟩
  · obtain ⟨⟨chain, hS⟩, hfault⟩ := hsafe j hj
    exact ⟨((hbytes j hj).shape (hsame j hj) hS).wellFormed, hfault, hbytes j hj⟩
  · refine (hhist t).of_steps (fun _ => rfl) fun j hj ht => ?_
    -- the thread that moves on the bytes is the one that moves on the links
    obtain ⟨t', ht'⟩ := hrun j hj
    obtain rfl : t = t' := ht.unique (hstep j hj t' ht')
    exact ht'

end Clients

end Runs

/-! ## Two threads on a list of three nodes -/

/-- The operations on bytes, where the weak compare-exchange does not fail spuriously. -/
def execBytes : (o : LinkOp ℕ) → ListMemory → o.Ret × ListMemory
  | .next n level, s => (pointer (s.bytes.word (Node.linkAddr n level)), s)
  | .setNext n level x, s =>
    ((), { s with bytes := s.bytes.store (Node.linkAddr n level) (le64 (x.getD 0)) })
  | .casNext n level expected x, s =>
    if s.bytes.word (Node.linkAddr n level) = expected.getD 0 then
      (true, { s with bytes := s.bytes.store (Node.linkAddr n level) (le64 (x.getD 0)) })
    else (false, s)
  | .loadMaxHeight, s => (s.maxHeight, s)
  | .casMaxHeight expected desired, s =>
    if s.maxHeight = expected then ((true, expected), { s with maxHeight := desired })
    else ((false, s.maxHeight), s)

/-- A word that stands for a pointer. -/
lemma pointer_getD {x : Option ℕ} (h : x ≠ some 0) : pointer (x.getD 0) = x := by
  cases x with
  | none => rfl
  | some p => exact if_neg fun hp => h (congrArg some hp)

/-- A link is exchanged by a member function. -/
lemma run_casNext (m : Memory) (n i e p : ℕ) :
    run execMem (NodeOp.casNext n i e p).prog m =
      if m.word (Node.linkAddr n i) = e then
        .done (.bool true) (m.store (Node.linkAddr n i) (le64 p))
      else .done (.bool false) m := by
  split
  case isTrue he => exact run_bind_of (MemProg.run_compareExchange_of_eq he p)
  case isFalse he => exact run_bind_of (MemProg.run_compareExchange_of_ne he p)

/-- These are operations on bytes. -/
lemma exec_execBytes (o : LinkOp ℕ) (s : ListMemory) (h : o.isProper = true) :
    ExecBytes o s (execBytes o s).1 (execBytes o s).2 := by
  cases o with
  | next n i =>
    simp only [execBytes]
    exact ⟨.next n i, .pointer (s.bytes.word (Node.linkAddr n i)),
      .next n i (s.bytes.word (Node.linkAddr n i)), rfl, rfl⟩
  | setNext n i x =>
    have hx : pointer (x.getD 0) = x := pointer_getD (of_decide_eq_true h)
    have hperf := NodeOp.Performs.setNext n i (x.getD 0)
    rw [hx] at hperf
    exact ⟨.setNext n i (x.getD 0), .unit, hperf, rfl, rfl⟩
  | casNext n i e x =>
    obtain ⟨he, hx⟩ := Bool.and_eq_true_iff.mp h
    have he' := pointer_getD (of_decide_eq_true he)
    have hx' := pointer_getD (of_decide_eq_true hx)
    have hperf : ∀ b, (NodeOp.casNext n i (e.getD 0) (x.getD 0)).Performs (.bool b)
        (.casNext n i e x) b := fun b => by
      have := NodeOp.Performs.casNext n i (e.getD 0) (x.getD 0) b
      rwa [he', hx'] at this
    refine ⟨_, _, hperf _, ?_⟩
    rw [run_casNext, execBytes]
    split
    · exact ⟨rfl, rfl⟩
    · exact ⟨rfl, rfl⟩
  | loadMaxHeight => exact ⟨rfl, rfl⟩
  | casMaxHeight e d =>
    by_cases he : s.maxHeight = e
    · rw [execBytes, if_pos he]
      exact Or.inl ⟨he, rfl, rfl⟩
    · rw [execBytes, if_neg he]
      exact Or.inr ⟨rfl, rfl⟩

/-- Following a schedule on bytes is a run as long as the scheduled threads have something to do,
with pointers that are not the null address. -/
lemma isRun_followBytes {T : Type} [DecidableEq T] {α : T → Type} {sched : ℕ → T}
    {c : Config T (LinkOp ℕ) LinkOp.Ret α ListMemory} {n : ℕ}
    (h : ∀ j < n, Config.hasStep (fun o _ => o.isProper) (sched j)
      (Config.follow execBytes sched c j) = true) :
    Config.IsRun ExecBytes (Config.follow execBytes sched c) n :=
  Config.isRun_follow_of execBytes exec_execBytes h

/-- A head with three links, and nodes with one and two links. -/
def threeBlocks : List NodeBlock := [⟨64, 0, 3⟩, ⟨96, 4, 1⟩, ⟨128, 4, 2⟩]

/-- The list that these nodes are for. -/
def threeNodes : InlineSkipList ℤ ℤ ℕ where
  cmp := Comparator.int
  kMaxHeight := 3
  head := 80
  key n := n
  unstashHeight n := if n = 136 then 2 else 1

/-- The memory that they are in, with the stashed heights. -/
def threeNodesMemory : ListMemory :=
  ⟨(Memory.store (fun _ => 0) 96 (leBytes 4 1)).store 136 (leBytes 4 2), 1⟩

/-- The records of these nodes. -/
def threeRecords : Nodes where
  blocks := threeBlocks
  link n i := threeNodesMemory.bytes.word (Node.linkAddr n i)
  key n i := threeNodesMemory.bytes (Node.key n + i)
  stashed n := decide (n ≠ 80)

lemma threeNodes_laid : threeNodes.Laid threeRecords threeNodesMemory where
  represents := by
    refine ⟨?_, ?_, fun _ _ _ _ => rfl, fun _ _ _ _ => rfl, ?_⟩
    · change ∀ b ∈ threeBlocks, b.Valid 3
      decide
    · change threeBlocks.Pairwise NodeBlock.Apart
      decide
    · change ∀ b ∈ threeBlocks, decide (b.node ≠ 80) = true →
        leNat (read threeNodesMemory.bytes b.node 4) = b.height
      decide
  head := by
    change ∃ b ∈ threeBlocks, b.node = 80 ∧ b.height = 3
    decide
  cleared := by
    change ∀ i < 3, threeNodesMemory.bytes.word (Node.linkAddr 80 i) = 0
    decide
  stash := by
    change ∀ b ∈ threeBlocks, b.node ≠ 80 →
      b.height = (if b.node = 136 then 2 else 1) ∧ decide (b.node ≠ 80) = true
    decide
  maxHeight := rfl

/-- The nodes that each of two threads inserts. -/
def ownNode (t : Bool) (x : ℕ) : Prop := x = if t then 136 else 96

lemma ownNode_unique (t u : Bool) (x : ℕ) (ht : ownNode t x) (hu : ownNode u x) : t = u := by
  have h : ∀ t u : Bool, (if t then 136 else 96) = (if u then 136 else 96) → t = u := by decide
  exact h t u (ht.symm.trans hu)

/-- The calls of two threads that should not insert at the same time, and do. -/
def twoExclusive (t : Bool) : List (UncheckedRequest ℤ ℕ Unit) :=
  if t then [.insertExclusive 136 () false, .testValidate fun _ => some 5]
  else [.insertExclusive 96 () false]

/-- The two threads by turns, until both have made all their calls; one of the nodes gets lost. -/
def twoExclusiveRun :
    ℕ → Config Bool (LinkOp ℕ) LinkOp.Ret (fun _ => List (Reply ℕ)) ListMemory :=
  Config.follow execBytes (fun j => decide (j % 2 = 0 ∨ 9 < j))
    ⟨fun t => session (UncheckedRequest.prog threeNodes 4 ⟨9, fun _ _ => 7, fun _ _ => some 9⟩)
      (fun replies => (twoExclusive t)[replies.length]?) 3
      (fun _ => threeNodes.allocateSplice (fun _ => 6) fun _ => some 1) [], threeNodesMemory⟩

/-- The calls of two threads: each inserts one of the nodes, and one of them then looks for a
key. -/
def twoInserters (t : Bool) : List (Request ℤ ℕ Unit) :=
  if t then [.insertConcurrently 136] else [.insertConcurrently 96, .contains 136]

/-- The two threads by turns, until both have made all their calls. -/
def twoInsertersRun :
    ℕ → Config Bool (LinkOp ℕ) LinkOp.Ret (fun _ => List (Reply ℕ)) ListMemory :=
  Config.follow execBytes (fun j => decide (j % 2 = 0 ∧ j < 14 ∨ 14 < j))
    ⟨fun t => session (Request.prog threeNodes 4 ⟨9, fun _ _ => 7, fun _ _ => some 9⟩)
      (fun replies => (twoInserters t)[replies.length]?) 3
      (fun _ => threeNodes.allocateSplice (fun _ => 6) fun _ => some 1) [], threeNodesMemory⟩

/-- A node of the three that is inserted has as many links as its height. -/
lemma ownNode_hasLink (t : Bool) : ∀ i < threeNodes.unstashHeight (if t then 136 else 96),
    NodeOp.HasLink threeBlocks (if t then 136 else 96) i := by
  cases t <;> decide

/-- `unchecked_bytesSafe` for the two threads. -/
theorem twoExclusive_bytesSafe : threeNodes.BytesSafe threeBlocks twoExclusiveRun 20 ∧
    ∃ u : ℕ → Links ℕ, SameLinks threeBlocks (twoExclusiveRun 20).mem (u 20) := by
  have hrun : Config.IsRun ExecBytes twoExclusiveRun 20 := isRun_followBytes (by decide +kernel)
  have hnode : ∀ t, ∀ q ∈ twoExclusive t, ∀ x, q.node = some x → x = if t then 136 else 96 := by
    intro t q hq x hx
    cases t <;> simp [twoExclusive] at hq
    · subst hq
      exact (Option.some.inj hx).symm
    · rcases hq with rfl | rfl
      · exact (Option.some.inj hx).symm
      · cases hx
  have hclient : threeNodes.UsesOwnNodes (NodeOp.HasLink threeRecords.blocks) ownNode
      fun t replies => (twoExclusive t)[replies.length]? := by
    refine ⟨ownNode_unique, fun t replies q x hq hx => ?_,
      fun t replies q x hq hx k hk q' hq' => ?_,
      fun t replies q it hq hit => ?_⟩
    · obtain rfl := hnode t q (List.mem_of_getElem? hq) x hx
      exact ⟨rfl, ownNode_hasLink t⟩
    · -- only the second call comes after another one, and it inserts nothing
      obtain ⟨hlt, -⟩ := List.getElem?_eq_some_iff.mp hq
      have hlength : (twoExclusive t).length ≤ 2 := by cases t <;> decide
      obtain hone : replies.length = 1 := by omega
      rw [hone] at hq
      cases t with
      | false => cases hq
      | true =>
        cases hq
        cases hx
    · have hmem := List.mem_of_getElem? hq
      cases t <;> simp [twoExclusive] at hmem
      · subst hmem
        cases hit
      · rcases hmem with rfl | rfl
        · cases hit
        · cases hit
  obtain ⟨hsafe, u, -, hsame, -⟩ := unchecked_bytesSafe (L := threeNodes) (A := threeRecords)
    (c := twoExclusiveRun) (n := 20) (by decide) (by decide) threeNodes_laid hclient
    (fun _ _ _ => 6) (fun _ _ _ => some 1) (fun _ => rfl) hrun
  exact ⟨hsafe 20 le_rfl, u, hsame 20 le_rfl⟩

/-- `bytes_linearizable` for two threads that insert concurrently. -/
theorem twoInserters_linearizable : threeNodes.WellFormed (twoInsertersRun 20).mem.links ∧
    ∃ (hist : Bool → List (CallRecord (Request ℤ ℕ Unit) (Reply ℕ))) (order : List (Bool × ℕ))
      (l : List ℕ), Linearizes hist (Request.Seq threeNodes) [] l order ∧
        threeNodes.LevelChain (twoInsertersRun 20).mem.links 0 l := by
  have hrun : Config.IsRun ExecBytes twoInsertersRun 20 := isRun_followBytes (by decide +kernel)
  have hins : ∀ t : Bool, threeNodes.Insertable (if t then 136 else 96) := fun t => by
    cases t <;> exact ⟨by decide, by decide, by decide⟩
  have hnode : ∀ t, ∀ q ∈ twoInserters t, ∀ x, q.node = some x → x = if t then 136 else 96 := by
    intro t q hq x hx
    cases t <;> simp [twoInserters] at hq
    · rcases hq with rfl | rfl
      · exact (Option.some.inj hx).symm
      · cases hx
    · subst hq
      exact (Option.some.inj hx).symm
  have hclient : ∀ t, threeNodes.WellBehaved (ownNode t)
      fun replies => (twoInserters t)[replies.length]? := by
    intro t
    refine .of_list (fun q hq x hx => ?_) ?_ ?_
    · obtain rfl := hnode t q hq x hx
      exact ⟨rfl, hins t⟩
    · cases t <;> decide
    · cases t <;> simp [twoInserters, Request.iterator]
  have halloc : ∀ t x, ownNode t x → ∃ b ∈ threeRecords.blocks, b.node = x := by
    rintro t x rfl
    change ∃ b ∈ threeBlocks, b.node = if t then 136 else 96
    cases t <;> decide
  obtain ⟨hsafe, hist, -, order, l, hlin, hl⟩ := bytes_linearizable (L := threeNodes)
    (A := threeRecords) (c := twoInsertersRun) (n := 20) (by decide) (by decide) threeNodes_laid
    ownNode_unique halloc hclient (fun _ _ _ => 6) (fun _ _ _ => some 1) (fun _ => rfl) hrun
  exact ⟨(hsafe 20 le_rfl).1, hist, order, l, hlin, hl⟩

end InlineSkipList

end PmemKv
