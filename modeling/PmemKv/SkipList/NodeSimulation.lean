import PmemKv.SkipList.Memory
import PmemKv.SkipList.NodeLayout
import Mathlib.Data.List.Pairwise

/-!
# Nodes as records

`Nodes` is what the layout stands for: nodes with a number of links, a number of key bytes and a
stashed height, which are independent of each other.  `NodeOp.Spec` says what each use of a node
does to them.  `Represents` says that the bytes of the allocated blocks hold these records.

Every sequence of uses of the byte layout is one of the records, whatever the memory held before and
wherever the allocator puts its blocks, as long as they do not overlap; and every access stays
inside the block of the node that is used.
-/

namespace PmemKv

open AtomicProg AtomicProg.Prog PersistentMemory

/-- An allocated node, by what `AllocateNode` was called with and the address that the allocator
returned. -/
structure NodeBlock where
  /-- The address of the block. -/
  raw : ℕ
  /-- `key_size`. -/
  keySize : ℕ
  /-- `height`. -/
  height : ℕ
  deriving DecidableEq

namespace NodeBlock

/-- The address of the node. -/
def node (b : NodeBlock) : ℕ := b.raw + 8 * (b.height - 1)

/-- The end of the block. -/
def last (b : NodeBlock) : ℕ := b.raw + nodeBytes b.keySize b.height

/-- The two blocks do not overlap. -/
def Apart (b c : NodeBlock) : Prop := b.last ≤ c.raw ∨ c.last ≤ b.raw

instance (b c : NodeBlock) : Decidable (b.Apart c) :=
  inferInstanceAs (Decidable (b.last ≤ c.raw ∨ c.last ≤ b.raw))

/-- The block of a node with an admissible height, whose size and address do not overflow. -/
structure Valid (kMaxHeight : ℕ) (b : NodeBlock) : Prop where
  /-- The height is positive. -/
  height_pos : 1 ≤ b.height
  /-- The height is at most `kMaxHeight_`. -/
  height_le : b.height ≤ kMaxHeight
  /-- The size does not overflow. -/
  size_lt : 8 * (b.height - 1) + 8 + b.keySize < 2 ^ 64
  /-- The block is in the address space. -/
  last_le : b.last ≤ 2 ^ 64

instance (kMaxHeight : ℕ) (b : NodeBlock) : Decidable (b.Valid kMaxHeight) :=
  decidable_of_iff
    (1 ≤ b.height ∧ b.height ≤ kMaxHeight ∧ 8 * (b.height - 1) + 8 + b.keySize < 2 ^ 64 ∧
      b.last ≤ 2 ^ 64)
    ⟨fun ⟨h₁, h₂, h₃, h₄⟩ => ⟨h₁, h₂, h₃, h₄⟩, fun ⟨h₁, h₂, h₃, h₄⟩ => ⟨h₁, h₂, h₃, h₄⟩⟩

end NodeBlock

/-- Nodes as records, each known by its address. -/
structure Nodes where
  /-- The allocated nodes. -/
  blocks : List NodeBlock
  /-- The pointer on each level of a node. -/
  link : ℕ → ℕ → ℕ
  /-- The bytes of the key of a node. -/
  key : ℕ → ℕ → UInt8
  /-- The node still holds its height. -/
  stashed : ℕ → Bool

namespace Nodes

/-- No nodes. -/
def empty : Nodes := ⟨[], fun _ _ => 0, fun _ _ => 0, fun _ => false⟩

/-- Write a pointer; the link of level `0` takes the place of the height. -/
def setLink (A : Nodes) (x n p : ℕ) : Nodes :=
  { A with
    link := fun y k => if y = x ∧ k = n then p else A.link y k
    stashed := fun y => A.stashed y && !decide (y = x ∧ n = 0) }

/-- Write bytes of a key. -/
def setKey (A : Nodes) (x offset : ℕ) (bs : Bytes) : Nodes :=
  { A with
    key := fun y i =>
      if y = x ∧ offset ≤ i then (bs[i - offset]?).getD (A.key y i) else A.key y i }

/-- A new node, with the links and the key that its block happens to hold. -/
def allocate (A : Nodes) (b : NodeBlock) (link : ℕ → ℕ) (key : ℕ → UInt8) : Nodes where
  blocks := b :: A.blocks
  link y n := if y = b.node then link n else A.link y n
  key y i := if y = b.node then key i else A.key y i
  stashed y := if y = b.node then true else A.stashed y

end Nodes

namespace NodeOp

/-- What a use of nodes does to the records, and what it answers. -/
def Spec : NodeOp → Nodes → Answer → Nodes → Prop
  | .allocateNode keySize height raw, A, r, A' =>
    r = .pointer (NodeBlock.node ⟨raw, keySize, height⟩) ∧
      ∃ link key, A' = A.allocate ⟨raw, keySize, height⟩ link key
  | .writeKey x offset bs, A, r, A' => r = .unit ∧ A' = A.setKey x offset bs
  | .readKey x offset len, A, r, A' =>
    r = .bytes ((List.range len).map fun i => A.key x (offset + i)) ∧ A' = A
  | .unStashHeight x, A, r, A' =>
    (∀ b ∈ A.blocks, b.node = x → A.stashed x = true → r = .int b.height) ∧ A' = A
  | .next x n, A, r, A' | .noBarrierNext x n, A, r, A' => r = .pointer (A.link x n) ∧ A' = A
  | .setNext x n p, A, r, A' | .noBarrierSetNext x n p, A, r, A' =>
    r = .unit ∧ A' = A.setLink x n p
  | .casNext x n expected p, A, r, A' =>
    (A.link x n = expected ∧ r = .bool true ∧ A' = A.setLink x n p) ∨
      (A.link x n ≠ expected ∧ r = .bool false ∧ A' = A)
  | .insertAfter x prev level, A, r, A' =>
    r = .unit ∧ A' = (A.setLink x level (A.link prev level)).setLink prev level x
  | .ofKey key, A, r, A' =>
    (∀ b ∈ A.blocks, Node.key b.node = key →
      ∃ height, r = .node b.node height ∧ (A.stashed b.node = true → height = b.height)) ∧ A' = A

/-- One of the nodes has a link on the level. -/
def HasLink (blocks : List NodeBlock) (x n : ℕ) : Prop := ∃ b ∈ blocks, b.node = x ∧ n < b.height

/-- One of the nodes has the bytes of a key. -/
def HasKey (blocks : List NodeBlock) (x last : ℕ) : Prop :=
  ∃ b ∈ blocks, b.node = x ∧ last ≤ b.keySize

instance (blocks : List NodeBlock) (x n : ℕ) : Decidable (HasLink blocks x n) :=
  inferInstanceAs (Decidable (∃ b ∈ blocks, b.node = x ∧ n < b.height))

instance (blocks : List NodeBlock) (x last : ℕ) : Decidable (HasKey blocks x last) :=
  inferInstanceAs (Decidable (∃ b ∈ blocks, b.node = x ∧ last ≤ b.keySize))

/-- A use that callers may make when the given nodes are allocated: links on levels below the
height, bytes within the key, pointers of 64 bits; the allocator returns a block of its own. -/
def Admissible (kMaxHeight : ℕ) (blocks : List NodeBlock) : NodeOp → Prop
  | .allocateNode keySize height raw => NodeBlock.Valid kMaxHeight ⟨raw, keySize, height⟩ ∧
      ∀ b ∈ blocks, NodeBlock.Apart ⟨raw, keySize, height⟩ b
  | .writeKey x offset bs => HasKey blocks x (offset + bs.length)
  | .readKey x offset len => HasKey blocks x (offset + len)
  | .unStashHeight x => HasLink blocks x 0
  | .next x n | .noBarrierNext x n => HasLink blocks x n
  | .setNext x n p | .noBarrierSetNext x n p | .casNext x n _ p => HasLink blocks x n ∧ p < 2 ^ 64
  | .insertAfter x prev level => HasLink blocks x level ∧ HasLink blocks prev level
  | .ofKey key => ∃ b ∈ blocks, Node.key b.node = key

instance (kMaxHeight : ℕ) (blocks : List NodeBlock) (op : NodeOp) :
    Decidable (op.Admissible kMaxHeight blocks) :=
  match op with
  | .allocateNode keySize height raw => inferInstanceAs (Decidable
      (NodeBlock.Valid kMaxHeight ⟨raw, keySize, height⟩ ∧
        ∀ b ∈ blocks, NodeBlock.Apart ⟨raw, keySize, height⟩ b))
  | .writeKey x offset bs => inferInstanceAs (Decidable (HasKey blocks x (offset + bs.length)))
  | .readKey x offset len => inferInstanceAs (Decidable (HasKey blocks x (offset + len)))
  | .unStashHeight x => inferInstanceAs (Decidable (HasLink blocks x 0))
  | .next x n | .noBarrierNext x n => inferInstanceAs (Decidable (HasLink blocks x n))
  | .setNext x n p | .noBarrierSetNext x n p | .casNext x n _ p =>
    inferInstanceAs (Decidable (HasLink blocks x n ∧ p < 2 ^ 64))
  | .insertAfter x prev level =>
    inferInstanceAs (Decidable (HasLink blocks x level ∧ HasLink blocks prev level))
  | .ofKey key => inferInstanceAs (Decidable (∃ b ∈ blocks, Node.key b.node = key))

/-- The nodes after a use. -/
def blocksAfter (blocks : List NodeBlock) : NodeOp → List NodeBlock
  | .allocateNode keySize height raw => ⟨raw, keySize, height⟩ :: blocks
  | _ => blocks

/-- The nodes that a use accesses. -/
def nodes : NodeOp → List ℕ
  | .allocateNode keySize height raw => [NodeBlock.node ⟨raw, keySize, height⟩]
  | .writeKey x _ _ | .readKey x _ _ | .unStashHeight x | .next x _ | .noBarrierNext x _
  | .setNext x _ _ | .noBarrierSetNext x _ _ | .casNext x _ _ _ => [x]
  | .insertAfter x prev _ => [x, prev]
  | .ofKey key => [Node.ofKey key]

end NodeOp

/-- Uses that callers may make one after the other. -/
def AdmissibleUses (kMaxHeight : ℕ) : List NodeBlock → List NodeOp → Prop
  | _, [] => True
  | blocks, op :: ops =>
    op.Admissible kMaxHeight blocks ∧ AdmissibleUses kMaxHeight (op.blocksAfter blocks) ops

/-- Whether callers may make the uses can be decided. -/
instance decidableAdmissibleUses (kMaxHeight : ℕ) :
    ∀ (blocks : List NodeBlock) (ops : List NodeOp),
      Decidable (AdmissibleUses kMaxHeight blocks ops)
  | _, [] => .isTrue trivial
  | blocks, op :: ops =>
    have := decidableAdmissibleUses kMaxHeight (op.blocksAfter blocks) ops
    inferInstanceAs (Decidable (op.Admissible kMaxHeight blocks ∧
      AdmissibleUses kMaxHeight (op.blocksAfter blocks) ops))

/-- The bytes of the allocated blocks hold the records. -/
structure Represents (kMaxHeight : ℕ) (m : Memory) (A : Nodes) : Prop where
  /-- The blocks are those of nodes. -/
  valid : ∀ b ∈ A.blocks, b.Valid kMaxHeight
  /-- The blocks do not overlap. -/
  apart : A.blocks.Pairwise NodeBlock.Apart
  /-- The words are the links. -/
  link : ∀ b ∈ A.blocks, ∀ n < b.height, m.word (Node.linkAddr b.node n) = A.link b.node n
  /-- The bytes behind are the keys. -/
  key : ∀ b ∈ A.blocks, ∀ i < b.keySize, m (Node.key b.node + i) = A.key b.node i
  /-- The height is where it was stashed. -/
  stash : ∀ b ∈ A.blocks, A.stashed b.node = true → leNat (read m b.node 4) = b.height

/-- The use of the byte layout is one of the records: it answers what the records say, accesses only
the blocks of its own nodes, and leaves the records behind as they should be. -/
structure NodeOp.Refines (kMaxHeight : ℕ) (op : NodeOp) (m : Memory) (A : Nodes) (r : Answer)
    (m' : Memory) (A' : Nodes) : Prop where
  /-- The use returns. -/
  run_eq : run execMem op.prog m = .done r m'
  /-- The answer and the records are as they should be. -/
  spec : op.Spec A r A'
  /-- Every access stays inside the block of a node that is used. -/
  within : ∀ o ∈ trace execMem op.prog m,
    ∃ b ∈ A'.blocks, b.node ∈ op.nodes ∧ o.Within b.raw b.last
  /-- The bytes hold the records. -/
  represents : Represents kMaxHeight m' A'

/-- One use after the other, each is one of the records. -/
def Simulates (kMaxHeight : ℕ) : List NodeOp → Memory → Nodes → Prop
  | [], _, _ => True
  | op :: ops, m, A =>
    ∃ r m' A', op.Refines kMaxHeight m A r m' A' ∧ Simulates kMaxHeight ops m' A'

variable {kMaxHeight : ℕ} {m m' : Memory} {A A' : Nodes} {b c : NodeBlock}
  {op : NodeOp} {r : Answer}
  {n p i : ℕ}

/-! ## Where the parts of a node are -/

namespace NodeBlock

/-- The number of bytes of the links above level `0`. -/
lemma Valid.linkBytes_eq (h : b.Valid kMaxHeight) : linkBytes b.height = 8 * (b.height - 1) := by
  have hpos := h.height_pos
  have hsize := h.size_lt
  rw [linkBytes, toUInt64]
  omega

/-- The key ends where the block ends. -/
lemma Valid.last_eq (h : b.Valid kMaxHeight) : b.last = b.node + 8 + b.keySize := by
  rw [last, nodeBytes, h.linkBytes_eq, toUInt64_of_lt h.size_lt, node]
  omega

/-- The links are behind the beginning of the block, and up to the one of level `0`. -/
lemma linkAddr_bounds (hn : n < b.height) :
    b.raw ≤ Node.linkAddr b.node n ∧ Node.linkAddr b.node n + 8 * n = b.node := by
  rw [Node.linkAddr, node]
  omega

/-- A link is inside the block. -/
lemma Valid.link_inside (h : b.Valid kMaxHeight) (hn : n < b.height) :
    b.raw ≤ Node.linkAddr b.node n ∧ Node.linkAddr b.node n + 8 ≤ b.last := by
  have hlast := h.last_eq
  have hlink := linkAddr_bounds hn
  omega

/-- A part of the key is inside the block. -/
lemma Valid.key_inside {k : ℕ} (h : b.Valid kMaxHeight) (hk : i + k ≤ b.keySize) :
    b.raw ≤ Node.key b.node + i ∧ Node.key b.node + i + k ≤ b.last := by
  have hlast := h.last_eq
  have hraw : b.raw ≤ b.node := Nat.le_add_right _ _
  rw [Node.key]
  omega

/-- The height is inside the block. -/
lemma Valid.height_inside (h : b.Valid kMaxHeight) : b.raw ≤ b.node ∧ b.node + 4 ≤ b.last := by
  have hlast := h.last_eq
  have hraw : b.raw ≤ b.node := Nat.le_add_right _ _
  omega

/-- The address of a node is a pointer. -/
lemma Valid.node_lt (h : b.Valid kMaxHeight) : b.node < 2 ^ 64 := by
  have hlast := h.last_eq
  have hle := h.last_le
  omega

/-- Nodes that do not overlap have different addresses. -/
lemma Valid.node_ne (hb : b.Valid kMaxHeight) (hc : c.Valid kMaxHeight) (h : b.Apart c) :
    b.node ≠ c.node := by
  have hb' := hb.height_inside
  have hc' := hc.height_inside
  rcases h with h | h
  · omega
  · omega

end NodeBlock

namespace Represents

/-- Two nodes do not overlap. -/
lemma apart_of_ne (h : Represents kMaxHeight m A) (hb : b ∈ A.blocks) (hc : c ∈ A.blocks)
    (hne : b ≠ c) : b.Apart c := by
  have : Std.Symm NodeBlock.Apart := ⟨fun _ _ => Or.symm⟩
  exact h.apart.forall hb hc hne

/-- Parts of two nodes are disjoint, if they are when the two are the same node. -/
lemma disjoint {addr len a k : ℕ} (h : Represents kMaxHeight m A) (hb : b ∈ A.blocks)
    (hc : c ∈ A.blocks) (hin : b.raw ≤ addr ∧ addr + len ≤ b.last)
    (hin' : c.raw ≤ a ∧ a + k ≤ c.last) (hsame : b = c → a + k ≤ addr ∨ addr + len ≤ a) :
    a + k ≤ addr ∨ addr + len ≤ a := by
  by_cases he : b = c
  · exact hsame he
  · rcases h.apart_of_ne hb hc he with hlt | hlt
    · omega
    · omega

/-! ## What a store does to the records -/

/-- A store to a link changes this link only. -/
lemma setLink (h : Represents kMaxHeight m A) (hb : b ∈ A.blocks) (hn : n < b.height)
    (hp : p < 2 ^ 64) :
    Represents kMaxHeight (m.store (Node.linkAddr b.node n) (le64 p)) (A.setLink b.node n p) := by
  have hlink := NodeBlock.linkAddr_bounds hn
  have hin : b.raw ≤ Node.linkAddr b.node n ∧
      Node.linkAddr b.node n + (le64 p).length ≤ b.last := by
    rw [length_le64]
    exact (h.valid b hb).link_inside hn
  refine ⟨h.valid, h.apart, fun c hc k hk => ?_, fun c hc i hi => ?_, fun c hc hs => ?_⟩
  · by_cases he : c.node = b.node ∧ k = n
    · rw [he.1, he.2, Memory.word_store_le64 hp]
      exact (if_pos ⟨rfl, rfl⟩).symm
    · have hlink' := NodeBlock.linkAddr_bounds hk
      rw [Memory.word_store_of_disjoint, h.link c hc k hk]
      · exact (if_neg he).symm
      · refine h.disjoint hb hc hin ((h.valid c hc).link_inside hk) ?_
        rintro rfl
        have hne : k ≠ n := fun hkn => he ⟨rfl, hkn⟩
        rw [length_le64]
        omega
  · rw [Memory.store_apply_of_disjoint]
    · exact h.key c hc i hi
    · refine h.disjoint (k := 1) hb hc hin ((h.valid c hc).key_inside hi) ?_
      rintro rfl
      rw [length_le64, Node.key]
      omega
  · obtain ⟨hs, hne⟩ := Bool.and_eq_true_iff.mp hs
    rw [Memory.read_store_of_disjoint]
    · exact h.stash c hc hs
    · refine h.disjoint hb hc hin (h.valid c hc).height_inside ?_
      rintro rfl
      have hn0 : n ≠ 0 := fun hn0 => by simp [hn0] at hne
      rw [length_le64]
      omega

/-- A store to a key changes these bytes of this key only. -/
lemma setKey {offset : ℕ} {bs : Bytes} (h : Represents kMaxHeight m A) (hb : b ∈ A.blocks)
    (hlen : offset + bs.length ≤ b.keySize) :
    Represents kMaxHeight (m.store (Node.key b.node + offset) bs) (A.setKey b.node offset bs) := by
  have hin := (h.valid b hb).key_inside hlen
  refine ⟨h.valid, h.apart, fun c hc k hk => ?_, fun c hc i hi => ?_, fun c hc hs => ?_⟩
  · have hlink' := NodeBlock.linkAddr_bounds hk
    rw [Memory.word_store_of_disjoint]
    · exact h.link c hc k hk
    · refine h.disjoint hb hc hin ((h.valid c hc).link_inside hk) ?_
      rintro rfl
      rw [Node.key]
      omega
  · by_cases he : c.node = b.node ∧ offset ≤ i
    · obtain ⟨j, rfl⟩ := Nat.exists_eq_add_of_le he.2
      have hkey := h.key c hc _ hi
      rw [he.1, ← Nat.add_assoc] at hkey ⊢
      rw [Memory.store_apply_add, hkey]
      simp only [Nodes.setKey, Nat.le_add_right, and_self, if_true, Nat.add_sub_cancel_left]
    · rw [Memory.store_apply_of_disjoint, h.key c hc i hi]
      · exact (if_neg he).symm
      · refine h.disjoint (k := 1) hb hc hin ((h.valid c hc).key_inside hi) ?_
        rintro rfl
        have hlt : ¬offset ≤ i := fun hle => he ⟨rfl, hle⟩
        omega
  · rw [Memory.read_store_of_disjoint]
    · exact h.stash c hc hs
    · refine h.disjoint hb hc hin (h.valid c hc).height_inside ?_
      rintro rfl
      rw [Node.key]
      omega

/-- A new node, whose height is stashed, changes no other node. -/
lemma allocate (h : Represents kMaxHeight m A) (hk : kMaxHeight < 2 ^ 16) (hv : b.Valid kMaxHeight)
    (hapart : ∀ c ∈ A.blocks, b.Apart c) :
    ∃ link key, Represents kMaxHeight (m.store b.node (leBytes 4 b.height))
      (A.allocate b link key) := by
  set m' := m.store b.node (leBytes 4 b.height) with hm'
  have hin := hv.height_inside
  have hnode : ∀ c ∈ A.blocks, c.node ≠ b.node := fun c hc =>
    (hv.node_ne (h.valid c hc) (hapart c hc)).symm
  -- a part of another node is not touched by the store of the height
  have hout : ∀ c ∈ A.blocks, ∀ a k, c.raw ≤ a ∧ a + k ≤ c.last →
      a + k ≤ b.node ∨ b.node + (leBytes 4 b.height).length ≤ a := by
    intro c hc a k ha
    rw [length_leBytes]
    rcases hapart c hc with hlt | hlt
    · omega
    · omega
  refine ⟨fun n => m'.word (Node.linkAddr b.node n), fun i => m' (Node.key b.node + i),
    List.forall_mem_cons.mpr ⟨hv, h.valid⟩, List.pairwise_cons.mpr ⟨hapart, h.apart⟩,
    List.forall_mem_cons.mpr ⟨?_, fun c hc n hn => ?_⟩,
    List.forall_mem_cons.mpr ⟨?_, fun c hc i hi => ?_⟩,
    List.forall_mem_cons.mpr ⟨?_, fun c hc hs => ?_⟩⟩
  · exact fun n _ => (if_pos rfl).symm
  · rw [hm', Memory.word_store_of_disjoint (hout c hc _ 8 ((h.valid c hc).link_inside hn)),
      h.link c hc n hn]
    exact (if_neg (hnode c hc)).symm
  · exact fun i _ => (if_pos rfl).symm
  · rw [hm', Memory.store_apply_of_disjoint (hout c hc _ 1 ((h.valid c hc).key_inside hi)),
      h.key c hc i hi]
    exact (if_neg (hnode c hc)).symm
  · intro _
    have hle := hv.height_le
    have hread := read_applyWrite_chunk m b.node (leBytes 4 b.height)
    rw [length_leBytes] at hread
    rw [hm', Memory.store, hread, leNat_leBytes]
    exact Nat.mod_eq_of_lt (by omega)
  · rw [hm', Memory.read_store_of_disjoint (hout c hc _ 4 (h.valid c hc).height_inside)]
    exact h.stash c hc ((if_neg (hnode c hc)).symm.trans hs)

/-! ## Every use of the layout is one of the records -/

/-- `AllocateNode`. -/
lemma refines_allocateNode {keySize height raw : ℕ} (h : Represents kMaxHeight m A)
    (hk : kMaxHeight < 2 ^ 16)
    (hop : (NodeOp.allocateNode keySize height raw).Admissible kMaxHeight A.blocks) :
    ∃ r m' A', (NodeOp.allocateNode keySize height raw).Refines kMaxHeight m A r m' A' := by
  obtain ⟨hv, hapart⟩ := hop
  obtain ⟨link, key, hR⟩ := h.allocate hk hv hapart
  have hx : raw + linkBytes height = NodeBlock.node ⟨raw, keySize, height⟩ :=
    congrArg (raw + ·) hv.linkBytes_eq
  refine ⟨_, _, _, ?_, ⟨rfl, link, key, rfl⟩, ?_, hR⟩
  · rw [← hx]
    rfl
  · rintro o (_ | ⟨_, ⟨⟩⟩)
    refine ⟨_, List.mem_cons_self, List.mem_cons_self, ?_⟩
    rw [hx, MemOp.Within, length_leBytes]
    exact hv.height_inside

/-- `Next`. -/
lemma refines_next {x : ℕ} (h : Represents kMaxHeight m A) (hop : NodeOp.HasLink A.blocks x n) :
    (NodeOp.next x n).Refines kMaxHeight m A (.pointer (A.link x n)) m A := by
  obtain ⟨b, hb, rfl, hn⟩ := hop
  refine ⟨?_, ⟨rfl, rfl⟩, ?_, h⟩
  · rw [← h.link b hb n hn]
    rfl
  · rintro o (_ | ⟨_, ⟨⟩⟩)
    exact ⟨b, hb, List.mem_cons_self, (h.valid b hb).link_inside hn⟩

/-- `SetNext`. -/
lemma refines_setNext {x : ℕ} (h : Represents kMaxHeight m A) (hop : NodeOp.HasLink A.blocks x n)
    (hp : p < 2 ^ 64) :
    (NodeOp.setNext x n p).Refines kMaxHeight m A .unit (m.store (Node.linkAddr x n) (le64 p))
      (A.setLink x n p) := by
  obtain ⟨b, hb, rfl, hn⟩ := hop
  refine ⟨rfl, ⟨rfl, rfl⟩, ?_, h.setLink hb hn hp⟩
  rintro o (_ | ⟨_, ⟨⟩⟩)
  refine ⟨b, hb, List.mem_cons_self, ?_⟩
  rw [MemOp.Within, length_le64]
  exact (h.valid b hb).link_inside hn

/-- `CASNext`. -/
lemma refines_casNext {x expected : ℕ} (h : Represents kMaxHeight m A)
    (hop : NodeOp.HasLink A.blocks x n) (hp : p < 2 ^ 64) :
    ∃ r m' A', (NodeOp.casNext x n expected p).Refines kMaxHeight m A r m' A' := by
  obtain ⟨b, hb, rfl, hn⟩ := hop
  have hlink := h.link b hb n hn
  have htrace : ∀ o ∈ trace execMem (NodeOp.casNext b.node n expected p).prog m,
      ∃ c ∈ A.blocks, c.node ∈ [b.node] ∧ o.Within c.raw c.last := by
    rintro o (_ | ⟨_, ⟨⟩⟩)
    exact ⟨b, hb, List.mem_cons_self, (h.valid b hb).link_inside hn⟩
  by_cases he : A.link b.node n = expected
  · have hrun := MemProg.run_compareExchange_of_eq (hlink.trans he) p
    exact ⟨_, _, _, run_bind_of hrun, Or.inl ⟨he, rfl, rfl⟩, htrace, h.setLink hb hn hp⟩
  · have hrun := MemProg.run_compareExchange_of_ne (fun hw => he (hlink.symm.trans hw)) p
    exact ⟨_, _, _, run_bind_of hrun, Or.inr ⟨he, rfl, rfl⟩, htrace, h⟩

/-- `InsertAfter`. -/
lemma refines_insertAfter {x prev level : ℕ} (h : Represents kMaxHeight m A)
    (hx : NodeOp.HasLink A.blocks x level) (hprev : NodeOp.HasLink A.blocks prev level) :
    ∃ r m' A', (NodeOp.insertAfter x prev level).Refines kMaxHeight m A r m' A' := by
  obtain ⟨b, hb, rfl, hn⟩ := hx
  obtain ⟨c, hc, rfl, hn'⟩ := hprev
  have hp : A.link c.node level < 2 ^ 64 := by
    rw [← h.link c hc level hn']
    exact m.word_lt _
  have hR := (h.setLink hb hn hp).setLink hc hn' (h.valid b hb).node_lt
  refine ⟨.unit, _, _, ?_, ⟨rfl, rfl⟩, ?_, hR⟩
  · rw [← h.link c hc level hn']
    rfl
  · have hin := (h.valid b hb).link_inside hn
    have hin' := (h.valid c hc).link_inside hn'
    rintro o (_ | ⟨_, _ | ⟨_, _ | ⟨_, ⟨⟩⟩⟩⟩)
    · exact ⟨c, hc, List.mem_cons_of_mem _ List.mem_cons_self, hin'⟩
    · refine ⟨b, hb, List.mem_cons_self, ?_⟩
      rw [MemOp.Within, length_le64]
      exact hin
    · refine ⟨c, hc, List.mem_cons_of_mem _ List.mem_cons_self, ?_⟩
      rw [MemOp.Within, length_le64]
      exact hin'

/-- Bytes are written to a key. -/
lemma refines_writeKey {x offset : ℕ} {bs : Bytes} (h : Represents kMaxHeight m A)
    (hop : NodeOp.HasKey A.blocks x (offset + bs.length)) :
    (NodeOp.writeKey x offset bs).Refines kMaxHeight m A .unit (m.store (Node.key x + offset) bs)
      (A.setKey x offset bs) := by
  obtain ⟨b, hb, rfl, hlen⟩ := hop
  refine ⟨rfl, ⟨rfl, rfl⟩, ?_, h.setKey hb hlen⟩
  rintro o (_ | ⟨_, ⟨⟩⟩)
  exact ⟨b, hb, List.mem_cons_self, (h.valid b hb).key_inside hlen⟩

/-- Bytes are read from a key. -/
lemma refines_readKey {x offset len : ℕ} (h : Represents kMaxHeight m A)
    (hop : NodeOp.HasKey A.blocks x (offset + len)) :
    (NodeOp.readKey x offset len).Refines kMaxHeight m A
      (.bytes ((List.range len).map fun i => A.key x (offset + i))) m A := by
  obtain ⟨b, hb, rfl, hlen⟩ := hop
  have hread : read m (Node.key b.node + offset) len =
      (List.range len).map fun i => A.key b.node (offset + i) := by
    rw [Memory.read_eq_map]
    refine List.map_congr_left fun i hi => ?_
    have hlt := List.mem_range.mp hi
    rw [Nat.add_assoc]
    exact h.key b hb (offset + i) (by omega)
  refine ⟨?_, ⟨rfl, rfl⟩, ?_, h⟩
  · rw [← hread]
    rfl
  · rintro o (_ | ⟨_, ⟨⟩⟩)
    exact ⟨b, hb, List.mem_cons_self, (h.valid b hb).key_inside hlen⟩

/-- The height that is read is the stashed one. -/
lemma toInt32_height (h : Represents kMaxHeight m A) (hk : kMaxHeight < 2 ^ 16) (hb : b ∈ A.blocks)
    (hs : A.stashed b.node = true) : toInt32 (leNat (read m b.node 4)) = b.height := by
  have hle := (h.valid b hb).height_le
  rw [h.stash b hb hs, toInt32_of_lt]
  omega

/-- `UnStashHeight`. -/
lemma refines_unStashHeight {x : ℕ} (h : Represents kMaxHeight m A) (hk : kMaxHeight < 2 ^ 16)
    (hop : NodeOp.HasLink A.blocks x 0) :
    (NodeOp.unStashHeight x).Refines kMaxHeight m A (.int (toInt32 (leNat (read m x 4)))) m A := by
  obtain ⟨b, hb, rfl, _⟩ := hop
  refine ⟨rfl, ⟨?_, rfl⟩, ?_, h⟩
  · intro c hc he hs
    rw [← he] at hs ⊢
    rw [h.toInt32_height hk hc hs]
  · rintro o (_ | ⟨_, ⟨⟩⟩)
    exact ⟨b, hb, List.mem_cons_self, (h.valid b hb).height_inside⟩

/-- `Insert` finds the node of a key. -/
lemma refines_ofKey {key : ℕ} (h : Represents kMaxHeight m A) (hk : kMaxHeight < 2 ^ 16)
    (hop : ∃ b ∈ A.blocks, Node.key b.node = key) :
    (NodeOp.ofKey key).Refines kMaxHeight m A
      (.node (Node.ofKey key) (toInt32 (leNat (read m (Node.ofKey key) 4)))) m A := by
  have hof : ∀ x, Node.ofKey (Node.key x) = x := fun x => Nat.add_sub_cancel x 8
  obtain ⟨b, hb, rfl⟩ := hop
  refine ⟨rfl, ⟨?_, rfl⟩, ?_, h⟩
  · intro c hc he
    rw [← he, hof]
    exact ⟨_, rfl, h.toInt32_height hk hc⟩
  · rintro o (_ | ⟨_, ⟨⟩⟩)
    refine ⟨b, hb, ?_, ?_⟩
    · exact List.mem_singleton.mpr (hof b.node).symm
    · rw [hof]
      exact (h.valid b hb).height_inside

/-- Every use of the layout is one of the records. -/
theorem refines (h : Represents kMaxHeight m A) (hk : kMaxHeight < 2 ^ 16)
    (hop : op.Admissible kMaxHeight A.blocks) : ∃ r m' A', op.Refines kMaxHeight m A r m' A' := by
  cases op with
  | allocateNode keySize height raw => exact h.refines_allocateNode hk hop
  | writeKey x offset bs => exact ⟨_, _, _, h.refines_writeKey hop⟩
  | readKey x offset len => exact ⟨_, _, _, h.refines_readKey hop⟩
  | unStashHeight x => exact ⟨_, _, _, h.refines_unStashHeight hk hop⟩
  | next x n => exact ⟨_, _, _, h.refines_next hop⟩
  | noBarrierNext x n =>
    have hR := h.refines_next hop
    exact ⟨_, _, _, hR.run_eq, hR.spec, hR.within, hR.represents⟩
  | setNext x n p => exact ⟨_, _, _, h.refines_setNext hop.1 hop.2⟩
  | noBarrierSetNext x n p =>
    have hR := h.refines_setNext hop.1 hop.2
    exact ⟨_, _, _, hR.run_eq, hR.spec, hR.within, hR.represents⟩
  | casNext x n expected p => exact h.refines_casNext hop.1 hop.2
  | insertAfter x prev level => exact h.refines_insertAfter hop.1 hop.2
  | ofKey key => exact ⟨_, _, _, h.refines_ofKey hk hop⟩

end Represents

/-! ## Runs -/

/-- The records have the nodes that were allocated. -/
lemma NodeOp.Spec.blocks_eq (h : op.Spec A r A') : A'.blocks = op.blocksAfter A.blocks := by
  cases op with
  | allocateNode keySize height raw =>
    obtain ⟨_, link, key, rfl⟩ := h
    rfl
  | casNext x n expected p =>
    obtain ⟨_, _, rfl⟩ | ⟨_, _, rfl⟩ := h
    · rfl
    · rfl
  | _ =>
    obtain ⟨_, rfl⟩ := h
    rfl

/-- A run from bytes that hold the records. -/
lemma Represents.simulates {ops : List NodeOp} (h : Represents kMaxHeight m A)
    (hk : kMaxHeight < 2 ^ 16) (hops : AdmissibleUses kMaxHeight A.blocks ops) :
    Simulates kMaxHeight ops m A := by
  induction ops generalizing m A with
  | nil => trivial
  | cons op ops ih =>
    obtain ⟨hop, hrest⟩ := hops
    obtain ⟨r, m', A', hR⟩ := h.refines hk hop
    rw [← hR.spec.blocks_eq] at hrest
    exact ⟨r, m', A', hR, ih hR.represents hrest⟩

/-- Over any uses of nodes that are allocated in memory of any content, each node keeps its own
links, its own key and its own height: the byte layout does what the records do, every access stays
inside the block of a node that is used, and the node of a key is the one it belongs to. -/
theorem nodes_simulate (hk : kMaxHeight < 2 ^ 16) (m : Memory) (ops : List NodeOp)
    (hops : AdmissibleUses kMaxHeight [] ops) : Simulates kMaxHeight ops m Nodes.empty := by
  have hempty : Represents kMaxHeight m Nodes.empty :=
    ⟨nofun, List.Pairwise.nil, nofun, nofun, nofun⟩
  exact hempty.simulates hk hops

/-- Two nodes, with `2` links and `3` bytes of a key and with one link and no key, that are linked
to each other after the key is written; then the second node is found from its key. -/
def twoNodeUses : List NodeOp :=
  [.allocateNode 3 2 64, .allocateNode 0 1 96, .writeKey 72 1 [7, 8], .unStashHeight 72,
    .setNext 72 1 96, .ofKey 80, .insertAfter 96 72 0, .casNext 72 0 96 0, .casNext 72 0 96 72,
    .noBarrierSetNext 72 1 0, .readKey 72 1 2, .next 72 0, .noBarrierNext 96 0]

/-- `nodes_simulate` for the uses of two nodes. -/
theorem twoNodeUses_simulate : Simulates 12 twoNodeUses (fun _ => 255) Nodes.empty :=
  nodes_simulate (by decide) _ _ (by decide)

/-! ## The links of a list -/

/-- The pointer that a word holds. -/
def pointer (p : ℕ) : Option ℕ := if p = 0 then none else some p

/-- Different words hold different pointers. -/
lemma pointer_injective : Function.Injective pointer := by
  intro p q h
  unfold pointer at h
  by_cases hp : p = 0
  · by_cases hq : q = 0
    · rw [hp, hq]
    · rw [if_pos hp, if_neg hq] at h
      cases h
  · by_cases hq : q = 0
    · rw [if_neg hp, if_pos hq] at h
      cases h
    · rw [if_neg hp, if_neg hq] at h
      exact Option.some_inj.mp h

namespace Nodes

/-- The links of the nodes, as a list that consists of them sees them. -/
def links (A : Nodes) (maxHeight : ℕ) : Links ℕ where
  next x n := pointer (A.link x n)
  maxHeight := maxHeight

/-- Writing a pointer writes the link. -/
lemma links_setLink (A : Nodes) (x n p maxHeight : ℕ) :
    (A.setLink x n p).links maxHeight = (A.links maxHeight).setNext x n (pointer p) :=
  congrArg (Links.mk · maxHeight) (funext₂ fun y k =>
    apply_ite pointer (y = x ∧ k = n) p (A.link y k))

end Nodes

/-- The uses of nodes that are atomic operations on the links of a list, and what they answer. -/
inductive NodeOp.Performs : NodeOp → Answer → (o : LinkOp ℕ) → o.Ret → Prop
  /-- `Next`. -/
  | next (x n p : ℕ) : Performs (.next x n) (.pointer p) (.next x n) (pointer p)
  /-- `NoBarrier_Next`. -/
  | noBarrierNext (x n p : ℕ) : Performs (.noBarrierNext x n) (.pointer p) (.next x n) (pointer p)
  /-- `SetNext`. -/
  | setNext (x n p : ℕ) : Performs (.setNext x n p) .unit (.setNext x n (pointer p)) ()
  /-- `NoBarrier_SetNext`. -/
  | noBarrierSetNext (x n p : ℕ) :
    Performs (.noBarrierSetNext x n p) .unit (.setNext x n (pointer p)) ()
  /-- `CASNext`. -/
  | casNext (x n expected p : ℕ) (success : Bool) :
    Performs (.casNext x n expected p) (.bool success)
      (.casNext x n (pointer expected) (pointer p)) success

/-- What these uses do to the records is what the operations of a list do to its links, so that
`Links` stands for the bytes of the nodes. -/
theorem NodeOp.Spec.exec {o : LinkOp ℕ} {a : o.Ret} (h : op.Spec A r A') (ho : op.Performs r o a)
    (maxHeight : ℕ) : Exec o (A.links maxHeight) a (A'.links maxHeight) := by
  cases ho with
  | next x n p =>
    obtain ⟨hr, rfl⟩ := h
    cases hr
    exact ⟨rfl, rfl⟩
  | noBarrierNext x n p =>
    obtain ⟨hr, rfl⟩ := h
    cases hr
    exact ⟨rfl, rfl⟩
  | setNext x n p =>
    obtain ⟨_, rfl⟩ := h
    exact A.links_setLink x n p maxHeight
  | noBarrierSetNext x n p =>
    obtain ⟨_, rfl⟩ := h
    exact A.links_setLink x n p maxHeight
  | casNext x n expected p success =>
    obtain ⟨he, hr, rfl⟩ | ⟨he, hr, rfl⟩ := h
    · cases hr
      exact Or.inl ⟨congrArg pointer he, rfl, A.links_setLink x n p maxHeight⟩
    · cases hr
      exact Or.inr ⟨fun hp => he (pointer_injective hp), rfl, rfl⟩

end PmemKv
