import PmemKv.Basic
import PmemKv.Library.PersistentMemory

/-!
# The layout of a node

A `Node` consists of one link word, `next_[0]`.  `AllocateNode` puts the links of the higher levels
in front of it, the link of level `n` at `n` words before `next_[0]`, and the bytes of the key
behind it; until the link of level `0` is written, its first four bytes hold the height of the node.
So a node is known by the address of its link of level `0`.

The member functions of `Node` are programs over single accesses to a memory of bytes.  Pointers are
little-endian words of 64 bits, and the null pointer is `0`.  Acquire, release and relaxed accesses
are the same operation here.
-/

namespace PmemKv

open AtomicProg AtomicProg.Prog PersistentMemory

/-! ## Memory -/

/-- The bytes at all addresses. -/
abbrev Memory : Type := ℕ → UInt8

namespace Memory

/-- The memory after a store. -/
def store (m : Memory) (addr : ℕ) (bs : Bytes) : Memory := applyWrite m (chunk addr bs)

/-- The word at an address. -/
def word (m : Memory) (addr : ℕ) : ℕ := leNat (read m addr 8)

variable {m : Memory} {addr a n p : ℕ} {bs : Bytes}

/-- The bytes of a range, one by one. -/
lemma read_eq_map (m : Memory) (a n : ℕ) : read m a n = (List.range n).map fun i => m (a + i) := by
  induction n with
  | zero => rfl
  | succ n ih =>
    rw [read_append, ih, List.range_succ, List.map_append]
    rfl

/-- A byte from the address of a store on. -/
lemma store_apply_add (m : Memory) (addr : ℕ) (bs : Bytes) (i : ℕ) :
    m.store addr bs (addr + i) = (bs[i]?).getD (m (addr + i)) := by
  induction bs generalizing m addr i with
  | nil => rfl
  | cons b bs ih =>
    rw [store, chunk, applyWrite_cons]
    cases i with
    | zero =>
      rw [applyWrite_of_forall_ne fun p hp => ?_]
      · exact Function.update_self _ _ _
      · have hlt := (mem_chunk hp).1
        omega
    | succ i =>
      have hrest := ih (Function.update m addr b) (addr + 1) i
      rw [store, Nat.add_assoc, Nat.add_comm 1 i] at hrest
      rw [hrest, Function.update_of_ne (by omega)]
      rfl

/-- A byte that a store does not touch. -/
lemma store_apply_of_disjoint (h : a < addr ∨ addr + bs.length ≤ a) : m.store addr bs a = m a := by
  refine applyWrite_of_forall_ne fun p hp => ?_
  have hp' := mem_chunk hp
  omega

/-- Bytes that a store does not touch. -/
lemma read_store_of_disjoint (h : a + n ≤ addr ∨ addr + bs.length ≤ a) :
    read (m.store addr bs) a n = read m a n :=
  read_applyWrite_chunk_of_disjoint h

/-- A word that a store does not touch. -/
lemma word_store_of_disjoint (h : a + 8 ≤ addr ∨ addr + bs.length ≤ a) :
    (m.store addr bs).word a = m.word a :=
  congrArg leNat (read_store_of_disjoint h)

/-- A word that was stored. -/
lemma word_store_le64 (h : p < 2 ^ 64) : (m.store a (le64 p)).word a = p := by
  have hread := read_applyWrite_chunk m a (le64 p)
  rw [length_le64] at hread
  rw [word, store, hread, leNat_le64, toUInt64_of_lt h]

/-- A word has 64 bits. -/
lemma word_lt (m : Memory) (a : ℕ) : m.word a < 2 ^ 64 := by
  have hlt := leNat_lt (read m a 8)
  rw [length_read] at hlt
  exact hlt

end Memory

/-- An access to memory. -/
inductive MemOp : Type
  /-- Load `len` bytes from the address `addr` on. -/
  | load (addr len : ℕ)
  /-- Store the bytes from the address `addr` on. -/
  | store (addr : ℕ) (bs : Bytes)
  /-- Store the word `desired` at the address `addr` if the word there is `expected`. -/
  | compareExchange (addr expected desired : ℕ)

/-- What an access answers. -/
def MemOp.Ret : MemOp → Type
  | .load _ _ => Bytes
  | .store _ _ => Unit
  | .compareExchange _ _ _ => Bool

/-- Programs over a memory of bytes. -/
abbrev MemProg (α : Type) : Type := Prog MemOp MemOp.Ret α

/-- The effect of an access. -/
def execMem : (o : MemOp) → Memory → o.Ret × Memory
  | .load addr len, m => (read m addr len, m)
  | .store addr bs, m => ((), m.store addr bs)
  | .compareExchange addr expected desired, m =>
    if m.word addr = expected then (true, m.store addr (le64 desired)) else (false, m)

/-- The access touches bytes from `first` up to below `last` only. -/
def MemOp.Within (first last : ℕ) : MemOp → Prop
  | .load addr len => first ≤ addr ∧ addr + len ≤ last
  | .store addr bs => first ≤ addr ∧ addr + bs.length ≤ last
  | .compareExchange addr _ _ => first ≤ addr ∧ addr + 8 ≤ last

namespace MemProg

/-- Load bytes. -/
def load (addr len : ℕ) : MemProg Bytes := .step (.load addr len) .done

/-- Store bytes. -/
def store (addr : ℕ) (bs : Bytes) : MemProg Unit := .step (.store addr bs) .done

/-- Load a word. -/
def loadWord (addr : ℕ) : MemProg ℕ := do
  let bs ← load addr 8
  pure (leNat bs)

/-- Store a word. -/
def storeWord (addr value : ℕ) : MemProg Unit := store addr (le64 value)

/-- `compare_exchange_strong`. -/
def compareExchange (addr expected desired : ℕ) : MemProg Bool :=
  .step (.compareExchange addr expected desired) .done

variable {m : Memory} {addr expected : ℕ}

/-- A compare-exchange that succeeds. -/
lemma run_compareExchange_of_eq (h : m.word addr = expected) (desired : ℕ) :
    run execMem (compareExchange addr expected desired) m =
      .done true (m.store addr (le64 desired)) := by
  simp only [compareExchange, run, execMem, if_pos h]

/-- A compare-exchange that fails. -/
lemma run_compareExchange_of_ne (h : m.word addr ≠ expected) (desired : ℕ) :
    run execMem (compareExchange addr expected desired) m = .done false m := by
  simp only [compareExchange, run, execMem, if_neg h]

end MemProg

/-- An `int`, from the number that its four bytes make up. -/
def toInt32 (n : ℕ) : ℤ := if n < 2 ^ 31 then n else n - ((2 ^ 32 : ℕ) : ℤ)

lemma toInt32_of_lt {n : ℕ} (h : n < 2 ^ 31) : toInt32 n = n := if_pos h

/-! ## The member functions of `Node` -/

namespace Node

/-- `&next_[0] - n`. -/
def linkAddr (x n : ℕ) : ℕ := x - 8 * n

/-- `StashHeight`. -/
def stashHeight (x height : ℕ) : MemProg Unit := MemProg.store x (leBytes 4 height)

/-- `UnStashHeight`. -/
def unStashHeight (x : ℕ) : MemProg ℤ := do
  let rv ← MemProg.load x 4
  pure (toInt32 (leNat rv))

/-- `Key`, which is `&next_[1]`. -/
def key (x : ℕ) : ℕ := x + 8

/-- `Next`. -/
def next (x n : ℕ) : MemProg ℕ := MemProg.loadWord (linkAddr x n)

/-- `SetNext`. -/
def setNext (x n p : ℕ) : MemProg Unit := MemProg.storeWord (linkAddr x n) p

/-- `CASNext`. -/
def casNext (x n expected p : ℕ) : MemProg Bool :=
  MemProg.compareExchange (linkAddr x n) expected p

/-- `NoBarrier_Next`. -/
def noBarrierNext (x n : ℕ) : MemProg ℕ := MemProg.loadWord (linkAddr x n)

/-- `NoBarrier_SetNext`. -/
def noBarrierSetNext (x n p : ℕ) : MemProg Unit := MemProg.storeWord (linkAddr x n) p

/-- `InsertAfter`. -/
def insertAfter (x prev level : ℕ) : MemProg Unit := do
  let p ← noBarrierNext prev level
  noBarrierSetNext x level p
  setNext prev level x

/-- The node that `Insert` computes from a key, `reinterpret_cast<Node*>(key) - 1`. -/
def ofKey (key : ℕ) : ℕ := key - 8

end Node

/-- The number of bytes in front of a node, `sizeof(std::atomic<Node*>) * (height - 1)`. -/
def linkBytes (height : ℕ) : ℕ := toUInt64 (8 * (height + (2 ^ 64 - 1)))

/-- The number of bytes that `AllocateNode` asks the allocator for. -/
def nodeBytes (keySize height : ℕ) : ℕ := toUInt64 (linkBytes height + 8 + keySize)

/-- `AllocateNode`, where `raw` is what `AllocateAligned` returned. -/
def allocateNode (height raw : ℕ) : MemProg ℕ := do
  let x := raw + linkBytes height
  Node.stashHeight x height
  pure x

/-! ## Uses of nodes -/

/-- A use of nodes, by a member function or through a key. -/
inductive NodeOp : Type
  /-- `AllocateNode(key_size, height)`; the allocator answers `raw`. -/
  | allocateNode (keySize height raw : ℕ)
  /-- Bytes are written to `Key()`, from the given offset on. -/
  | writeKey (x offset : ℕ) (bs : Bytes)
  /-- Bytes are read from `Key()`, from the given offset on. -/
  | readKey (x offset len : ℕ)
  /-- `UnStashHeight`. -/
  | unStashHeight (x : ℕ)
  /-- `Next`. -/
  | next (x n : ℕ)
  /-- `NoBarrier_Next`. -/
  | noBarrierNext (x n : ℕ)
  /-- `SetNext`. -/
  | setNext (x n p : ℕ)
  /-- `NoBarrier_SetNext`. -/
  | noBarrierSetNext (x n p : ℕ)
  /-- `CASNext`. -/
  | casNext (x n expected p : ℕ)
  /-- `InsertAfter`. -/
  | insertAfter (x prev level : ℕ)
  /-- `Insert` finds the node of a key, and its height. -/
  | ofKey (key : ℕ)

/-- What a use answers. -/
inductive Answer : Type
  /-- Nothing. -/
  | unit
  /-- A pointer. -/
  | pointer (p : ℕ)
  /-- A Boolean. -/
  | bool (b : Bool)
  /-- An integer. -/
  | int (z : ℤ)
  /-- Bytes. -/
  | bytes (bs : Bytes)
  /-- A pointer and an integer. -/
  | node (x : ℕ) (height : ℤ)

namespace NodeOp

/-- What a use does. -/
def prog : NodeOp → MemProg Answer
  | .allocateNode _ height raw => do
    let x ← PmemKv.allocateNode height raw
    pure (.pointer x)
  | .writeKey x offset bs => do
    MemProg.store (Node.key x + offset) bs
    pure .unit
  | .readKey x offset len => do
    let bs ← MemProg.load (Node.key x + offset) len
    pure (.bytes bs)
  | .unStashHeight x => do
    let height ← Node.unStashHeight x
    pure (.int height)
  | .next x n => do
    let p ← Node.next x n
    pure (.pointer p)
  | .noBarrierNext x n => do
    let p ← Node.noBarrierNext x n
    pure (.pointer p)
  | .setNext x n p => do
    Node.setNext x n p
    pure .unit
  | .noBarrierSetNext x n p => do
    Node.noBarrierSetNext x n p
    pure .unit
  | .casNext x n expected p => do
    let success ← Node.casNext x n expected p
    pure (.bool success)
  | .insertAfter x prev level => do
    Node.insertAfter x prev level
    pure .unit
  | .ofKey key => do
    let x := Node.ofKey key
    let height ← Node.unStashHeight x
    pure (.node x height)

end NodeOp

end PmemKv
