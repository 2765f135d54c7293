import PmemKv.Basic
import PmemKv.Library.PersistentMemory

/-!
# The log store

The source functions of `LogAppender`, its `RecoveryHelper` and `NvmExample`.  They are programs
over the persistent memory of the mapping; addresses are offsets from `pmem_base`, so `sequence` is
the word at the address `0`.  An access outside the mapping faults.  That word is aligned and is
stored at once; a length may be at any address and is stored byte by byte, as `memcpy` stores the
bytes of a slice.

The header of these classes is not part of the repository.  `_end_off` is a 64-bit word, and the
second argument of `_persist` is 32 bits wide.
-/

namespace PmemKv

open AtomicProg AtomicProg.Prog PersistentMemory

/-- A mapped file, and the build that maps it. -/
structure Mapping where
  /-- `_mapped_len`. -/
  mappedLen : ℕ
  /-- There is room for `sequence`. -/
  ge : 8 ≤ mappedLen
  /-- It is a `size_t`. -/
  lt : mappedLen < 2 ^ 64
  /-- `USE_LIBPMEM` is defined. -/
  useLibpmem : Bool

/-- A `Slice` into the mapping; its `data` is `nullptr` or an offset. -/
structure Slice where
  /-- `_data`. -/
  data : Option ℕ
  /-- `_size`. -/
  size : ℕ
  deriving DecidableEq

/-- `Status`. -/
inductive Status : Type
  | Ok
  | NotFound
  | IOError
  | OutOfMemory
  deriving DecidableEq

/-- A program of the log store. -/
abbrev LogProg (β : Type) : Type := PmProg UInt8 β

/-- The `std::unordered_map<std::string, Slice>`. -/
abbrev HashMap : Type := Bytes → Option Slice

namespace Mapping

variable (M : Mapping)

/-- Load `len` bytes. -/
def load (addr len : ℕ) : LogProg Bytes := do
  check (addr + len ≤ M.mappedLen)
  perform (PmOp.load addr len)

/-- Load a `uint64_t`. -/
def loadWord (addr : ℕ) : LogProg ℕ := do
  let bs ← M.load addr 8
  pure (leNat bs)

/-- Store bytes one by one. -/
def storeBytes (addr : ℕ) (bs : Bytes) : LogProg Unit := do
  check (addr + bs.length ≤ M.mappedLen)
  storeSingles addr bs

/-- `Slice::to_string`. -/
def toString (slice : Slice) : LogProg Bytes :=
  match slice.data with
  | some addr => M.load addr slice.size
  | none => check (slice.size = 0) >>= fun _ => pure []

/-! ## `RecoveryHelper` -/

/-- The fields of a `RecoveryHelper`; `_end_off` is the field of the appender that it points to. -/
structure RecoveryHelper where
  /-- `*_end_off`. -/
  endOff : ℕ
  /-- `_sequence`. -/
  sequence : ℕ
  /-- `_current`. -/
  current : ℕ

/-- The constructor. -/
def recoveryHelper : LogProg RecoveryHelper := do
  let sequence ← M.loadWord 0
  pure ⟨8, sequence, 0⟩

/-- `_get_slice`. -/
def getSlice (helper : RecoveryHelper) : LogProg (Slice × RecoveryHelper) := do
  let size ← M.loadWord helper.endOff
  let pmemAddr := toUInt64 (helper.endOff + 8)
  pure (⟨some pmemAddr, size⟩, { helper with endOff := toUInt64 (pmemAddr + size) })

/-- `Next`. -/
def next (helper : RecoveryHelper) : LogProg ((Slice × Slice) × RecoveryHelper) :=
  if helper.current < helper.sequence then do
    let helper := { helper with current := helper.current + 1 }
    let (key, helper) ← M.getSlice helper
    let (val, helper) ← M.getSlice helper
    pure ((key, val), helper)
  else pure ((⟨none, 0⟩, ⟨none, 0⟩), helper)

/-- The loop of `Recovery`. -/
def recoveryLoop : ℕ → RecoveryHelper → HashMap → LogProg (HashMap × RecoveryHelper)
  | 0, _, _ => exhausted
  | fuel + 1, helper, hashMap => do
    let (kv, helper) ← M.next helper
    if kv.1.data = none then pure (hashMap, helper)
    else do
      let k ← M.toString kv.1
      recoveryLoop fuel helper (Function.update hashMap k (some kv.2))

/-- `Recovery`, with the map and `_end_off` that it leaves. -/
def recovery (fuel : ℕ) (hashMap : HashMap) : LogProg (HashMap × ℕ) := do
  let helper ← M.recoveryHelper
  let (hashMap, helper) ← M.recoveryLoop fuel helper hashMap
  pure (hashMap, helper.endOff)

/-- The pairs that `Next` hands out until it hands out an empty one, and the last `_end_off`. -/
def decodeLoop : ℕ → RecoveryHelper → LogProg (List (Bytes × Bytes) × ℕ)
  | 0, _ => exhausted
  | fuel + 1, helper => do
    let (kv, helper) ← M.next helper
    if kv.1.data = none then pure ([], helper.endOff)
    else do
      let k ← M.toString kv.1
      let v ← M.toString kv.2
      let (kvs, endOff) ← decodeLoop fuel helper
      pure ((k, v) :: kvs, endOff)

/-- The pairs that a `RecoveryHelper` hands out from its construction on. -/
def decode (fuel : ℕ) : LogProg (List (Bytes × Bytes) × ℕ) := do
  let helper ← M.recoveryHelper
  M.decodeLoop fuel helper

/-! ## `LogAppender` -/

/-- `_persist`; both functions of the library make the range durable. -/
def persist (addr len : ℕ) : LogProg Unit :=
  if M.useLibpmem then perform (PmOp.persist addr (toUInt32 len)) else pure ()

/-- `_push_back`, with the new `_end_off`. -/
def pushBack (endOff : ℕ) (slice : Bytes) : LogProg (Slice × ℕ) := do
  let ptr := endOff
  M.storeBytes ptr (le64 slice.length)
  M.persist ptr 8
  let ptr := ptr + 8
  M.storeBytes ptr slice
  M.persist ptr slice.length
  pure (⟨some ptr, slice.length⟩, toUInt64 (endOff + 8 + slice.length))

/-- `Append`, with the new `_end_off`. -/
def append (endOff : ℕ) (key val : Bytes) : LogProg ((Slice × Slice) × ℕ) := do
  let (nvmKey, endOff) ← M.pushBack endOff key
  let (nvmVal, endOff) ← M.pushBack endOff val
  let sequence ← M.loadWord 0
  perform (PmOp.store 0 (le64 (sequence + 1)))
  pure ((nvmKey, nvmVal), endOff)

/-! ## `NvmExample` -/

/-- The fields that live as long as the process. -/
structure NvmExample where
  /-- `_end_off` of the logger. -/
  endOff : ℕ
  /-- `hash_map`. -/
  hashMap : HashMap

/-- The constructor. -/
def nvmExample (fuel : ℕ) : LogProg NvmExample := do
  let (hashMap, endOff) ← M.recovery fuel fun _ => none
  pure ⟨endOff, hashMap⟩

/-- `Get`, where `value` is what the string of the caller holds. -/
def get (db : NvmExample) (key value : Bytes) : LogProg (Status × Bytes) :=
  match db.hashMap key with
  | none => pure (.NotFound, value)
  | some slice => do
    let value ← M.toString slice
    pure (.Ok, value)

/-- `Set`. -/
def set (db : NvmExample) (key value : Bytes) : LogProg (Status × NvmExample) := do
  let (kv, endOff) ← M.append db.endOff key value
  let k ← M.toString kv.1
  pure (.Ok, ⟨endOff, Function.update db.hashMap k (some kv.2)⟩)

end Mapping

end PmemKv
