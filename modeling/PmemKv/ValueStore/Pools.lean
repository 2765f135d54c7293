import PmemKv.HandleTable.Table
import PmemKv.Library.PersistentMemory

/-!
# The value store

The source functions that keep values in pools of persistent memory: `KVSOpen`, `KVSCLose`,
`KVSEncodeValue`, `KVSPublish`, `KVSFreeValue`, `KVSDumpFromValueRef` and `KVSDecodeValueRef`.  The
static variables and the memory of the pools are the fields of `KVSState`, which also records the
objects of the pools; no function reads them but those of `libpmemobj`.

That library and `snappy` are not part of the repository; `Libraries` has what the code uses of
them.  The size in the root object of a pool is written but never read, and is left out, as are the
knobs that no function here reads.
-/

namespace PmemKv

open PersistentMemory

/-- `kEncodingRawCompressed`. -/
def kEncodingRawCompressed : UInt8 := 0x0

/-- `kEncodingRawUncompressed`. -/
def kEncodingRawUncompressed : UInt8 := 0x01

/-- `kEncodingPtrCompressed`. -/
def kEncodingPtrCompressed : UInt8 := 0x02

/-- `kEncodingPtrUncompressed`. -/
def kEncodingPtrUncompressed : UInt8 := 0x03

/-- A `KVSRef`. -/
structure KVSRef where
  /-- `hdr.encoding`. -/
  encoding : UInt8
  /-- `size`, an `unsigned int`. -/
  size : ℕ
  /-- `pool_index`, an `unsigned int`. -/
  poolIndex : ℕ
  /-- `off_in_pool`. -/
  offInPool : ℕ
  deriving DecidableEq

/-- `sizeof(struct KVSRef)`. -/
def sizeofKVSRef : ℕ := 24

/-- A `Pool`; its `pool` points to `base_addr`. -/
structure Pool where
  /-- `uuid_lo`. -/
  uuidLo : ℕ
  /-- `base_addr`. -/
  baseAddr : ℕ

/-- A `PobjAction`: a reservation, and the index of its pool. -/
structure PobjAction where
  /-- The offset of the reserved object. -/
  off : ℕ
  /-- `pool_index`. -/
  poolIndex : ℕ
  deriving DecidableEq

/-- An object in a pool, reserved or live. -/
structure Obj where
  /-- The pool. -/
  pool : ℕ
  /-- Its offset in the pool. -/
  off : ℕ
  /-- Its size. -/
  size : ℕ
  /-- Its reservation was published. -/
  published : Bool
  deriving DecidableEq

/-- What the code uses of `libpmemobj` and of `snappy`.  The pools are numbered as their files are;
they are mapped at other addresses each time they are opened. -/
structure Libraries where
  /-- `pmemobj_create` makes the file of a pool of a size, in the `t`-th call of `KVSOpen`. -/
  create : (t i size : ℕ) → Bool
  /-- `pmemobj_open` opens the file of a pool. -/
  openPool : (t i : ℕ) → Bool
  /-- The `pool_uuid_lo` of a pool. -/
  uuidLo : ℕ → ℕ
  /-- The length of a pool. -/
  len : ℕ → ℕ
  /-- The address of a pool that is open for the `e`-th time. -/
  addr : (e i : ℕ) → ℕ
  /-- What the memory holds when the pools are opened for the `e`-th time, with these objects in
  them, where it held `mem` before. -/
  mapped : (e : ℕ) → (objects : List Obj) → (mem : ℕ → UInt8) → ℕ → UInt8
  /-- The offset that the `t`-th call of `pmemobj_reserve` finds in a pool for a size. -/
  reserve : (t : ℕ) → (objects : List Obj) → (i size : ℕ) → Option ℕ
  /-- `SNAPPY` is defined. -/
  snappyDefined : Bool
  /-- `snappy::RawCompress`. -/
  rawCompress : Bytes → Bytes
  /-- `snappy::GetUncompressedLength`. -/
  getUncompressedLength : Bytes → Option ℕ
  /-- `snappy::RawUncompress`. -/
  rawUncompress : Bytes → Bytes

/-- The static variables, the memory, the objects in the pools, and how often `KVSOpen` was called,
the pools were opened and `pmemobj_reserve` was called. -/
structure KVSState where
  /-- `pools_`, which may be `nullptr`. -/
  pools : Option (ℕ → Pool)
  /-- `pool_count_`. -/
  poolCount : ℕ
  /-- `next_pool_index_`. -/
  nextPoolIndex : ℕ
  /-- `dcpmm_avail_size_min_`. -/
  dcpmmAvailSizeMin : ℕ
  /-- `dcpmm_avail_size_`. -/
  dcpmmAvailSize : ℕ
  /-- `dcpmm_is_avail_`. -/
  dcpmmIsAvail : Bool
  /-- The memory. -/
  mem : ℕ → UInt8
  /-- The objects in the pools. -/
  objects : List Obj
  /-- How often `KVSOpen` was called. -/
  tries : ℕ
  /-- How often the pools were opened. -/
  opens : ℕ
  /-- How often `pmemobj_reserve` was called. -/
  reserves : ℕ

/-- The state when the process starts. -/
def KVSState.start (mem : ℕ → UInt8) : KVSState := ⟨none, 0, 0, 0, 0, true, mem, [], 0, 0, 0⟩

/-- What the argument of `KVSDecodeValueRef` points to. -/
inductive KVSValue : Type
  /-- A reference. -/
  | ref (ref : KVSRef)
  /-- A header and the bytes of a value behind it. -/
  | raw (encoding : UInt8) (bytes : Bytes)

/-- `pools_[i]`. -/
def KVSState.pool (s : KVSState) (i : ℕ) : Except Stop Pool :=
  match s.pools with
  | some pools => if i < s.poolCount then .ok (pools i) else .error .fault
  | none => .error .fault

/-- An assertion of the source. -/
def require (c : Prop) [Decidable c] : Except Stop Unit := if c then .ok () else .error .fault

lemma require_eq_ok {c : Prop} [Decidable c] {u : Unit} : require c = .ok u ↔ c := by
  unfold require
  split
  · next h => exact iff_of_true rfl h
  · next h => exact iff_of_false (fun hne => by cases hne) h

/-- `assert(pools_)`. -/
def KVSState.requirePools (s : KVSState) : Except Stop Unit := require (s.pools.isSome = true)

/-- The encoding that `KVSDecodeValueRef` finds, and the bytes at `src_data`, of which there are
`src_len`. -/
def KVSState.srcData (s : KVSState) (input : KVSValue) (size : ℕ) : Except Stop (UInt8 × Bytes) :=
  match input with
  | .ref ref => do
    require (ref.encoding = kEncodingPtrUncompressed ∨ ref.encoding = kEncodingPtrCompressed)
    require (size = sizeofKVSRef)
    let pool ← s.pool ref.poolIndex
    -- the bytes behind the header of the object
    pure (ref.encoding, read s.mem (pool.baseAddr + ref.offInPool + 1) ref.size)
  | .raw encoding bytes => do
    require (encoding = kEncodingRawUncompressed ∨ encoding = kEncodingRawCompressed)
    require (1 ≤ size)
    pure (encoding, bytes.take (size - 1))

namespace Libraries

variable (L : Libraries)

/-! ## Opening and closing -/

/-- The loop of `KVSOpen`, over the `n` pools from the pool `i` on. -/
def openLoop (t e poolSize : ℕ) : ℕ → ℕ → (ℕ → Pool) → Option (ℕ → Pool)
  | 0, _, pools => some pools
  | n + 1, i, pools =>
    if L.create t i poolSize || L.openPool t i then
      openLoop t e poolSize n (i + 1) (Function.update pools i ⟨L.uuidLo i, L.addr e i⟩)
    else none

/-- `KVSOpen`, which returns `0` (`true`) or `-EIO`.  Reservations that were not published are gone
when the pools are opened. -/
def kvsOpen (size poolCount : ℕ) (s : KVSState) : Except Stop (Bool × KVSState) := do
  require (s.pools.isNone = true)
  require (poolCount ≠ 0)
  let t := s.tries + 1
  let e := s.opens + 1
  match L.openLoop t e (size / poolCount) poolCount 0 fun _ => ⟨0, 0⟩ with
  | none => pure (false, { s with poolCount := poolCount, tries := t })
  | some pools =>
    pure (true, { s with
      pools := some pools
      poolCount := poolCount
      dcpmmAvailSizeMin := size / 10
      mem := L.mapped e s.objects s.mem
      objects := s.objects.filter fun o => o.published
      tries := t
      opens := e })

/-- `KVSCLose`. -/
def kvsCLose (s : KVSState) : KVSState := { s with pools := none }

/-! ## Encoding -/

/-- The loop of `ReservePmem`, with `retry_loop - i` rounds left. -/
def reserveLoop (size : ℕ) : ℕ → ℕ → KVSState → Option (ℕ × ℕ) × KVSState
  | 0, _, s => (none, { s with dcpmmIsAvail := false })
  | n + 1, i, s =>
    match L.reserve s.reserves s.objects i size with
    | some off =>
      (some (i, off),
        { s with objects := ⟨i, off, size, false⟩ :: s.objects, reserves := s.reserves + 1 })
    | none =>
      reserveLoop size n (if s.poolCount ≤ i + 1 then 0 else i + 1)
        { s with reserves := s.reserves + 1 }

/-- `ReservePmem`, with the pool and the offset of the object. -/
def reservePmem (size : ℕ) (s : KVSState) : Option (ℕ × ℕ) × KVSState :=
  L.reserveLoop size s.poolCount (s.nextPoolIndex % s.poolCount)
    { s with nextPoolIndex := toUInt64 (s.nextPoolIndex + 1) }

/-- Either branch of `KVSEncodeValue`, with the bytes that are stored. -/
def encodePayload (encoding : UInt8) (payload : Bytes) (s : KVSState) :
    Except Stop (Option (KVSRef × PobjAction) × KVSState) :=
  match L.reservePmem (1 + payload.length) s with
  | (none, s) => pure (none, s)
  | (some (i, off), s) => do
    -- `pmemobj_direct`
    let buf := L.addr s.opens i + off
    let pool ← s.pool (toUInt32 i)
    require (pool.baseAddr ≤ buf)
    let ref : KVSRef := ⟨encoding, toUInt32 payload.length, toUInt32 i, buf - pool.baseAddr⟩
    let mem := applyWrite s.mem (chunk buf [encoding])
    let mem := applyWrite mem (chunk (buf + 1) payload)
    pure (some (ref, ⟨off, toUInt32 i⟩), { s with mem := mem })

/-- `KVSEncodeValue`; the result is there if it returns `true`. -/
def kvsEncodeValue (value : Bytes) (compress : Bool) (s : KVSState) :
    Except Stop (Option (KVSRef × PobjAction) × KVSState) := do
  s.requirePools
  if !s.dcpmmIsAvail then pure (none, s)
  else if !compress then L.encodePayload kEncodingPtrUncompressed value s
  else L.encodePayload kEncodingPtrCompressed (L.rawCompress value) s

/-! ## Freeing -/

/-- `pmemobj_free`. -/
def pmemobjFree (uuidLo off : ℕ) (objects : List Obj) : List Obj :=
  objects.filter fun o => !(L.uuidLo o.pool == uuidLo && o.off == off)

/-- `FreePmem`. -/
def freePmem (ref : KVSRef) (s : KVSState) : Except Stop KVSState := do
  let pool ← s.pool ref.poolIndex
  let s := { s with objects := L.pmemobjFree pool.uuidLo ref.offInPool s.objects }
  if !s.dcpmmIsAvail then
    let s := { s with dcpmmAvailSize := toUInt64 (s.dcpmmAvailSize + ref.size) }
    if s.dcpmmAvailSizeMin < s.dcpmmAvailSize then
      pure { s with dcpmmAvailSize := 0, dcpmmIsAvail := true }
    else pure s
  else pure s

/-- `KVSFreeValue`, of a slice that points to a reference. -/
def kvsFreeValue (ref : KVSRef) (s : KVSState) : Except Stop KVSState :=
  if ref.encoding ≠ kEncodingRawCompressed ∧ ref.encoding ≠ kEncodingRawUncompressed then
    L.freePmem ref s
  else pure s

/-- `KVSDumpFromValueRef`, with the bytes of the slice that is handed to `add`. -/
def kvsDumpFromValueRef (ref : KVSRef) (s : KVSState) : Except Stop (Option Bytes × KVSState) := do
  s.requirePools
  if ref.encoding = kEncodingPtrCompressed ∨ ref.encoding = kEncodingPtrUncompressed then
    let pool ← s.pool ref.poolIndex
    let hdr := pool.baseAddr + ref.offInPool
    let encoding :=
      if ref.encoding = kEncodingPtrCompressed then kEncodingRawCompressed
      else kEncodingRawUncompressed
    let s := { s with mem := applyWrite s.mem (chunk hdr [encoding]) }
    let added := read s.mem hdr (ref.size + 1)
    let s ← L.freePmem ref s
    pure (some added, s)
  else pure (none, s)

/-! ## Decoding -/

/-- The decompression in `KVSDecodeValueRef`, which aborts if there is no length. -/
def decompress (src : Bytes) : Except Stop Bytes :=
  if L.snappyDefined then
    match L.getUncompressedLength src with
    | some n => pure ((L.rawUncompress src).take n)
    | none => .error .fault
  else .error .fault

/-- `KVSDecodeValueRef`, with what it assigns to `dst`. -/
def kvsDecodeValueRef (input : KVSValue) (size : ℕ) (s : KVSState) : Except Stop Bytes := do
  let (encoding, src) ← s.srcData input size
  if encoding = kEncodingRawUncompressed ∨ encoding = kEncodingPtrUncompressed then pure src
  else L.decompress src

/-! ## Publishing -/

/-- `pmemobj_publish`, for some reservations in a pool. -/
def pmemobjPublish (i : ℕ) (offs : List ℕ) (objects : List Obj) : List Obj :=
  objects.map fun o =>
    if o.pool = i ∧ o.off ∈ offs then { o with published := true } else o

/-- The loop of `KVSPublish` over the reservations in one pool, at most 32 at a time. -/
def publishLoop (i : ℕ) : ℕ → List ℕ → List Obj → Except Stop (List Obj)
  | 0, _, _ => .error .exhausted
  | fuel + 1, offs, objects =>
    if offs.length = 0 then .ok objects
    else
      let n := min offs.length 32
      publishLoop i fuel (offs.drop n) (pmemobjPublish i (offs.take n) objects)

/-- The loop of `KVSPublish` over the `n` pools from the pool `i` on. -/
def publishPools (pacts : List PobjAction) : ℕ → ℕ → List Obj → Except Stop (List Obj)
  | 0, _, objects => .ok objects
  | n + 1, i, objects => do
    let offs := (pacts.filter fun pact => pact.poolIndex = i).map fun pact => pact.off
    let objects ← publishLoop i (offs.length + 1) offs objects
    publishPools pacts n (i + 1) objects

/-- `KVSPublish`. -/
def kvsPublish (pacts : List PobjAction) (s : KVSState) : Except Stop KVSState := do
  s.requirePools
  require (∀ pact ∈ pacts, pact.poolIndex < s.poolCount)
  let objects ← publishPools pacts s.poolCount 0 s.objects
  pure { s with objects := objects }

end Libraries

end PmemKv
