import PmemKv.Library.AtomicProg
import PmemKv.ValueStore.Pools

/-!
# The value store as programs of threads

`next_pool_index_`, `dcpmm_avail_size_` and `dcpmm_is_avail_` are `std::atomic`: several threads may
store, read and give back values at the same time.  Here the source functions are programs over the
accesses that other threads can come between: one access of a static variable, one call of
`libpmemobj`, one byte that is copied from or to a pool.  `pools_`, `pool_count_` and
`dcpmm_avail_size_min_` are written by `KVSOpen` and `KVSCLose` only.

A program that runs alone does what the function of the same name does in one step.
-/

namespace PmemKv

open AtomicProg AtomicProg.Prog PersistentMemory

/-- An access that other threads can come before and after. -/
inductive KvsOp : Type
  /-- `pools_` is not `nullptr`. -/
  | poolsOpen
  /-- Read `pools_[i]`. -/
  | pool (i : ℕ)
  /-- Read `pool_count_`. -/
  | poolCount
  /-- Read `dcpmm_avail_size_min_`. -/
  | availSizeMin
  /-- Load `dcpmm_is_avail_`. -/
  | isAvail
  /-- Store `dcpmm_is_avail_`. -/
  | setAvail (b : Bool)
  /-- `dcpmm_avail_size_ += n`, with the new value. -/
  | addAvailSize (n : ℕ)
  /-- Store `dcpmm_avail_size_`. -/
  | setAvailSize (n : ℕ)
  /-- `next_pool_index_++`, with the old value. -/
  | nextPoolIndex
  /-- `pmemobj_reserve` in the pool `i`, with the offset of the object. -/
  | reserve (i size : ℕ)
  /-- `pmemobj_direct`. -/
  | direct (i off : ℕ)
  /-- `pmemobj_free`. -/
  | free (uuidLo off : ℕ)
  /-- `pmemobj_publish`, for some reservations in the pool `i`. -/
  | publish (i : ℕ) (offs : List ℕ)
  /-- Load one byte. -/
  | load (a : ℕ)
  /-- Store one byte. -/
  | store (a : ℕ) (b : UInt8)

/-- What an access answers. -/
@[reducible] def KvsOp.Ret : KvsOp → Type
  | .poolsOpen => Bool
  | .pool _ => Option Pool
  | .poolCount => ℕ
  | .availSizeMin => ℕ
  | .isAvail => Bool
  | .setAvail _ => Unit
  | .addAvailSize _ => ℕ
  | .setAvailSize _ => Unit
  | .nextPoolIndex => ℕ
  | .reserve _ _ => Option ℕ
  | .direct _ _ => ℕ
  | .free _ _ => Unit
  | .publish _ _ => Unit
  | .load _ => UInt8
  | .store _ _ => Unit

/-- A program of the value store. -/
abbrev KvsProg (β : Type) : Type := Prog KvsOp KvsOp.Ret β

namespace Shared

/-- `pools_[i]`, which must be there. -/
def poolAt (i : ℕ) : KvsProg Pool := do
  match ← perform (KvsOp.pool i) with
  | some pool => pure pool
  | none => fault

/-- Copy bytes to the address `a`. -/
def copyTo : ℕ → Bytes → KvsProg Unit
  | _, [] => pure ()
  | a, b :: bs => do
    perform (KvsOp.store a b)
    copyTo (a + 1) bs

/-- Copy `n` bytes from the address `a`. -/
def copyFrom : ℕ → ℕ → KvsProg Bytes
  | _, 0 => pure []
  | a, n + 1 => do
    let b ← perform (KvsOp.load a)
    let bs ← copyFrom (a + 1) n
    pure (b :: bs)

/-- The loop of `ReservePmem`, with `retry_loop - i` rounds left. -/
def reserveLoop (size : ℕ) : ℕ → ℕ → KvsProg (Option (ℕ × ℕ))
  | 0, _ => do
    perform (KvsOp.setAvail false)
    pure none
  | n + 1, i => do
    match ← perform (KvsOp.reserve i size) with
    | some off => pure (some (i, off))
    | none => do
      let poolCount ← perform KvsOp.poolCount
      reserveLoop size n (if poolCount ≤ i + 1 then 0 else i + 1)

/-- `ReservePmem`. -/
def reservePmem (size : ℕ) : KvsProg (Option (ℕ × ℕ)) := do
  let next ← perform KvsOp.nextPoolIndex
  let poolCount ← perform KvsOp.poolCount
  reserveLoop size poolCount (next % poolCount)

/-- Either branch of `KVSEncodeValue`. -/
def encodePayload (encoding : UInt8) (payload : Bytes) :
    KvsProg (Option (KVSRef × PobjAction)) := do
  match ← reservePmem (1 + payload.length) with
  | none => pure none
  | some (i, off) => do
    let buf ← perform (KvsOp.direct i off)
    let pool ← poolAt (toUInt32 i)
    check (pool.baseAddr ≤ buf)
    let ref : KVSRef := ⟨encoding, toUInt32 payload.length, toUInt32 i, buf - pool.baseAddr⟩
    copyTo buf [encoding]
    copyTo (buf + 1) payload
    pure (some (ref, ⟨off, toUInt32 i⟩))

/-- `assert(pools_)`. -/
def requirePools : KvsProg Unit := do
  let isOpen ← perform KvsOp.poolsOpen
  check isOpen

/-- `FreePmem`. -/
def freePmem (ref : KVSRef) : KvsProg Unit := do
  let pool ← poolAt ref.poolIndex
  perform (KvsOp.free pool.uuidLo ref.offInPool)
  let isAvail ← perform KvsOp.isAvail
  if !isAvail then do
    let availSize ← perform (KvsOp.addAvailSize ref.size)
    let availSizeMin ← perform KvsOp.availSizeMin
    if availSizeMin < availSize then do
      perform (KvsOp.setAvailSize 0)
      perform (KvsOp.setAvail true)
    else pure ()
  else pure ()

/-- `KVSFreeValue`. -/
def kvsFreeValue (ref : KVSRef) : KvsProg Unit :=
  if ref.encoding ≠ kEncodingRawCompressed ∧ ref.encoding ≠ kEncodingRawUncompressed then
    freePmem ref
  else pure ()

/-- `KVSDumpFromValueRef`; `add` copies the bytes that it is handed. -/
def kvsDumpFromValueRef (ref : KVSRef) : KvsProg (Option Bytes) := do
  requirePools
  if ref.encoding = kEncodingPtrCompressed ∨ ref.encoding = kEncodingPtrUncompressed then do
    let pool ← poolAt ref.poolIndex
    let hdr := pool.baseAddr + ref.offInPool
    let encoding :=
      if ref.encoding = kEncodingPtrCompressed then kEncodingRawCompressed
      else kEncodingRawUncompressed
    perform (KvsOp.store hdr encoding)
    let added ← copyFrom hdr (ref.size + 1)
    freePmem ref
    pure (some added)
  else pure none

/-- The loop of `KVSPublish` over the reservations in one pool. -/
def publishLoop (i : ℕ) : ℕ → List ℕ → KvsProg Unit
  | 0, _ => exhausted
  | fuel + 1, offs =>
    if offs.length = 0 then pure ()
    else do
      let n := min offs.length 32
      perform (KvsOp.publish i (offs.take n))
      publishLoop i fuel (offs.drop n)

/-- The loop of `KVSPublish` over the `n` pools from the pool `i` on. -/
def publishPools (pacts : List PobjAction) : ℕ → ℕ → KvsProg Unit
  | 0, _ => pure ()
  | n + 1, i => do
    let offs := (pacts.filter fun pact => pact.poolIndex = i).map fun pact => pact.off
    publishLoop i (offs.length + 1) offs
    publishPools pacts n (i + 1)

/-- `KVSPublish`. -/
def kvsPublish (pacts : List PobjAction) : KvsProg Unit := do
  requirePools
  let poolCount ← perform KvsOp.poolCount
  check (pacts.all fun pact => pact.poolIndex < poolCount)
  publishPools pacts poolCount 0

variable (L : Libraries)

/-- `KVSEncodeValue`. -/
def kvsEncodeValue (value : Bytes) (compress : Bool) : KvsProg (Option (KVSRef × PobjAction)) := do
  requirePools
  let isAvail ← perform KvsOp.isAvail
  if !isAvail then pure none
  else if !compress then encodePayload kEncodingPtrUncompressed value
  else encodePayload kEncodingPtrCompressed (L.rawCompress value)

/-- `KVSDecodeValueRef` of a reference; `snappy` reads the bytes twice. -/
def kvsDecodeValueRef (ref : KVSRef) (size : ℕ) : KvsProg Bytes := do
  check (ref.encoding = kEncodingPtrUncompressed ∨ ref.encoding = kEncodingPtrCompressed)
  check (size = sizeofKVSRef)
  let pool ← poolAt ref.poolIndex
  let src := pool.baseAddr + ref.offInPool + 1
  if ref.encoding = kEncodingPtrUncompressed then copyFrom src ref.size
  else if L.snappyDefined then do
    let bytes ← copyFrom src ref.size
    match L.getUncompressedLength bytes with
    | some n => do
      let bytes ← copyFrom src ref.size
      pure ((L.rawUncompress bytes).take n)
    | none => fault
  else fault

/-- The effect of an access. -/
def execKvs : (o : KvsOp) → KVSState → o.Ret × KVSState
  | .poolsOpen, s => (s.pools.isSome, s)
  | .pool i, s => (if i < s.poolCount then s.pools.map fun pools => pools i else none, s)
  | .poolCount, s => (s.poolCount, s)
  | .availSizeMin, s => (s.dcpmmAvailSizeMin, s)
  | .isAvail, s => (s.dcpmmIsAvail, s)
  | .setAvail b, s => ((), { s with dcpmmIsAvail := b })
  | .addAvailSize n, s =>
    (toUInt64 (s.dcpmmAvailSize + n), { s with dcpmmAvailSize := toUInt64 (s.dcpmmAvailSize + n) })
  | .setAvailSize n, s => ((), { s with dcpmmAvailSize := n })
  | .nextPoolIndex, s =>
      (s.nextPoolIndex, { s with nextPoolIndex := toUInt64 (s.nextPoolIndex + 1) })
  | .reserve i size, s =>
    match L.reserve s.reserves s.objects i size with
    | some off =>
      (some off,
        { s with objects := ⟨i, off, size, false⟩ :: s.objects, reserves := s.reserves + 1 })
    | none => (none, { s with reserves := s.reserves + 1 })
  | .direct i off, s => (L.addr s.opens i + off, s)
  | .free uuidLo off, s => ((), { s with objects := L.pmemobjFree uuidLo off s.objects })
  | .publish i offs, s => ((), { s with objects := Libraries.pmemobjPublish i offs s.objects })
  | .load a, s => (s.mem a, s)
  | .store a b, s => ((), { s with mem := applyWrite s.mem (chunk a [b]) })

/-- What becomes of a function that runs in one step. -/
def ofExcept {β : Type} : Except Stop (β × KVSState) → Outcome β KVSState
  | .ok (a, s) => .done a s
  | .error .fault => .fault
  | .error .exhausted => .exhausted

variable {L} {s : KVSState}

lemma run_poolAt (i : ℕ) :
    run (execKvs L) (poolAt i) s = ofExcept ((s.pool i).map fun pool => (pool, s)) := by
  have hstep : execKvs L (.pool i) s =
      (if i < s.poolCount then s.pools.map fun pools => pools i else none, s) := rfl
  unfold poolAt KVSState.pool
  rw [run_perform_bind, hstep]
  cases s.pools with
  | none =>
    rw [Option.map_none, ite_self]
    rfl
  | some pools =>
    by_cases hi : i < s.poolCount
    · rw [if_pos hi]
      simp only [if_pos hi]
      rfl
    · rw [if_neg hi]
      simp only [if_neg hi]
      rfl

lemma run_requirePools :
    run (execKvs L) requirePools s = ofExcept (s.requirePools.map fun _ => ((), s)) := by
  unfold KVSState.requirePools require
  have hstep : execKvs L .poolsOpen s = (s.pools.isSome, s) := rfl
  unfold requirePools
  rw [run_perform_bind, hstep]
  cases s.pools.isSome <;> rfl

lemma run_copyTo (a : ℕ) (bs : Bytes) :
    run (execKvs L) (copyTo a bs) s = .done () { s with mem := applyWrite s.mem (chunk a bs) } := by
  induction bs generalizing a s with
  | nil => rfl
  | cons b bs ih =>
    have hrun : run (execKvs L) (copyTo a (b :: bs)) s =
        run (execKvs L) (copyTo (a + 1) bs) { s with mem := applyWrite s.mem (chunk a [b]) } := rfl
    rw [hrun, ih, ← List.singleton_append, chunk_append, applyWrite_append]
    rfl

lemma run_copyFrom (a n : ℕ) :
    run (execKvs L) (copyFrom a n) s = .done (read s.mem a n) s := by
  induction n generalizing a with
  | zero => rfl
  | succ n ih =>
    have hrun : run (execKvs L) (copyFrom a (n + 1)) s =
        run (execKvs L) (copyFrom (a + 1) n >>= fun bs => Prog.done (s.mem a :: bs)) s := rfl
    rw [hrun, run_bind_of (ih (a + 1))]
    rfl

lemma run_reserveLoop (size n i : ℕ) :
    run (execKvs L) (reserveLoop size n i) s =
      .done (L.reserveLoop size n i s).1 (L.reserveLoop size n i s).2 := by
  induction n generalizing i s with
  | zero => rfl
  | succ n ih =>
    unfold reserveLoop Libraries.reserveLoop
    rw [run_perform_bind, execKvs]
    cases L.reserve s.reserves s.objects i size with
    | some off => rfl
    | none =>
      simp only
      rw [run_perform_bind]
      exact ih _

lemma run_reservePmem (size : ℕ) :
    run (execKvs L) (reservePmem size) s =
      .done (L.reservePmem size s).1 (L.reservePmem size s).2 := by
  unfold reservePmem
  rw [run_perform_bind, run_perform_bind]
  exact run_reserveLoop size _ _

/-- What follows a part of a function, if there is anything to follow it. -/
lemma run_bind_ofExcept {β γ ε : Type} {p : KvsProg β} {f : β → KvsProg γ} {x : Except Stop ε}
    {b : ε → β} {s' : ε → KVSState} {g : ε → Except Stop (γ × KVSState)}
    (hp : run (execKvs L) p s = ofExcept (x.map fun a => (b a, s' a)))
    (hf : ∀ a, x = .ok a → run (execKvs L) (f (b a)) (s' a) = ofExcept (g a)) :
    run (execKvs L) (p >>= f) s = ofExcept (x >>= g) := by
  rw [run_bind, hp]
  match x with
  | .ok a => exact hf a rfl
  | .error .fault => rfl
  | .error .exhausted => rfl

lemma run_check (c : Prop) [Decidable c] :
    run (execKvs L) (check c) s = ofExcept ((require c).map fun _ => ((), s)) := by
  unfold require check
  by_cases hc : c
  · rw [if_pos hc, if_pos (decide_eq_true hc)]
    rfl
  · rw [if_neg hc, if_neg (by simpa using hc)]
    rfl

lemma run_encodePayload (encoding : UInt8) (payload : Bytes) :
    run (execKvs L) (encodePayload encoding payload) s =
      ofExcept (L.encodePayload encoding payload s) := by
  unfold encodePayload Libraries.encodePayload
  rw [run_bind, run_reservePmem]
  rcases L.reservePmem (1 + payload.length) s with ⟨_ | ⟨i, off⟩, s'⟩
  · rfl
  · simp only
    rw [run_perform_bind]
    refine run_bind_ofExcept (run_poolAt _) fun pool _ => ?_
    refine run_bind_ofExcept (run_check _) fun _ _ => ?_
    rw [run_bind_of (run_copyTo _ _), run_bind_of (run_copyTo _ _)]
    rfl

/-- **`KVSEncodeValue`** alone. -/
theorem run_kvsEncodeValue (value : Bytes) (compress : Bool) :
    run (execKvs L) (kvsEncodeValue L value compress) s =
      ofExcept (L.kvsEncodeValue value compress s) := by
  unfold kvsEncodeValue Libraries.kvsEncodeValue
  refine run_bind_ofExcept run_requirePools fun _ _ => ?_
  rw [run_perform_bind, execKvs]
  cases s.dcpmmIsAvail with
  | false => rfl
  | true =>
    cases compress with
    | false => exact run_encodePayload _ _
    | true => exact run_encodePayload _ _

/-- The result of a function is passed on. -/
lemma map_bind {β γ ε : Type} (x : Except Stop β) (g : β → Except Stop γ) (h : γ → ε) :
    (x >>= g).map h = x >>= fun b => (g b).map h := by
  cases x <;> rfl

lemma run_freePmem (ref : KVSRef) :
    run (execKvs L) (freePmem ref) s = ofExcept ((L.freePmem ref s).map fun s' => ((), s')) := by
  unfold freePmem Libraries.freePmem
  rw [map_bind]
  refine run_bind_ofExcept (run_poolAt _) fun pool _ => ?_
  rw [run_perform_bind, run_perform_bind, execKvs, execKvs]
  simp only
  cases s.dcpmmIsAvail with
  | true => rfl
  | false =>
    simp only [Bool.not_false, if_true]
    rw [run_perform_bind, run_perform_bind, execKvs, execKvs]
    split <;> rfl

/-- **`KVSFreeValue`** alone. -/
theorem run_kvsFreeValue (ref : KVSRef) :
    run (execKvs L) (kvsFreeValue ref) s =
      ofExcept ((L.kvsFreeValue ref s).map fun s' => ((), s')) := by
  unfold kvsFreeValue Libraries.kvsFreeValue
  split
  · exact run_freePmem ref
  · rfl

/-- **`KVSDumpFromValueRef`** alone. -/
theorem run_kvsDumpFromValueRef (ref : KVSRef) :
    run (execKvs L) (kvsDumpFromValueRef ref) s = ofExcept (L.kvsDumpFromValueRef ref s) := by
  unfold kvsDumpFromValueRef Libraries.kvsDumpFromValueRef
  refine run_bind_ofExcept run_requirePools fun _ _ => ?_
  split
  · refine run_bind_ofExcept (run_poolAt _) fun pool _ => ?_
    rw [run_perform_bind, run_bind_of (run_copyFrom _ _)]
    exact run_bind_ofExcept (run_freePmem ref) fun _ _ => rfl
  · rfl

/-- **`KVSDecodeValueRef`** alone. -/
theorem run_kvsDecodeValueRef (ref : KVSRef) (size : ℕ) :
    run (execKvs L) (kvsDecodeValueRef L ref size) s =
      ofExcept ((L.kvsDecodeValueRef (.ref ref) size s).map fun bs => (bs, s)) := by
  unfold kvsDecodeValueRef Libraries.kvsDecodeValueRef KVSState.srcData
  simp only [bind_assoc]
  rw [map_bind]
  refine run_bind_ofExcept (run_check _) fun _ hcode => ?_
  rw [map_bind]
  refine run_bind_ofExcept (run_check _) fun _ _ => ?_
  rw [map_bind]
  refine run_bind_ofExcept (run_poolAt _) fun pool _ => ?_
  have hraw : ref.encoding ≠ kEncodingRawUncompressed := by
    rcases require_eq_ok.mp hcode with heq | heq <;> rw [heq] <;> decide
  simp only [pure_bind, hraw, false_or]
  by_cases hplain : ref.encoding = kEncodingPtrUncompressed
  · rw [if_pos hplain, if_pos hplain, run_copyFrom]
    rfl
  · rw [if_neg hplain, if_neg hplain]
    unfold Libraries.decompress
    cases L.snappyDefined with
    | false => rfl
    | true =>
      simp only [if_true]
      rw [run_bind_of (run_copyFrom _ _)]
      cases L.getUncompressedLength (read s.mem (pool.baseAddr + ref.offInPool + 1) ref.size) with
      | none => rfl
      | some n =>
        simp only
        rw [run_bind_of (run_copyFrom _ _)]
        rfl

lemma run_publishLoop (i fuel : ℕ) (offs : List ℕ) :
    run (execKvs L) (publishLoop i fuel offs) s =
      ofExcept ((Libraries.publishLoop i fuel offs s.objects).map fun objects =>
        ((), { s with objects := objects })) := by
  induction fuel generalizing offs s with
  | zero => rfl
  | succ fuel ih =>
    unfold publishLoop Libraries.publishLoop
    split
    · rfl
    · simp only
      rw [run_perform_bind]
      exact ih _

lemma run_publishPools (pacts : List PobjAction) (n i : ℕ) :
    run (execKvs L) (publishPools pacts n i) s =
      ofExcept ((Libraries.publishPools pacts n i s.objects).map fun objects =>
        ((), { s with objects := objects })) := by
  induction n generalizing i s with
  | zero => rfl
  | succ n ih =>
    unfold publishPools Libraries.publishPools
    simp only
    rw [map_bind]
    exact run_bind_ofExcept (run_publishLoop i _ _) fun objects _ => ih (i + 1)

/-- **`KVSPublish`** alone. -/
theorem run_kvsPublish (pacts : List PobjAction) :
    run (execKvs L) (kvsPublish pacts) s =
      ofExcept ((Libraries.kvsPublish pacts s).map fun s' => ((), s')) := by
  have hall : (pacts.all fun pact => pact.poolIndex < s.poolCount) =
      decide (∀ pact ∈ pacts, pact.poolIndex < s.poolCount) := by
    rw [Bool.eq_iff_iff, List.all_eq_true, decide_eq_true_iff]
    simp only [decide_eq_true_iff]
  unfold kvsPublish Libraries.kvsPublish
  rw [map_bind]
  refine run_bind_ofExcept run_requirePools fun _ _ => ?_
  rw [run_perform_bind, execKvs]
  simp only
  rw [hall, map_bind]
  refine run_bind_ofExcept (run_check _) fun _ _ => ?_
  rw [map_bind, run_publishPools]
  cases Libraries.publishPools pacts s.poolCount 0 s.objects <;> rfl

end Shared

end PmemKv
