import PmemKv.ValueStore.PoolSpec

/-!
# The references that are live

A ledger lists the values that `KVSEncodeValue` has stored and that were not freed or dumped since,
each with its reference and its reservation.  The objects in the pools are exactly those of the
ledger, and every one holds the encoding and the stored bytes of its value (`Ledger`).  Each call
keeps this.
-/

namespace PmemKv

open PersistentMemory

/-- A value that was stored, with what `KVSEncodeValue` filled in. -/
structure StoredValue where
  /-- The reference. -/
  ref : KVSRef
  /-- The reservation. -/
  pact : PobjAction
  /-- The value. -/
  value : Bytes
  /-- It was to be compressed. -/
  compress : Bool
  /-- Its reservation was published. -/
  published : Bool
  deriving DecidableEq

/-- The value store and the ledger. -/
structure KvsRun where
  /-- The value store. -/
  s : KVSState
  /-- The values that are stored. -/
  live : List StoredValue

/-- A call that stores, publishes or gives back values. -/
inductive KvsCall : Type
  /-- `KVSEncodeValue`. -/
  | encode (value : Bytes) (compress : Bool)
  /-- `KVSPublish`. -/
  | publish (pacts : List PobjAction)
  /-- `KVSFreeValue`. -/
  | free (ref : KVSRef)
  /-- `KVSDumpFromValueRef`. -/
  | dump (ref : KVSRef)

namespace Libraries

variable (L : Libraries)

/-- The encoding of a stored value. -/
def ptrEncoding (compress : Bool) : UInt8 :=
  if compress then kEncodingPtrCompressed else kEncodingPtrUncompressed

/-- The stored payload of a value. -/
def payload (compress : Bool) (value : Bytes) : Bytes :=
  if compress then L.rawCompress value else value

/-- The object of a stored value. -/
def valueObj (x : StoredValue) : Obj :=
  ⟨x.pact.poolIndex, x.pact.off, 1 + (L.payload x.compress x.value).length, x.published⟩

/-- A call, and what it does to the ledger. -/
def runCall (call : KvsCall) (r : KvsRun) : Except Stop KvsRun :=
  match call with
  | .encode value compress => do
    let (res, s) ← L.kvsEncodeValue value compress r.s
    match res with
    | some (ref, pact) => pure ⟨s, ⟨ref, pact, value, compress, false⟩ :: r.live⟩
    | none => pure ⟨s, r.live⟩
  | .publish pacts => do
    let s ← kvsPublish pacts r.s
    pure ⟨s, r.live.map fun x => if x.pact ∈ pacts then { x with published := true } else x⟩
  | .free ref => do
    let s ← L.kvsFreeValue ref r.s
    pure ⟨s, r.live.filter fun x => decide (x.ref ≠ ref)⟩
  | .dump ref => do
    let (_, s) ← L.kvsDumpFromValueRef ref r.s
    pure ⟨s, r.live.filter fun x => decide (x.ref ≠ ref)⟩

/-- A reference that does not point into a pool. -/
def IsRaw (ref : KVSRef) : Prop :=
  ref.encoding = kEncodingRawCompressed ∨ ref.encoding = kEncodingRawUncompressed

/-- The pools are open, the pools of reservations are there, and what is freed or dumped is live. -/
def AdmitsCall (r : KvsRun) : KvsCall → Prop
  | .encode _ _ => r.s.pools.isSome = true
  | .publish pacts => r.s.pools.isSome = true ∧ ∀ pact ∈ pacts, pact.poolIndex < r.s.poolCount
  | .free ref => IsRaw ref ∨ r.s.pools.isSome = true ∧ ∃ x ∈ r.live, x.ref = ref
  | .dump ref => r.s.pools.isSome = true ∧ (IsRaw ref ∨ ∃ x ∈ r.live, x.ref = ref)

/-- The reference of a stored value, and the bytes of its object. -/
structure Stored (s : KVSState) (x : StoredValue) : Prop where
  /-- The encoding. -/
  encoding_eq : x.ref.encoding = ptrEncoding x.compress
  /-- The size of the payload. -/
  size_eq : x.ref.size = toUInt32 (L.payload x.compress x.value).length
  /-- The pool. -/
  poolIndex_eq : x.ref.poolIndex = x.pact.poolIndex
  /-- The offset. -/
  offInPool_eq : x.ref.offInPool = x.pact.off
  /-- The object has a header, followed by the payload. -/
  bytes : read s.mem (objAddr L s.opens (L.valueObj x)) (L.valueObj x).size =
    ptrEncoding x.compress :: L.payload x.compress x.value

/-- The pools are mapped, and their objects are those of the ledger. -/
structure Ledger (count : ℕ) (r : KvsRun) : Prop where
  /-- The table of the open pools. -/
  pools_eq : ∀ pools, r.s.pools = some pools →
    r.s.poolCount = count ∧ ∀ i < count, pools i = ⟨L.uuidLo i, L.addr r.s.opens i⟩
  /-- Every object is that of a value. -/
  objects_eq : r.s.objects = r.live.map L.valueObj
  /-- The objects do not overlap. -/
  objects : Objects L count r.s.objects
  /-- The values are stored. -/
  stored : ∀ x ∈ r.live, L.Stored r.s x

variable {L} {count i : ℕ} {r : KvsRun} {s s' : KVSState} {x y : StoredValue}

/-! ## What the invariant says -/

lemma objAddr_valueObj (e : ℕ) (x : StoredValue) :
    objAddr L e (L.valueObj x) = L.addr e x.pact.poolIndex + x.pact.off := rfl

lemma Ledger.mem_objects (h : L.Ledger count r) (hx : x ∈ r.live) : L.valueObj x ∈ r.s.objects := by
  rw [h.objects_eq]
  exact List.mem_map_of_mem hx

lemma Ledger.inside (h : L.Ledger count r) (hx : x ∈ r.live) : Inside L count (L.valueObj x) :=
  h.objects.inside _ (h.mem_objects hx)

/-- Two values have objects that are apart. -/
lemma Ledger.apart (h : L.Ledger count r) (hx : x ∈ r.live) (hy : y ∈ r.live) (hne : x ≠ y) :
    Apart (L.valueObj x) (L.valueObj y) := by
  have hpair := h.objects.apart
  rw [h.objects_eq, List.pairwise_map] at hpair
  have : Std.Symm fun x y => Apart (L.valueObj x) (L.valueObj y) := ⟨fun _ _ h => h.symm⟩
  exact hpair.forall hx hy hne

/-- A value is determined by its reference. -/
lemma Ledger.eq_of_pact (h : L.Ledger count r) (hx : x ∈ r.live) (hy : y ∈ r.live)
    (hpact : x.pact = y.pact) : x = y := by
  by_contra hne
  have hxs := (h.inside hx).pos
  have hys := (h.inside hy).pos
  have hoff : (L.valueObj x).off = (L.valueObj y).off := congrArg PobjAction.off hpact
  rcases h.apart hx hy hne (congrArg PobjAction.poolIndex hpact) with hle | hle <;> omega

lemma Ledger.pact_eq_iff (h : L.Ledger count r) (hx : x ∈ r.live) (hy : y ∈ r.live) :
    x.pact = y.pact ↔ x.ref = y.ref := by
  constructor
  · intro hpact
    rw [h.eq_of_pact hx hy hpact]
  · intro href
    have hp := (h.stored x hx).poolIndex_eq
    have ho := (h.stored x hx).offInPool_eq
    rw [href, (h.stored y hy).poolIndex_eq] at hp
    rw [href, (h.stored y hy).offInPool_eq] at ho
    cases hxp : x.pact
    cases hyp : y.pact
    simp_all

/-- The pools are found. -/
lemma Ledger.pool_eq (h : L.Ledger count r) (hopen : r.s.pools.isSome = true) (hi : i < count) :
    r.s.pool i = .ok ⟨L.uuidLo i, L.addr r.s.opens i⟩ := by
  obtain ⟨pools, hpools⟩ := Option.isSome_iff_exists.mp hopen
  obtain ⟨hcount, heq⟩ := h.pools_eq pools hpools
  unfold KVSState.pool
  rw [hpools]
  simp only
  rw [if_pos (by rwa [hcount]), heq i hi]

/-- Changes that the objects and the memory take no notice of. -/
lemma Ledger.congr (h : L.Ledger count r) (hpools : s'.pools = r.s.pools)
    (hcount : s'.poolCount = r.s.poolCount) (hopens : s'.opens = r.s.opens)
    (hobjects : s'.objects = r.s.objects) (hmem : s'.mem = r.s.mem) :
    L.Ledger count ⟨s', r.live⟩ := by
  constructor
  · rw [hpools, hcount, hopens]
    exact h.pools_eq
  · rw [hobjects]
    exact h.objects_eq
  · rw [hobjects]
    exact h.objects
  · intro x hx
    obtain ⟨h₁, h₂, h₃, h₄, h₅⟩ := h.stored x hx
    exact ⟨h₁, h₂, h₃, h₄, by rwa [hmem, hopens]⟩

/-- A value stays stored if no byte of its object changes. -/
lemma Stored.of_mem_eq (hx : L.Stored s x) (hopens : s'.opens = s.opens)
    (hmem : ∀ a, objAddr L s.opens (L.valueObj x) ≤ a →
      a < objAddr L s.opens (L.valueObj x) + (L.valueObj x).size → s'.mem a = s.mem a) :
    L.Stored s' x := by
  obtain ⟨h₁, h₂, h₃, h₄, h₅⟩ := hx
  refine ⟨h₁, h₂, h₃, h₄, ?_⟩
  rw [hopens, ← h₅, read_eq_read]
  exact hmem

/-- A value stays stored when an object apart from its own is written. -/
lemma Stored.of_write (hL : L.Lawful count) (hx : L.Stored s x)
    (hin : Inside L count (L.valueObj x))
    {o : Obj} (ho : Inside L count o) (hapart : Apart o (L.valueObj x))
    (hopens : s'.opens = s.opens)
    {bs : Bytes} (hsize : bs.length ≤ o.size)
    (hmem : s'.mem = applyWrite s.mem (chunk (objAddr L s.opens o) bs)) : L.Stored s' x := by
  refine hx.of_mem_eq hopens fun a ha₁ ha₂ => ?_
  rw [hmem]
  apply applyWrite_of_forall_ne
  intro p hp
  obtain ⟨hp₁, hp₂⟩ := mem_chunk hp
  rcases hL.objAddr_apart s.opens ho hin hapart with hle | hle <;> omega

/-! ## Encoding -/

lemma requirePools_eq (hopen : s.pools.isSome = true) : s.requirePools = .ok () := if_pos hopen

lemma kvsEncodeValue_eq (hopen : s.pools.isSome = true) (value : Bytes) (compress : Bool) :
    L.kvsEncodeValue value compress s =
      if s.dcpmmIsAvail then L.encodePayload (ptrEncoding compress) (L.payload compress value) s
      else .ok (none, s) := by
  unfold kvsEncodeValue ptrEncoding payload
  rw [requirePools_eq hopen]
  cases s.dcpmmIsAvail with
  | false => rfl
  | true =>
    cases compress with
    | false => rfl
    | true => rfl

/-- When no pool has room, the flag is cleared. -/
lemma encodePayload_none (code : UInt8) {bs : Bytes}
    (h : L.reservePmem (1 + bs.length) s = (none, s')) :
    L.encodePayload code bs s = .ok (none, s') ∧ ∃ n t, s' =
      { s with nextPoolIndex := n, dcpmmIsAvail := false, reserves := t } := by
  constructor
  · unfold encodePayload
    rw [h]
    rfl
  · obtain ⟨t, ht⟩ := reserveLoop_none h
    exact ⟨_, t, ht⟩

/-- `ReservePmem` makes an object in a pool that has room. -/
lemma reservePmem_some {size j off : ℕ} (hcount : s.poolCount = count)
    (h : L.reservePmem size s = (some (j, off), s')) :
    ∃ n t, j < count ∧ L.reserve t s.objects j size = some off ∧
      s' = { s with
        nextPoolIndex := n, objects := ⟨j, off, size, false⟩ :: s.objects, reserves := t + 1 } := by
  have hpos : 0 < count := by
    rw [← hcount, Nat.pos_iff_ne_zero]
    intro hzero
    unfold reservePmem at h
    rw [hzero] at h
    cases h
  have hindex : s.nextPoolIndex % s.poolCount < count := by
    rw [hcount]
    exact Nat.mod_lt _ hpos
  obtain ⟨hj, t, ht, hs'⟩ := reserveLoop_some
    (s := { s with nextPoolIndex := toUInt64 (s.nextPoolIndex + 1) }) hindex hcount h
  exact ⟨_, t, hj, ht, hs'⟩

/-- The pools are open. -/
structure Opened (L : Libraries) (count : ℕ) (s : KVSState) : Prop where
  /-- There is a table. -/
  isSome : s.pools.isSome = true
  /-- Its length. -/
  poolCount_eq : s.poolCount = count
  /-- Its entries. -/
  pool_eq : ∀ i < count, s.pool i = .ok ⟨L.uuidLo i, L.addr s.opens i⟩

lemma Ledger.opened (h : L.Ledger count r) (hopen : r.s.pools.isSome = true) :
    Opened L count r.s := by
  obtain ⟨pools, hpools⟩ := Option.isSome_iff_exists.mp hopen
  exact ⟨hopen, (h.pools_eq pools hpools).1, fun i hi => h.pool_eq hopen hi⟩

/-- When a pool has room, the header and the payload are written into the new object. -/
lemma encodePayload_some (hL : L.Lawful count) (h : Opened L count s) (code : UInt8) {bs : Bytes}
    {j off : ℕ} (hres : L.reservePmem (1 + bs.length) s = (some (j, off), s')) :
    ∃ n t, j < count ∧ L.reserve t s.objects j (1 + bs.length) = some off ∧
      L.encodePayload code bs s = .ok (some (⟨code, toUInt32 bs.length, j, off⟩, ⟨off, j⟩),
        { s with
          nextPoolIndex := n
          objects := ⟨j, off, 1 + bs.length, false⟩ :: s.objects
          reserves := t + 1
          mem := applyWrite s.mem (chunk (L.addr s.opens j + off) (code :: bs)) }) := by
  obtain ⟨n, t, hj, ht, rfl⟩ := reservePmem_some h.poolCount_eq hres
  refine ⟨n, t, hj, ht, ?_⟩
  have hpool : KVSState.pool { s with
      nextPoolIndex := n
      objects := ⟨j, off, 1 + bs.length, false⟩ :: s.objects
      reserves := t + 1 } j = .ok ⟨L.uuidLo j, L.addr s.opens j⟩ := h.pool_eq j hj
  unfold encodePayload
  rw [hres]
  simp only
  rw [hL.toUInt32_of_lt hj, hpool]
  simp only [bind, Except.bind, pure, Except.pure, require, Nat.le_add_right, if_true,
    Nat.add_sub_cancel_left]
  rw [← List.singleton_append, chunk_append, applyWrite_append]
  rfl

/-- The new object holds the value. -/
lemma stored_encode (s : KVSState) (value : Bytes) (compress : Bool) (n t j off : ℕ) :
    L.Stored { s with
        nextPoolIndex := n
        objects := ⟨j, off, 1 + (L.payload compress value).length, false⟩ :: s.objects
        reserves := t + 1
        mem := applyWrite s.mem (chunk (L.addr s.opens j + off)
          (ptrEncoding compress :: L.payload compress value)) }
      ⟨⟨ptrEncoding compress, toUInt32 (L.payload compress value).length, j, off⟩, ⟨off, j⟩, value,
        compress, false⟩ := by
  refine ⟨rfl, rfl, rfl, rfl, ?_⟩
  have hlen : 1 + (L.payload compress value).length =
      (ptrEncoding compress :: L.payload compress value).length := Nat.add_comm _ _
  change read _ _ (1 + (L.payload compress value).length) = _
  rw [hlen]
  exact read_applyWrite_chunk _ _ _

/-- Storing a value. -/
lemma Ledger.encode (hL : L.Lawful count) (h : L.Ledger count r) (hopen : r.s.pools.isSome = true)
    (value : Bytes) (compress : Bool) :
    ∃ r', L.runCall (.encode value compress) r = .ok r' ∧ L.Ledger count r' := by
  unfold runCall
  simp only [bind, Except.bind, pure, Except.pure]
  rw [kvsEncodeValue_eq hopen]
  by_cases havail : r.s.dcpmmIsAvail
  · rw [if_pos havail]
    rcases hres : L.reservePmem (1 + (L.payload compress value).length) r.s with
      ⟨_ | ⟨j, off⟩, s'⟩
    · obtain ⟨heq, n, t, rfl⟩ := encodePayload_none (ptrEncoding compress) hres
      rw [heq]
      exact ⟨_, rfl, h.congr rfl rfl rfl rfl rfl⟩
    · obtain ⟨n, t, hj, ht, heq⟩ := encodePayload_some hL (h.opened hopen)
        (ptrEncoding compress) hres
      rw [heq]
      refine ⟨_, rfl, ?_⟩
      have hcons := h.objects.cons hL hj (by omega) ht
      have hnew := hcons.inside _ List.mem_cons_self
      constructor
      · exact h.pools_eq
      · exact congrArg _ h.objects_eq
      · exact hcons
      · intro x hx
        rcases List.mem_cons.mp hx with rfl | hx
        · exact stored_encode r.s value compress n t j off
        · refine (h.stored x hx).of_write hL (h.inside hx) hnew ?_ rfl ?_ rfl
          · exact List.rel_of_pairwise_cons hcons.apart (h.mem_objects hx)
          · rw [List.length_cons, Nat.add_comm]
  · rw [if_neg havail]
    exact ⟨_, rfl, h⟩

/-! ## Freeing -/

/-- The bytes that are given back are counted while the flag is cleared. -/
def noteFreed (size : ℕ) (s : KVSState) : KVSState :=
  if s.dcpmmIsAvail then s
  else if s.dcpmmAvailSizeMin < toUInt64 (s.dcpmmAvailSize + size) then
    { s with dcpmmAvailSize := 0, dcpmmIsAvail := true }
  else { s with dcpmmAvailSize := toUInt64 (s.dcpmmAvailSize + size) }

/-- Counting changes neither the pools nor their objects. -/
lemma noteFreed_eq (size : ℕ) (s : KVSState) : ∃ n b, noteFreed size s =
    { s with dcpmmAvailSize := n, dcpmmIsAvail := b } := by
  unfold noteFreed
  split
  · exact ⟨_, _, rfl⟩
  · split
    · exact ⟨_, _, rfl⟩
    · exact ⟨_, _, rfl⟩

lemma freePmem_eq {ref : KVSRef} {pool : Pool} (hpool : s.pool ref.poolIndex = .ok pool) :
    L.freePmem ref s = .ok (noteFreed ref.size
      { s with objects := L.pmemobjFree pool.uuidLo ref.offInPool s.objects }) := by
  unfold freePmem noteFreed
  rw [hpool]
  simp only [bind, Except.bind, pure, Except.pure]
  cases s.dcpmmIsAvail with
  | true => rfl
  | false =>
    simp only [Bool.not_false, if_true, Bool.false_eq_true, if_false]
    split <;> rfl

lemma ptrEncoding_ne (compress : Bool) : ptrEncoding compress ≠ kEncodingRawCompressed ∧
    ptrEncoding compress ≠ kEncodingRawUncompressed := by
  cases compress <;> decide

lemma isPtr_of_eq {ref : KVSRef} {compress : Bool} (hcode : ref.encoding = ptrEncoding compress) :
    ref.encoding = kEncodingPtrCompressed ∨ ref.encoding = kEncodingPtrUncompressed := by
  rw [hcode]
  cases compress
  · exact Or.inr rfl
  · exact Or.inl rfl

lemma Stored.poolIndex_lt (hx : L.Stored s x) (hin : Inside L count (L.valueObj x)) :
    x.ref.poolIndex < count := by
  rw [hx.poolIndex_eq]
  exact hin.pool_lt

/-- `pmemobj_free` removes the object of one value. -/
lemma Ledger.pmemobjFree_eq (hL : L.Lawful count) (h : L.Ledger count r) (hx : x ∈ r.live) :
    L.pmemobjFree (L.uuidLo x.ref.poolIndex) x.ref.offInPool r.s.objects =
      (r.live.filter fun y => decide (y.ref ≠ x.ref)).map L.valueObj := by
  have hxs := h.stored x hx
  unfold pmemobjFree
  rw [h.objects_eq, List.filter_map]
  congr 1
  apply List.filter_congr
  intro y hy
  rw [hxs.poolIndex_eq, hxs.offInPool_eq, Function.comp_apply, decide_not]
  congr 1
  rw [Bool.eq_iff_iff, Bool.and_eq_true, beq_iff_eq, beq_iff_eq, decide_eq_true_iff,
    ← h.pact_eq_iff hy hx]
  constructor
  · rintro ⟨hu, hoff⟩
    have hp := hL.uuidLo_inj _ (h.inside hy).pool_lt _ (h.inside hx).pool_lt hu
    change y.pact.poolIndex = x.pact.poolIndex at hp
    change y.pact.off = x.pact.off at hoff
    cases hxp : x.pact
    cases hyp : y.pact
    simp_all
  · intro hpact
    exact ⟨congrArg _ (congrArg PobjAction.poolIndex hpact), congrArg PobjAction.off hpact⟩

/-- A value is removed; at most its object was written to. -/
lemma Ledger.remove (hL : L.Lawful count) (h : L.Ledger count r) (hx : x ∈ r.live)
    (hpools : s'.pools = r.s.pools) (hcount : s'.poolCount = r.s.poolCount)
    (hopens : s'.opens = r.s.opens)
    (hobjects : s'.objects = L.pmemobjFree (L.uuidLo x.ref.poolIndex) x.ref.offInPool r.s.objects)
    (bs : Bytes) (hsize : bs.length ≤ (L.valueObj x).size)
    (hmem : s'.mem = applyWrite r.s.mem (chunk (objAddr L r.s.opens (L.valueObj x)) bs)) :
    L.Ledger count ⟨s', r.live.filter fun y => decide (y.ref ≠ x.ref)⟩ := by
  have hsub : s'.objects.Sublist r.s.objects := by
    rw [hobjects]
    exact List.filter_sublist
  constructor
  · rw [hpools, hcount, hopens]
    exact h.pools_eq
  · rw [hobjects]
    exact h.pmemobjFree_eq hL hx
  · exact ⟨fun o ho => h.objects.inside o (hsub.subset ho), h.objects.apart.sublist hsub⟩
  · intro y hy
    obtain ⟨hy, hne⟩ := List.mem_filter.mp hy
    have hxy : x ≠ y := by
      rintro rfl
      exact of_decide_eq_true hne rfl
    exact (h.stored y hy).of_write hL (h.inside hy) (h.inside hx)
      (h.apart hx hy hxy) hopens hsize hmem

/-- A reference that does not point into a pool is not in the ledger. -/
lemma Ledger.filter_raw (h : L.Ledger count r) {ref : KVSRef} (hraw : IsRaw ref) :
    (r.live.filter fun y => decide (y.ref ≠ ref)) = r.live := by
  rw [List.filter_eq_self]
  intro y hy
  apply decide_eq_true
  rintro rfl
  obtain ⟨hne₁, hne₂⟩ := ptrEncoding_ne y.compress
  rw [← (h.stored y hy).encoding_eq] at hne₁ hne₂
  exact hraw.elim hne₁ hne₂

/-- Freeing a value. -/
lemma Ledger.free (hL : L.Lawful count) (h : L.Ledger count r) {ref : KVSRef}
    (hadm : AdmitsCall r (.free ref)) :
    ∃ r', L.runCall (.free ref) r = .ok r' ∧ L.Ledger count r' := by
  unfold runCall kvsFreeValue
  simp only [bind, Except.bind, pure, Except.pure]
  by_cases hraw : IsRaw ref
  · rw [if_neg fun hne => hraw.elim hne.1 hne.2]
    refine ⟨_, rfl, ?_⟩
    rw [h.filter_raw hraw]
    exact h
  · obtain ⟨hopen, x, hx, rfl⟩ := hadm.resolve_left hraw
    rw [if_pos (not_or.mp hraw)]
    have hlt := (h.stored x hx).poolIndex_lt (h.inside hx)
    rw [freePmem_eq (h.pool_eq hopen hlt)]
    refine ⟨_, rfl, ?_⟩
    obtain ⟨n, b, heq⟩ := noteFreed_eq x.ref.size { r.s with
      objects := L.pmemobjFree (L.uuidLo x.ref.poolIndex) x.ref.offInPool r.s.objects }
    rw [heq]
    exact h.remove hL hx rfl rfl rfl rfl [] (Nat.zero_le _) rfl

/-- The encoding that a dumped value gets. -/
def rawEncoding (compress : Bool) : UInt8 :=
  if compress then kEncodingRawCompressed else kEncodingRawUncompressed

lemma rawEncoding_of_eq {ref : KVSRef} {compress : Bool}
    (hcode : ref.encoding = ptrEncoding compress) :
    (if ref.encoding = kEncodingPtrCompressed then kEncodingRawCompressed
      else kEncodingRawUncompressed) = rawEncoding compress := by
  rw [hcode]
  cases compress <;> rfl

/-- The memory after the header of a value was overwritten. -/
def dumpMem (L : Libraries) (s : KVSState) (x : StoredValue) : ℕ → UInt8 :=
  applyWrite s.mem (chunk (objAddr L s.opens (L.valueObj x)) [rawEncoding x.compress])

/-- A dumped reference gets a new header, is handed over, and is freed. -/
lemma Opened.kvsDumpFromValueRef_eq (h : Opened L count s) {ref : KVSRef} {compress : Bool}
    (hcode : ref.encoding = ptrEncoding compress) (hlt : ref.poolIndex < count) {mem : ℕ → UInt8}
    (hmem : mem = applyWrite s.mem
      (chunk (L.addr s.opens ref.poolIndex + ref.offInPool) [rawEncoding compress])) :
    L.kvsDumpFromValueRef ref s =
      .ok (some (read mem (L.addr s.opens ref.poolIndex + ref.offInPool) (ref.size + 1)),
        noteFreed ref.size { s with
          mem := mem
          objects := L.pmemobjFree (L.uuidLo ref.poolIndex) ref.offInPool s.objects }) := by
  have hpool := h.pool_eq _ hlt
  have hpool' : ∀ mem, KVSState.pool { s with mem := mem } ref.poolIndex =
      .ok ⟨L.uuidLo ref.poolIndex, L.addr s.opens ref.poolIndex⟩ := fun _ => hpool
  unfold kvsDumpFromValueRef
  simp only [bind, Except.bind, pure, Except.pure]
  rw [requirePools_eq h.isSome]
  simp only
  rw [if_pos (isPtr_of_eq hcode), hpool]
  simp only
  rw [rawEncoding_of_eq hcode, freePmem_eq (hpool' _), hmem]

/-- A dumped value gets a new header, is handed over, and is freed. -/
lemma Ledger.kvsDumpFromValueRef_eq (h : L.Ledger count r) (hopen : r.s.pools.isSome = true)
    (hx : x ∈ r.live) :
    L.kvsDumpFromValueRef x.ref r.s =
      .ok (some (read (dumpMem L r.s x) (objAddr L r.s.opens (L.valueObj x)) (x.ref.size + 1)),
        noteFreed x.ref.size { r.s with
          mem := dumpMem L r.s x
          objects := L.pmemobjFree (L.uuidLo x.ref.poolIndex) x.ref.offInPool r.s.objects }) := by
  have hxs := h.stored x hx
  have haddr : L.addr r.s.opens x.ref.poolIndex + x.ref.offInPool =
      objAddr L r.s.opens (L.valueObj x) := by
    rw [hxs.poolIndex_eq, hxs.offInPool_eq]
    rfl
  have hmem : dumpMem L r.s x = applyWrite r.s.mem
      (chunk (L.addr r.s.opens x.ref.poolIndex + x.ref.offInPool) [rawEncoding x.compress]) := by
    rw [haddr]
    rfl
  rw [(h.opened hopen).kvsDumpFromValueRef_eq hxs.encoding_eq (hxs.poolIndex_lt (h.inside hx)) hmem,
    haddr]

/-- Dumping a value. -/
lemma Ledger.dump (hL : L.Lawful count) (h : L.Ledger count r) {ref : KVSRef}
    (hadm : AdmitsCall r (.dump ref)) :
    ∃ r', L.runCall (.dump ref) r = .ok r' ∧ L.Ledger count r' := by
  obtain ⟨hopen, hraw | ⟨x, hx, rfl⟩⟩ := hadm
  · unfold runCall kvsDumpFromValueRef
    simp only [bind, Except.bind, pure, Except.pure]
    rw [requirePools_eq hopen]
    simp only
    rw [if_neg]
    · refine ⟨_, rfl, ?_⟩
      rw [h.filter_raw hraw]
      exact h
    · rcases hraw with heq | heq <;> rw [heq] <;> decide
  · unfold runCall
    simp only [bind, Except.bind, pure, Except.pure]
    rw [h.kvsDumpFromValueRef_eq hopen hx]
    refine ⟨_, rfl, ?_⟩
    obtain ⟨n, b, heq⟩ := noteFreed_eq x.ref.size { r.s with
      mem := dumpMem L r.s x
      objects := L.pmemobjFree (L.uuidLo x.ref.poolIndex) x.ref.offInPool r.s.objects }
    rw [heq]
    exact h.remove hL hx rfl rfl rfl rfl [rawEncoding x.compress] (h.inside hx).pos rfl

/-! ## Publishing -/

/-- The objects stay apart when some are published. -/
lemma Objects.publish {objects : List Obj} (h : Objects L count objects) (c : Obj → Prop)
    [DecidablePred c] : Objects L count (objects.map fun o => publishIf (c o) o) := by
  constructor
  · intro o ho
    obtain ⟨o', ho', rfl⟩ := List.mem_map.mp ho
    obtain ⟨h₁, h₂, h₃⟩ := h.inside o' ho'
    exact ⟨by rwa [publishIf_pool], by rwa [publishIf_pool, publishIf_off, publishIf_size],
      by rwa [publishIf_size]⟩
  · rw [List.pairwise_map]
    refine h.apart.imp fun hapart => ?_
    unfold Apart
    rw [publishIf_pool, publishIf_pool, publishIf_off, publishIf_off, publishIf_size,
      publishIf_size]
    exact hapart

/-- Publishing reservations. -/
lemma Ledger.publish (h : L.Ledger count r) {pacts : List PobjAction}
    (hadm : AdmitsCall r (.publish pacts)) :
    ∃ r', L.runCall (.publish pacts) r = .ok r' ∧ L.Ledger count r' := by
  obtain ⟨hopen, hpacts⟩ := hadm
  obtain ⟨pools, hpools⟩ := Option.isSome_iff_exists.mp hopen
  unfold runCall kvsPublish
  simp only [bind, Except.bind, pure, Except.pure]
  rw [requirePools_eq hopen]
  simp only [require]
  rw [if_pos hpacts]
  simp only
  rw [publishPools_eq]
  refine ⟨_, rfl, h.pools_eq, ?_, h.objects.publish _, ?_⟩
  · simp only
    rw [h.objects_eq, List.map_map, List.map_map]
    apply List.map_congr_left
    intro x hx
    have hlt : x.pact.poolIndex < 0 + r.s.poolCount := by
      rw [(h.pools_eq pools hpools).1, Nat.zero_add]
      exact (h.inside hx).pool_lt
    simp only [Function.comp_apply, publishIf, valueObj, Nat.zero_le, hlt, true_and]
    split <;> rfl
  · intro y hy
    obtain ⟨x, hx, rfl⟩ := List.mem_map.mp hy
    obtain ⟨h₁, h₂, h₃, h₄, h₅⟩ := h.stored x hx
    split <;> exact ⟨h₁, h₂, h₃, h₄, h₅⟩

/-- **Every call** keeps the ledger. -/
theorem Ledger.runCall (hL : L.Lawful count) (h : L.Ledger count r) {call : KvsCall}
    (hadm : AdmitsCall r call) : ∃ r', L.runCall call r = .ok r' ∧ L.Ledger count r' := by
  cases call with
  | encode value compress => exact h.encode hL hadm value compress
  | publish pacts => exact h.publish hadm
  | free ref => exact h.free hL hadm
  | dump ref => exact h.dump hL hadm

/-! ## Decoding -/

/-- What `KVSDecodeValueRef` reads through a reference. -/
lemma Opened.kvsDecodeValueRef_eq (h : Opened L count s) {ref : KVSRef} {compress : Bool}
    (hcode : ref.encoding = ptrEncoding compress) (hlt : ref.poolIndex < count) :
    L.kvsDecodeValueRef (.ref ref) sizeofKVSRef s =
      let src := read s.mem (L.addr s.opens ref.poolIndex + ref.offInPool + 1) ref.size
      if compress then L.decompress src else .ok src := by
  unfold kvsDecodeValueRef KVSState.srcData
  simp only [bind, Except.bind, pure, Except.pure, require]
  rw [if_pos (isPtr_of_eq hcode).symm]
  simp only [if_true]
  rw [h.pool_eq _ hlt]
  simp only
  rw [hcode]
  cases compress with
  | false => rfl
  | true => rfl

/-- The bytes behind the header of a stored value, as many as its reference says. -/
lemma Stored.read_eq (hx : L.Stored s x) :
    read s.mem (L.addr s.opens x.ref.poolIndex + x.ref.offInPool + 1) x.ref.size =
      (L.payload x.compress x.value).take x.ref.size := by
  have hread := hx.bytes
  change read _ _ (1 + (L.payload x.compress x.value).length) = _ at hread
  rw [Nat.add_comm, PersistentMemory.read, List.cons.injEq, objAddr_valueObj] at hread
  have hle : x.ref.size ≤ (L.payload x.compress x.value).length := by
    rw [hx.size_eq]
    exact Nat.mod_le _ _
  rw [hx.poolIndex_eq, hx.offInPool_eq, read_of_le hle, hread.2]

/-- What `snappy` has compressed is uncompressed if `SNAPPY` is defined. -/
lemma decompress_rawCompress (hL : L.Lawful count) (value : Bytes) :
    L.decompress (L.rawCompress value) = if L.snappyDefined then .ok value else .error .fault := by
  unfold decompress
  rw [hL.length_rawCompress, hL.rawUncompress_rawCompress]
  simp only [List.take_length]
  rfl

/-- **A stored value is decoded** from its reference. -/
theorem Ledger.decode (hL : L.Lawful count) (h : L.Ledger count r) (hopen : r.s.pools.isSome = true)
    (hx : x ∈ r.live) (hsize : (L.payload x.compress x.value).length < 2 ^ 32)
    (hsnappy : x.compress = true → L.snappyDefined = true) :
    L.kvsDecodeValueRef (.ref x.ref) sizeofKVSRef r.s = .ok x.value := by
  have hxs := h.stored x hx
  have hbytes : read r.s.mem (L.addr r.s.opens x.ref.poolIndex + x.ref.offInPool + 1) x.ref.size =
      L.payload x.compress x.value := by
    rw [hxs.read_eq, hxs.size_eq, toUInt32_of_lt hsize, List.take_length]
  rw [(h.opened hopen).kvsDecodeValueRef_eq hxs.encoding_eq (hxs.poolIndex_lt (h.inside hx))]
  simp only [hbytes]
  cases hc : x.compress with
  | false => rfl
  | true =>
    change L.decompress (L.rawCompress x.value) = _
    rw [decompress_rawCompress hL, if_pos (hsnappy hc)]

end Libraries

end PmemKv
