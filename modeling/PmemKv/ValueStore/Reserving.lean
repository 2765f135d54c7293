import PmemKv.ValueStore.Pools

/-!
# What the callers of `KVSEncodeValue` get

`ReservePmem` and `KVSEncodeValue` return a flag, and write everything else through the pointers
that they are given: the index of the pool, the object and the address of a `PobjAction` that `new`
made.  Here these are written where the source writes them.  They hold what the results of
`reservePmem` and `kvsEncodeValue` say if the flag is `true`, and what they held before if it is
`false`.
-/

namespace PmemKv

open PersistentMemory

/-- A `PMEMoid`. -/
structure PMEMoid where
  /-- The pool that `pool_uuid_lo` stands for. -/
  pool : ℕ
  /-- `off`. -/
  off : ℕ

/-- What the arguments of `ReservePmem` point to. -/
structure ReserveOut where
  /-- `*p_pool_index`, an `unsigned int`. -/
  poolIndex : ℕ
  /-- `*p_oid`. -/
  oid : PMEMoid
  /-- `*p_pact`. -/
  pact : Option ℕ

/-- What the arguments of `KVSEncodeValue` point to. -/
structure EncodeOut where
  /-- `*ref`. -/
  ref : KVSRef
  /-- `*p_pact`. -/
  pact : Option ℕ

/-- The value store, and the heap with the reservations. -/
structure Process where
  /-- The value store. -/
  s : KVSState
  /-- The `PobjAction` at each address. -/
  actions : ℕ → Option PobjAction
  /-- The next address that `new` returns. -/
  nextAction : ℕ

namespace Libraries

variable (L : Libraries)

/-- The loop of `ReservePmem`, with `retry_loop - i` rounds left, and `pact`. -/
def reserveIntoLoop (size pact : ℕ) : ℕ → ℕ → ReserveOut → Process → Bool × ReserveOut × Process
  | 0, _, out, p =>
    (false, out, { p with
      s := { p.s with dcpmmIsAvail := false }
      actions := Function.update p.actions pact none })
  | n + 1, i, out, p =>
    match L.reserve p.s.reserves p.s.objects i size with
    | some off =>
      (true, ⟨toUInt32 i, ⟨i, off⟩, some pact⟩, { p with
        s := { p.s with
          objects := ⟨i, off, size, false⟩ :: p.s.objects
          reserves := p.s.reserves + 1 }
        actions := Function.update p.actions pact (some ⟨off, toUInt32 i⟩) })
    | none =>
      reserveIntoLoop size pact n (if p.s.poolCount ≤ i + 1 then 0 else i + 1) out
        { p with s := { p.s with reserves := p.s.reserves + 1 } }

/-- `ReservePmem`.  The fields of a new `PobjAction` are written before they are read. -/
def reservePmemInto (size : ℕ) (out : ReserveOut) (p : Process) : Bool × ReserveOut × Process :=
  let pact := p.nextAction
  L.reserveIntoLoop size pact p.s.poolCount (p.s.nextPoolIndex % p.s.poolCount) out
    { s := { p.s with nextPoolIndex := toUInt64 (p.s.nextPoolIndex + 1) }
      actions := Function.update p.actions pact (some ⟨0, 0⟩)
      nextAction := pact + 1 }

/-- Either branch of `KVSEncodeValue`, with the bytes that are stored.  `oid` is not initialized. -/
def encodePayloadInto (encoding : UInt8) (payload : Bytes) (out : EncodeOut) (p : Process) :
    Except Stop (Bool × EncodeOut × Process) :=
  match L.reservePmemInto (1 + payload.length) ⟨out.ref.poolIndex, ⟨0, 0⟩, out.pact⟩ p with
  | (false, reserved, p) =>
    pure (false, ⟨{ out.ref with poolIndex := reserved.poolIndex }, reserved.pact⟩, p)
  | (true, reserved, p) => do
    -- `pmemobj_direct`
    let buf := L.addr p.s.opens reserved.oid.pool + reserved.oid.off
    let ref := { out.ref with
      poolIndex := reserved.poolIndex, encoding := encoding, size := toUInt32 payload.length }
    let pool ← p.s.pool ref.poolIndex
    require (pool.baseAddr ≤ buf)
    let ref := { ref with offInPool := buf - pool.baseAddr }
    let mem := applyWrite p.s.mem (chunk buf [ref.encoding])
    let mem := applyWrite mem (chunk (buf + 1) payload)
    pure (true, ⟨ref, reserved.pact⟩, { p with s := { p.s with mem := mem } })

/-- `KVSEncodeValue`. -/
def kvsEncodeValueInto (value : Bytes) (compress : Bool) (out : EncodeOut) (p : Process) :
    Except Stop (Bool × EncodeOut × Process) := do
  p.s.requirePools
  if !p.s.dcpmmIsAvail then pure (false, out, p)
  else if !compress then L.encodePayloadInto kEncodingPtrUncompressed value out p
  else L.encodePayloadInto kEncodingPtrCompressed (L.rawCompress value) out p

variable {L} {size i n : ℕ} {p : Process}

/-! ## The arguments and the results -/

/-- The loop writes through its arguments what `reserveLoop` returns. -/
lemma reserveIntoLoop_eq (pact : ℕ) (out : ReserveOut) :
    L.reserveIntoLoop size pact n i out p =
      match L.reserveLoop size n i p.s with
      | (some (j, off), s) =>
        (true, ⟨toUInt32 j, ⟨j, off⟩, some pact⟩,
          { p with s := s, actions := Function.update p.actions pact (some ⟨off, toUInt32 j⟩) })
      | (none, s) =>
        (false, out, { p with s := s, actions := Function.update p.actions pact none }) := by
  induction n generalizing i p with
  | zero => rfl
  | succ n ih =>
    unfold reserveIntoLoop reserveLoop
    cases L.reserve p.s.reserves p.s.objects i size with
    | some off => rfl
    | none => exact ih (p := { p with s := { p.s with reserves := p.s.reserves + 1 } })

/-- `ReservePmem` returns a new `PobjAction`, or deletes it. -/
lemma reservePmemInto_eq (out : ReserveOut) :
    L.reservePmemInto size out p =
      match L.reservePmem size p.s with
      | (some (j, off), s) =>
        (true, ⟨toUInt32 j, ⟨j, off⟩, some p.nextAction⟩,
          ⟨s, Function.update p.actions p.nextAction (some ⟨off, toUInt32 j⟩), p.nextAction + 1⟩)
      | (none, s) =>
        (false, out, ⟨s, Function.update p.actions p.nextAction none, p.nextAction + 1⟩) := by
  unfold reservePmemInto reservePmem
  simp only [reserveIntoLoop_eq, Function.update_idem]

/-- Either branch of `KVSEncodeValue` writes what `encodePayload` returns. -/
lemma encodePayloadInto_eq (encoding : UInt8) (payload : Bytes) (out : EncodeOut) :
    L.encodePayloadInto encoding payload out p =
      (L.encodePayload encoding payload p.s).map fun result =>
        match result with
        | (some (ref, pact), s) =>
          (true, ⟨ref, some p.nextAction⟩,
            ⟨s, Function.update p.actions p.nextAction (some pact), p.nextAction + 1⟩)
        | (none, s) =>
          (false, out, ⟨s, Function.update p.actions p.nextAction none, p.nextAction + 1⟩) := by
  unfold encodePayloadInto encodePayload
  rw [reservePmemInto_eq]
  rcases L.reservePmem (1 + payload.length) p.s with ⟨_ | ⟨j, off⟩, s⟩
  · rfl
  · simp only [bind, Except.bind, pure, Except.pure]
    cases s.pool (toUInt32 j) with
    | error _ => rfl
    | ok pool =>
      simp only [require]
      by_cases hle : pool.baseAddr ≤ L.addr s.opens j + off
      · rw [if_pos hle]
        rfl
      · rw [if_neg hle]
        rfl

/-- **`KVSEncodeValue` fills its arguments** exactly if it returns `true`; a refusal leaves them as
they were. -/
theorem kvsEncodeValueInto_eq (value : Bytes) (compress : Bool) (out : EncodeOut)
    (havail : p.s.dcpmmIsAvail = true) :
    L.kvsEncodeValueInto value compress out p =
      (L.kvsEncodeValue value compress p.s).map fun result =>
        match result with
        | (some (ref, pact), s) =>
          (true, ⟨ref, some p.nextAction⟩,
            ⟨s, Function.update p.actions p.nextAction (some pact), p.nextAction + 1⟩)
        | (none, s) =>
          (false, out, ⟨s, Function.update p.actions p.nextAction none, p.nextAction + 1⟩) := by
  unfold kvsEncodeValueInto kvsEncodeValue
  cases p.s.requirePools with
  | error _ => rfl
  | ok u =>
    cases compress with
    | false =>
      simp only [bind, Except.bind, havail, Bool.not_true, Bool.not_false, Bool.false_eq_true,
        if_false, if_true]
      exact encodePayloadInto_eq _ _ out
    | true =>
      simp only [bind, Except.bind, havail, Bool.not_true, Bool.false_eq_true, if_false]
      exact encodePayloadInto_eq _ _ out

/-- While the flag is cleared, `KVSEncodeValue` changes nothing at all. -/
lemma kvsEncodeValueInto_of_not (value : Bytes) (compress : Bool) (out : EncodeOut)
    (hopen : p.s.pools.isSome = true) (havail : p.s.dcpmmIsAvail = false) :
    L.kvsEncodeValueInto value compress out p = .ok (false, out, p) := by
  unfold kvsEncodeValueInto KVSState.requirePools require
  rw [if_pos hopen, havail]
  rfl

end Libraries

end PmemKv
