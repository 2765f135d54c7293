import PmemKv.ValueStore.RoundTrip

/-!
# Handing a value over

`KVSDumpFromValueRef` calls a function of its caller with the bytes of a value, behind a new header,
and frees the value afterwards.  Here that function is any function on the value store and on what
else it may change.  Decoding the bytes it gets and decoding the reference have the same outcome.
-/

namespace PmemKv

open PersistentMemory

namespace Libraries

variable (L : Libraries)

/-- `KVSDumpFromValueRef` with any function `add`, which may change the value store and a state of
its own. -/
def kvsDumpWith {σ : Type} (add : Bytes → σ × KVSState → Except Stop (σ × KVSState)) (ref : KVSRef)
    (p : σ × KVSState) : Except Stop (σ × KVSState) := do
  let (a, s) := p
  s.requirePools
  if ref.encoding = kEncodingPtrCompressed ∨ ref.encoding = kEncodingPtrUncompressed then
    let pool ← s.pool ref.poolIndex
    let hdr := pool.baseAddr + ref.offInPool
    let encoding :=
      if ref.encoding = kEncodingPtrCompressed then kEncodingRawCompressed
      else kEncodingRawUncompressed
    let s := { s with mem := applyWrite s.mem (chunk hdr [encoding]) }
    let (a, s) ← add (read s.mem hdr (ref.size + 1)) (a, s)
    let s ← L.freePmem ref s
    pure (a, s)
  else pure (a, s)

/-- What dumping a stored value does, with the bytes `code :: bytes` that are handed over in the
state `s₁`. -/
structure Dumps (count : ℕ) (r : KvsRun) (x : StoredValue) (code : UInt8) (bytes : Bytes)
    (s₁ : KVSState) : Prop where
  /-- The function is called once, and the value is freed afterwards. -/
  called : ∀ (σ : Type) (add : Bytes → σ × KVSState → Except Stop (σ × KVSState)) (a : σ),
    L.kvsDumpWith add x.ref (a, r.s) = (do
      let (a, s₂) ← add (code :: bytes) (a, s₁)
      let s₃ ← L.freePmem x.ref s₂
      pure (a, s₃))
  /-- The bytes are decoded as the reference was. -/
  decode_eq : L.kvsDecodeValueRef (.raw code bytes) (code :: bytes).length s₁ =
    L.kvsDecodeValueRef (.ref x.ref) sizeofKVSRef r.s
  /-- The objects are still there. -/
  objects_eq : s₁.objects = r.s.objects
  /-- No byte of another value was changed. -/
  other_eq : ∀ y ∈ r.live, y ≠ x → ∀ a, objAddr L r.s.opens (L.valueObj y) ≤ a →
    a < objAddr L r.s.opens (L.valueObj y) + (L.valueObj y).size → s₁.mem a = r.s.mem a
  /-- If the function leaves the pools open and the object in place, then exactly this object is
  freed, and no byte is changed. -/
  freed : ∀ s₂, Opened L count s₂ → Objects L count s₂.objects → ∀ o ∈ s₂.objects,
    o.pool = x.ref.poolIndex → o.off = x.ref.offInPool →
    ∃ s₃, L.freePmem x.ref s₂ = .ok s₃ ∧ s₃.mem = s₂.mem ∧
      ∀ o', o' ∈ s₃.objects ↔ o' ∈ s₂.objects ∧ o' ≠ o

variable {L} {count : ℕ} {s : KVSState} {r : KvsRun} {x : StoredValue} {ref : KVSRef}

/-- `KVSDumpFromValueRef` with a function that keeps the bytes. -/
lemma kvsDumpFromValueRef_eq_dumpWith (ref : KVSRef) (s : KVSState) :
    L.kvsDumpFromValueRef ref s =
      L.kvsDumpWith (fun slice p => .ok (some slice, p.2)) ref (none, s) := by
  unfold kvsDumpFromValueRef kvsDumpWith
  simp only [bind, Except.bind, pure, Except.pure]

/-! ## The call -/

/-- The function is called with the bytes of the object, behind the new header. -/
lemma Opened.kvsDumpWith_eq (h : Opened L count s) {compress : Bool}
    (hcode : ref.encoding = ptrEncoding compress) (hlt : ref.poolIndex < count) {σ : Type}
    (add : Bytes → σ × KVSState → Except Stop (σ × KVSState)) (a : σ) {mem : ℕ → UInt8}
    (hmem : mem = applyWrite s.mem
      (chunk (L.addr s.opens ref.poolIndex + ref.offInPool) [rawEncoding compress])) :
    L.kvsDumpWith add ref (a, s) = (do
      let (a, s₂) ← add (read mem (L.addr s.opens ref.poolIndex + ref.offInPool) (ref.size + 1))
        (a, { s with mem := mem })
      let s₃ ← L.freePmem ref s₂
      pure (a, s₃)) := by
  unfold kvsDumpWith
  simp only [bind, Except.bind, pure, Except.pure]
  rw [requirePools_eq h.isSome]
  simp only
  rw [if_pos (isPtr_of_eq hcode), h.pool_eq _ hlt]
  simp only
  rw [rawEncoding_of_eq hcode, ← hmem]

/-- The bytes that are handed over. -/
lemma Stored.read_dump (hx : L.Stored s x)
    (hlen : (L.payload x.compress x.value).length < 2 ^ 32) :
    read (dumpMem L s x) (L.addr s.opens x.ref.poolIndex + x.ref.offInPool) (x.ref.size + 1) =
      rawEncoding x.compress :: L.payload x.compress x.value := by
  have haddr : objAddr L s.opens (L.valueObj x) =
      L.addr s.opens x.ref.poolIndex + x.ref.offInPool := by
    rw [hx.poolIndex_eq, hx.offInPool_eq]
    rfl
  have hbytes := hx.read_eq
  rw [hx.size_eq, toUInt32_of_lt hlen, List.take_length] at hbytes
  unfold dumpMem
  rw [haddr, hx.size_eq, toUInt32_of_lt hlen, Nat.add_comm _ 1, read_append]
  have hheader : read (applyWrite s.mem (chunk (L.addr s.opens x.ref.poolIndex + x.ref.offInPool)
      [rawEncoding x.compress])) (L.addr s.opens x.ref.poolIndex + x.ref.offInPool) 1 =
        [rawEncoding x.compress] := read_applyWrite_chunk _ _ _
  have hpayload : read (applyWrite s.mem (chunk (L.addr s.opens x.ref.poolIndex + x.ref.offInPool)
      [rawEncoding x.compress])) (L.addr s.opens x.ref.poolIndex + x.ref.offInPool + 1)
        (L.payload x.compress x.value).length = L.payload x.compress x.value := by
    rw [read_applyWrite_chunk_of_disjoint (Or.inr (by rw [List.length_singleton])), hbytes]
  rw [hheader, hpayload]
  rfl

/-- The header decides how the bytes behind it are decoded. -/
lemma kvsDecodeValueRef_raw (compress : Bool) (bytes : Bytes) :
    L.kvsDecodeValueRef (.raw (rawEncoding compress) bytes)
      (rawEncoding compress :: bytes).length s =
        if compress then L.decompress bytes else .ok bytes := by
  have hraw : rawEncoding compress = kEncodingRawUncompressed ∨
      rawEncoding compress = kEncodingRawCompressed := by
    cases compress
    · exact Or.inl rfl
    · exact Or.inr rfl
  unfold kvsDecodeValueRef KVSState.srcData
  simp only [bind, Except.bind, pure, Except.pure, require]
  rw [if_pos hraw, if_pos (by rw [List.length_cons]; omega)]
  simp only [List.length_cons, Nat.add_sub_cancel, List.take_length]
  cases compress with
  | false => rfl
  | true => rfl

/-- `FreePmem` removes one object. -/
lemma Opened.freePmem_objects (hL : L.Lawful count) (h : Opened L count s)
    (hobjects : Objects L count s.objects) {o : Obj} (ho : o ∈ s.objects)
    (hpool : o.pool = ref.poolIndex) (hoff : o.off = ref.offInPool) :
    ∃ s', L.freePmem ref s = .ok s' ∧ s'.mem = s.mem ∧
      ∀ o', o' ∈ s'.objects ↔ o' ∈ s.objects ∧ o' ≠ o := by
  have hlt : ref.poolIndex < count := hpool ▸ (hobjects.inside o ho).pool_lt
  obtain ⟨n, b, heq⟩ := noteFreed_eq ref.size
    { s with objects := L.pmemobjFree (L.uuidLo ref.poolIndex) ref.offInPool s.objects }
  refine ⟨_, freePmem_eq (h.pool_eq _ hlt), ?_, fun o' => ?_⟩
  · simp only
    rw [heq]
  · simp only
    rw [heq]
    simp only
    unfold pmemobjFree
    rw [List.mem_filter]
    refine and_congr_right fun ho' => ?_
    rw [Bool.not_eq_true', Bool.and_eq_false_iff, beq_eq_false_iff_ne, beq_eq_false_iff_ne]
    constructor
    · rintro hne rfl
      rcases hne with hne | hne
      · exact hne (congrArg L.uuidLo hpool)
      · exact hne hoff
    · intro hne
      by_contra hboth
      rw [not_or, not_not, not_not] at hboth
      have hp := hL.uuidLo_inj _ (hobjects.inside o' ho').pool_lt _ hlt hboth.1
      exact hne (hobjects.eq_of_off ho' ho (hp.trans hpool.symm) (hboth.2.trans hoff.symm))

/-! ## Dumping -/

/-- Dumping a value that is in the ledger. -/
lemma Ledger.dumps (hL : L.Lawful count) (h : L.Ledger count r) (hopen : r.s.pools.isSome = true)
    (hx : x ∈ r.live) (hlen : (L.payload x.compress x.value).length < 2 ^ 32) :
    L.Dumps count r x (rawEncoding x.compress) (L.payload x.compress x.value)
      { r.s with mem := dumpMem L r.s x } := by
  have hxs := h.stored x hx
  have ho := h.opened hopen
  have hlt := hxs.poolIndex_lt (h.inside hx)
  have hmem : dumpMem L r.s x = applyWrite r.s.mem
      (chunk (L.addr r.s.opens x.ref.poolIndex + x.ref.offInPool) [rawEncoding x.compress]) := by
    rw [hxs.poolIndex_eq, hxs.offInPool_eq]
    rfl
  constructor
  · intro σ add a
    rw [ho.kvsDumpWith_eq hxs.encoding_eq hlt add a hmem, hxs.read_dump hlen]
  · rw [kvsDecodeValueRef_raw, ho.kvsDecodeValueRef_eq hxs.encoding_eq hlt]
    simp only [hxs.read_eq]
    rw [hxs.size_eq, toUInt32_of_lt hlen, List.take_length]
  · rfl
  · intro y hy hne a ha₁ ha₂
    have hin := h.inside hx
    have hpos := hin.pos
    have hapart := hL.objAddr_apart r.s.opens (h.inside hy) hin (h.apart hy hx hne)
    refine applyWrite_of_forall_ne fun p hp => ?_
    obtain ⟨hp₁, hp₂⟩ := mem_chunk hp
    rw [List.length_singleton] at hp₂
    omega
  · intro s₂ ho₂ hobjects o hmem hpool hoff
    exact ho₂.freePmem_objects hL hobjects hmem hpool hoff

/-- **Dumping preserves values.**  In every state of a run with open pools, for every live
reference, `KVSDumpFromValueRef` calls its function once, with bytes that are decoded as the
reference was, frees exactly the object of the reference afterwards, and changes no byte of another
live value. -/
theorem dump_preserves (hL : L.Lawful count) (mem : ℕ → UInt8) (events : List KvsEvent)
    (hadm : L.Admissible count events (KvsRun.start mem)) :
    ∃ r, L.runEvents events (KvsRun.start mem) = .ok r ∧ (r.s.pools.isSome = true → ∀ x ∈ r.live,
      (L.payload x.compress x.value).length < 2 ^ 32 →
        ∃ code bytes s₁, L.Dumps count r x code bytes s₁) := by
  obtain ⟨r, hrun, h⟩ := (ledger_start mem).runEvents hL hadm
  exact ⟨r, hrun, fun hopen x hx hlen => ⟨_, _, _, h.dumps hL hopen hx hlen⟩⟩

/-- A value is stored in each of two pools. -/
def dumpEvents : List KvsEvent :=
  [.kvsOpen (2 ^ 24) 2, .call (.encode [5, 6] false), .call (.encode [7] true)]

theorem dump_preserves_sample :
    ∃ r, sampleLibraries.runEvents dumpEvents (KvsRun.start fun _ => 0) = .ok r ∧
      (r.s.pools.isSome = true → ∀ x ∈ r.live,
        (sampleLibraries.payload x.compress x.value).length < 2 ^ 32 →
          ∃ code bytes s₁, sampleLibraries.Dumps 2 r x code bytes s₁) :=
  dump_preserves sampleLibraries_lawful (fun _ => 0) dumpEvents (by decide +kernel)

end Libraries

end PmemKv
