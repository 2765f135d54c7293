import PmemKv.ValueStore.Sessions

/-!
# Reading back what was just stored

A value that `KVSEncodeValue` has accepted, in any state in which the pools are open, is read back
by `KVSDecodeValueRef`, `KVSDumpFromValueRef` and `KVSGetExtraValueSize`.  Two things may go wrong.
The reference has the length of the stored bytes as an `unsigned int`, so that longer values are cut
short; and `KVSEncodeValue` compresses in every build, but only a build with `SNAPPY` can
uncompress.
-/

namespace PmemKv

open PersistentMemory

namespace Libraries

/-- `KVSGetExtraValueSize`, of a slice that points to a reference. -/
def kvsGetExtraValueSize (ref : KVSRef) : ℕ :=
  if ref.encoding = kEncodingRawCompressed ∨ ref.encoding = kEncodingRawUncompressed then 0
  else ref.size

variable {L : Libraries} {count : ℕ} {s s' : KVSState} {r r' : KvsRun} {event : KvsEvent}
  {events : List KvsEvent} {value : Bytes} {compress : Bool} {ref : KVSRef} {pact : PobjAction}

/-! ## The pools in a run -/

/-- The pools are open or closed. -/
def Tabled (L : Libraries) (s : KVSState) : Prop := s.pools.isSome = true → Opened L s.poolCount s

lemma tabled_of_none (h : s.pools = none) : Tabled L s := by
  intro hopen
  rw [h] at hopen
  cases hopen

lemma CallFrame.tabled (hframe : CallFrame s s') (h : Tabled L s) : Tabled L s' := by
  obtain ⟨hpools, hcount, hopens, -⟩ := hframe
  intro hopen
  rw [hpools] at hopen
  obtain ⟨-, -, hpool⟩ := h hopen
  refine ⟨by rwa [hpools], rfl, fun i hi => ?_⟩
  rw [hcount] at hi
  rw [hopens, ← hpool i hi]
  unfold KVSState.pool
  rw [hpools, hcount]

/-- Every step leaves the pools open or closed. -/
lemma Tabled.runEvent (h : Tabled L r.s) (hrun : L.runEvent event r = .ok r') : Tabled L r'.s := by
  cases event with
  | call call =>
    have hcall : L.runCall call r = .ok r' := hrun
    exact (flagged_runCall hcall).1.tabled h
  | kvsOpen size poolCount =>
    obtain ⟨⟨res, s'⟩, hopen, hr'⟩ := bind_eq_ok.mp hrun
    cases hr'
    cases res with
    | true =>
      have hopened := kvsOpen_opened hopen
      intro _
      change Opened L s'.poolCount s'
      rwa [hopened.poolCount_eq]
    | false =>
      obtain ⟨hclosed, -, ⟨-, hs'⟩ | ⟨htrue, -⟩⟩ := kvsOpen_ok hopen
      · refine tabled_of_none ?_
        change s'.pools = none
        rw [hs']
        exact hclosed
      · cases htrue
  | kvsCLose =>
    cases hrun
    exact tabled_of_none rfl
  | restart =>
    cases hrun
    exact tabled_of_none rfl

/-- A run leaves the pools open or closed. -/
lemma Tabled.runEvents (h : Tabled L r.s) (hrun : L.runEvents events r = .ok r') :
    Tabled L r'.s := by
  induction events generalizing r with
  | nil =>
    cases hrun
    exact h
  | cons event events ih =>
    obtain ⟨r₁, hevent, hrest⟩ := runEvents_cons_ok hrun
    exact ih (h.runEvent hevent) hrest

/-! ## A value that was just stored -/

/-- What `KVSEncodeValue` leaves if it returns `true`. -/
lemma encode_stored (h : Tabled L s) (hL : L.Lawful s.poolCount)
    (hres : L.kvsEncodeValue value compress s = .ok (some (ref, pact), s')) :
    Opened L s.poolCount s' ∧ ref.poolIndex < s.poolCount ∧
      L.Stored s' ⟨ref, pact, value, compress, false⟩ := by
  by_cases hopen : s.pools.isSome = true
  · have ho := h hopen
    rw [kvsEncodeValue_eq hopen] at hres
    by_cases havail : s.dcpmmIsAvail = true
    · rw [if_pos havail] at hres
      rcases hfound : L.reservePmem (1 + (L.payload compress value).length) s with
        ⟨_ | ⟨j, off⟩, s₁⟩
      · rw [(encodePayload_none (ptrEncoding compress) hfound).1] at hres
        cases hres
      · obtain ⟨n, t, hj, -, heq⟩ := encodePayload_some hL ho (ptrEncoding compress) hfound
        rw [heq] at hres
        cases hres
        obtain ⟨h₁, h₂, h₃⟩ := ho
        exact ⟨⟨h₁, h₂, h₃⟩, hj, stored_encode s value compress n t j off⟩
    · rw [if_neg havail] at hres
      cases hres
  · obtain ⟨_, hrequire, -⟩ := bind_eq_ok.mp hres
    exact absurd (require_eq_ok.mp hrequire) hopen

/-- What `KVSDecodeValueRef` makes of the new reference. -/
lemma encode_decode_eq (h : Tabled L s) (hL : L.Lawful s.poolCount)
    (hres : L.kvsEncodeValue value compress s = .ok (some (ref, pact), s')) :
    L.kvsDecodeValueRef (.ref ref) sizeofKVSRef s' =
      let src := (L.payload compress value).take (toUInt32 (L.payload compress value).length)
      if compress then L.decompress src else .ok src := by
  obtain ⟨ho, hlt, hx⟩ := encode_stored h hL hres
  have hsize := hx.size_eq
  have hread := hx.read_eq
  simp only at hsize hread
  rw [hsize] at hread
  rw [ho.kvsDecodeValueRef_eq hx.encoding_eq hlt]
  simp only [hsize, hread]

/-- **When a compressed value is read back.**  In every state of a run in which `KVSEncodeValue`
accepts a value that is to be compressed, `KVSDecodeValueRef` yields the value if and only if
`SNAPPY` is defined. -/
theorem compressed_decode_iff (mem : ℕ → UInt8)
    (hrun : L.runEvents events (KvsRun.start mem) = .ok r)
    (hL : L.Lawful r.s.poolCount)
    (hres : L.kvsEncodeValue value true r.s = .ok (some (ref, pact), s'))
    (hlen : (L.rawCompress value).length < 2 ^ 32) :
    L.kvsDecodeValueRef (.ref ref) sizeofKVSRef s' = .ok value ↔ L.snappyDefined = true := by
  have h : Tabled L r.s := (tabled_of_none rfl : Tabled L (KvsRun.start mem).s).runEvents hrun
  rw [encode_decode_eq h hL hres]
  change L.decompress ((L.rawCompress value).take (toUInt32 (L.rawCompress value).length)) = _ ↔ _
  rw [toUInt32_of_lt hlen, List.take_length, decompress_rawCompress hL]
  cases L.snappyDefined with
  | true => simp
  | false => simp

/-- Libraries of a build without `SNAPPY`. -/
def plainLibraries : Libraries := { sampleLibraries with snappyDefined := false }

lemma plainLibraries_lawful : plainLibraries.Lawful 2 := by
  obtain ⟨h₁, h₂, h₃, h₄, h₅, h₆, h₇, h₈, h₉⟩ := sampleLibraries_lawful
  exact ⟨h₁, h₂, h₃, h₄, h₅, h₆, h₇, h₈, h₉⟩

theorem compressed_decode_iff_sample :
    ∃ r ref pact s', sampleLibraries.runEvents [.kvsOpen (2 ^ 24) 2] (KvsRun.start fun _ => 0) =
        .ok r ∧
      sampleLibraries.kvsEncodeValue [7] true r.s = .ok (some (ref, pact), s') ∧
      (sampleLibraries.kvsDecodeValueRef (.ref ref) sizeofKVSRef s' = .ok [7] ↔
        sampleLibraries.snappyDefined = true) := by
  refine ⟨_, _, _, _, rfl, rfl, ?_⟩
  have hrun : sampleLibraries.runEvents [.kvsOpen (2 ^ 24) 2] (KvsRun.start fun _ => 0) =
      .ok _ := rfl
  exact compressed_decode_iff (fun _ => 0) hrun sampleLibraries_lawful rfl (by decide)

/-- Without `SNAPPY` a value is accepted, and decoding its reference aborts. -/
theorem plain_decode_aborts :
    plainLibraries.Lawful 2 ∧
    ∃ r ref pact s', plainLibraries.runEvents [.kvsOpen (2 ^ 24) 2] (KvsRun.start fun _ => 0) =
        .ok r ∧
      plainLibraries.kvsEncodeValue [7] true r.s = .ok (some (ref, pact), s') ∧
      (plainLibraries.rawCompress [7]).length < 2 ^ 32 ∧
      plainLibraries.kvsDecodeValueRef (.ref ref) sizeofKVSRef s' = .error .fault :=
  ⟨plainLibraries_lawful, _, _, _, _, rfl, rfl, by decide, rfl⟩

/-! ## Long values -/

/-- As many bytes as an `unsigned int` counts. -/
lemma take_toUInt32_eq_iff (bs : Bytes) :
    bs.take (toUInt32 bs.length) = bs ↔ bs.length < 2 ^ 32 := by
  constructor
  · intro h
    have hle : bs.length ≤ toUInt32 bs.length := by
      have hlen := congrArg List.length h
      rw [List.length_take] at hlen
      omega
    exact Nat.lt_of_le_of_lt hle (Nat.mod_lt _ (Nat.two_pow_pos 32))
  · intro h
    rw [toUInt32_of_lt h, List.take_length]

/-- What `KVSDumpFromValueRef` hands over for the new reference. -/
lemma encode_dump_length (h : Tabled L s) (hL : L.Lawful s.poolCount)
    (hres : L.kvsEncodeValue value compress s = .ok (some (ref, pact), s')) :
    ∃ slice s'', L.kvsDumpFromValueRef ref s' = .ok (some slice, s'') ∧
      slice.length = toUInt32 (L.payload compress value).length + 1 := by
  obtain ⟨ho, hlt, hx⟩ := encode_stored h hL hres
  have hsize := hx.size_eq
  simp only at hsize
  refine ⟨_, _, ho.kvsDumpFromValueRef_eq hx.encoding_eq hlt rfl, ?_⟩
  rw [length_read, hsize]

/-- **When an uncompressed value is not cut short.**  In every state of a run in which
`KVSEncodeValue` accepts a value that is not to be compressed, all of its bytes are decoded and
dumped and its size is reported if and only if the size fits in 32 bits. -/
theorem uncompressed_whole_iff (mem : ℕ → UInt8)
    (hrun : L.runEvents events (KvsRun.start mem) = .ok r) (hL : L.Lawful r.s.poolCount)
    (hres : L.kvsEncodeValue value false r.s = .ok (some (ref, pact), s')) :
    (L.kvsDecodeValueRef (.ref ref) sizeofKVSRef s' = .ok value ∧
      (∃ slice s'', L.kvsDumpFromValueRef ref s' = .ok (some slice, s'') ∧
        slice.length = value.length + 1) ∧
      kvsGetExtraValueSize ref = value.length) ↔ value.length < 2 ^ 32 := by
  have h : Tabled L r.s := (tabled_of_none rfl : Tabled L (KvsRun.start mem).s).runEvents hrun
  have hdecode : L.kvsDecodeValueRef (.ref ref) sizeofKVSRef s' =
      .ok (value.take (toUInt32 value.length)) := encode_decode_eq h hL hres
  constructor
  · rintro ⟨heq, -, -⟩
    rw [hdecode] at heq
    exact (take_toUInt32_eq_iff value).mp (Except.ok.inj heq)
  · intro hlt
    obtain ⟨slice, s'', hdump, hlen⟩ := encode_dump_length h hL hres
    obtain ⟨-, -, hx⟩ := encode_stored h hL hres
    have hsize : ref.size = toUInt32 value.length := hx.size_eq
    have hcode : ref.encoding = kEncodingPtrUncompressed := hx.encoding_eq
    refine ⟨?_, ⟨slice, s'', hdump, ?_⟩, ?_⟩
    · rw [hdecode, (take_toUInt32_eq_iff value).mpr hlt]
    · rw [hlen]
      exact congrArg (· + 1) (toUInt32_of_lt hlt)
    · unfold kvsGetExtraValueSize
      rw [hcode, if_neg (by decide), hsize, toUInt32_of_lt hlt]

theorem uncompressed_whole_iff_sample :
    ∃ r ref pact s', sampleLibraries.runEvents [.kvsOpen (2 ^ 24) 2] (KvsRun.start fun _ => 0) =
        .ok r ∧
      sampleLibraries.kvsEncodeValue [5, 6] false r.s = .ok (some (ref, pact), s') ∧
      ((sampleLibraries.kvsDecodeValueRef (.ref ref) sizeofKVSRef s' = .ok [5, 6] ∧
        (∃ slice s'', sampleLibraries.kvsDumpFromValueRef ref s' = .ok (some slice, s'') ∧
          slice.length = 3) ∧
        kvsGetExtraValueSize ref = 2) ↔ 2 < 2 ^ 32) := by
  refine ⟨_, _, _, _, rfl, rfl, ?_⟩
  have hrun : sampleLibraries.runEvents [.kvsOpen (2 ^ 24) 2] (KvsRun.start fun _ => 0) =
      .ok _ := rfl
  exact uncompressed_whole_iff (fun _ => 0) hrun sampleLibraries_lawful rfl

/-- Pools that have room for four gigabytes. -/
def largeLibraries : Libraries := bumpLibraries (2 ^ 34)

/-- A value with as many bytes as an `unsigned int` has values is accepted, and nothing of it is
read back. -/
lemma large_cut (value : Bytes) (hlen : value.length = 2 ^ 32) :
    ∃ r ref pact s', largeLibraries.runEvents [.kvsOpen (2 ^ 35) 2] (KvsRun.start fun _ => 0) =
      .ok r ∧
      largeLibraries.kvsEncodeValue value false r.s = .ok (some (ref, pact), s') ∧
      largeLibraries.kvsDecodeValueRef (.ref ref) sizeofKVSRef s' = .ok [] ∧
      kvsGetExtraValueSize ref = 0 := by
  have hL : largeLibraries.Lawful 2 := bumpLibraries_lawful (by decide) (by decide)
  obtain ⟨s₀, hopen⟩ : ∃ s₀, largeLibraries.kvsOpen (2 ^ 35) 2 (KVSState.start fun _ => 0) =
      .ok (true, s₀) := ⟨_, rfl⟩
  have hopened := kvsOpen_opened hopen
  obtain ⟨hpos, -, havail, -, -⟩ := kvsOpen_restart (s := KVSState.start fun _ => 0) hopen
  have hrun : largeLibraries.runEvents [.kvsOpen (2 ^ 35) 2] (KvsRun.start fun _ => 0) =
      .ok ⟨s₀, []⟩ := by
    simp only [Libraries.runEvents, Libraries.runEvent, KvsRun.start, hopen, bind, Except.bind]
    rfl
  have hobjects : s₀.objects = [] := by
    obtain ⟨-, -, ⟨hfalse, -⟩ | ⟨-, pools, -, rfl⟩⟩ := kvsOpen_ok hopen
    · cases hfalse
    · rfl
  obtain ⟨res, s', hres, hiff⟩ := hopened.encode_isSome_iff hL hpos havail value false
  -- the first pool has room
  have hsome : res.isSome = true := by
    rw [hiff]
    refine ⟨0, hpos, ?_⟩
    have hfits : poolTop s₀.objects ((s₀.nextPoolIndex + 0) % 2) +
        (1 + (largeLibraries.payload false value).length) ≤ 2 ^ 34 := by
      have hpayload : (largeLibraries.payload false value).length = value.length := rfl
      rw [hobjects, hpayload, hlen]
      change 4096 + (1 + 2 ^ 32) ≤ 2 ^ 34
      decide
    have hreserve : largeLibraries.reserve (s₀.reserves + 0) s₀.objects ((s₀.nextPoolIndex + 0) % 2)
        (1 + (largeLibraries.payload false value).length) = some _ := if_pos hfits
    rw [hreserve]
    rfl
  obtain ⟨⟨ref, pact⟩, rfl⟩ := Option.isSome_iff_exists.mp hsome
  have htabled : Tabled largeLibraries s₀ := by
    intro _
    rwa [hopened.poolCount_eq]
  have hL' : largeLibraries.Lawful s₀.poolCount := by rwa [hopened.poolCount_eq]
  have hzero : toUInt32 value.length = 0 := by
    rw [hlen]
    rfl
  refine ⟨⟨s₀, []⟩, ref, pact, s', hrun, hres, ?_, ?_⟩
  · have hdecode : largeLibraries.kvsDecodeValueRef (.ref ref) sizeofKVSRef s' =
        .ok (value.take (toUInt32 value.length)) := encode_decode_eq htabled hL' hres
    rw [hdecode, hzero, List.take_zero]
  · obtain ⟨-, -, hx⟩ := encode_stored htabled hL' hres
    have hsize : ref.size = toUInt32 value.length := hx.size_eq
    have hcode : ref.encoding = kEncodingPtrUncompressed := hx.encoding_eq
    unfold kvsGetExtraValueSize
    rw [hcode, if_neg (by decide), hsize, hzero]

/-- Four gigabytes. -/
def fourGigabytes : Bytes := List.replicate (2 ^ 32) 0

theorem fourGigabytes_cut :
    largeLibraries.Lawful 2 ∧
    ∃ r ref pact s', largeLibraries.runEvents [.kvsOpen (2 ^ 35) 2] (KvsRun.start fun _ => 0) =
      .ok r ∧
      largeLibraries.kvsEncodeValue fourGigabytes false r.s = .ok (some (ref, pact), s') ∧
      largeLibraries.kvsDecodeValueRef (.ref ref) sizeofKVSRef s' ≠ .ok fourGigabytes ∧
      kvsGetExtraValueSize ref ≠ fourGigabytes.length := by
  have hlen : fourGigabytes.length = 2 ^ 32 := List.length_replicate
  obtain ⟨r, ref, pact, s', hrun, hres, hdecode, hextra⟩ := large_cut fourGigabytes hlen
  refine ⟨bumpLibraries_lawful (by decide) (by decide), r, ref, pact, s', hrun, hres, ?_, ?_⟩
  · rw [hdecode]
    intro h
    rw [← Except.ok.inj h] at hlen
    cases hlen
  · rw [hextra, hlen]
    decide

end Libraries

end PmemKv
