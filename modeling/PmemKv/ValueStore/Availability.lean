import PmemKv.ValueStore.Accounting

/-!
# When values are accepted

`KVSEncodeValue` refuses every value while `dcpmm_is_avail_` is cleared.  The flag is cleared when
all pools refuse an object, and set again by the call of `KVSFreeValue` or `KVSDumpFromValueRef`
with which the bytes that were given back since exceed a tenth of the size of the pools.  An empty
store may therefore refuse all values; it accepts those that fit exactly if enough was given back
after every such refusal.
-/

namespace PmemKv

open PersistentMemory

namespace Libraries

/-- What is documented of the free space of the pools. -/
structure Roomy (L : Libraries) (count : ℕ) (free : List Obj → ℕ → ℕ) (capacity : ℕ → ℕ) :
    Prop where
  /-- An object that fits in the free space of a pool is found room for. -/
  reserve_isSome : ∀ t objects, ∀ i < count, ∀ size, 0 < size → size ≤ free objects i →
    (L.reserve t objects i size).isSome = true
  /-- The free space of an empty pool is always the same. -/
  free_empty : ∀ objects, ∀ i < count, (∀ o ∈ objects, o.pool ≠ i) → free objects i = capacity i

variable (L : Libraries)

/-- The size of the value that is freed or dumped. -/
def freedSize : KvsCall → ℕ
  | .free ref => if IsRaw ref then 0 else ref.size
  | .dump ref => if IsRaw ref then 0 else ref.size
  | _ => 0

/-- The bytes of the values that are freed or dumped. -/
def freedBytes : List KvsCall → ℕ
  | [] => 0
  | call :: calls => freedSize call + freedBytes calls

/-- After every refusal, values with more than `min` bytes are given back. -/
def Recovered (min : ℕ) : List KvsCall → KvsRun → Prop
  | [], _ => True
  | call :: calls, r => (L.Refuses r.s call → min < freedBytes calls) ∧
      match L.runCall call r with
      | .ok r => Recovered min calls r
      | .error _ => True

variable {L} {count i j n size : ℕ} {s s' : KVSState} {r : KvsRun}

/-! ## Reserving -/

/-- The loop fails if no pool has room. -/
lemma reserveLoop_eq_none (hfull : ∀ t i, L.reserve t s.objects i size = none) :
    (L.reserveLoop size n i s).1 = none := by
  induction n generalizing i s with
  | zero => rfl
  | succ n ih =>
    unfold reserveLoop
    rw [hfull]
    exact ih (s := { s with reserves := s.reserves + 1 }) hfull

lemma reservePmem_eq_none (hfull : ∀ t i, L.reserve t s.objects i size = none) :
    ∃ s', L.reservePmem size s = (none, s') := by
  have hnone : (L.reservePmem size s).1 = none := reserveLoop_eq_none hfull
  exact ⟨(L.reservePmem size s).2, Prod.ext hnone rfl⟩

/-- `ReservePmem` succeeds if some pool has room. -/
lemma reservePmem_isSome (hcount : s.poolCount = count) (hj : j < count)
    (hroom : ∀ t, (L.reserve t s.objects j size).isSome = true) :
    (L.reservePmem size s).1.isSome = true := by
  rw [reservePmem_isSome_iff size (by omega), hcount]
  -- the loop comes to the pool after that many rounds
  refine ⟨(j + count - s.nextPoolIndex % count) % count, Nat.mod_lt _ (by omega), ?_⟩
  have hlt : s.nextPoolIndex % count < count := Nat.mod_lt _ (by omega)
  have hindex : (s.nextPoolIndex + (j + count - s.nextPoolIndex % count) % count) % count = j := by
    rw [Nat.add_mod_mod, ← Nat.mod_add_mod, Nat.add_sub_cancel' (by omega), Nat.add_mod_right,
      Nat.mod_eq_of_lt hj]
  rw [hindex]
  exact hroom _

/-! ## The flag -/

/-- What a call does to the flag and to the bytes that are counted. -/
structure FlagStep (L : Libraries) (s s' : KVSState) (call : KvsCall) : Prop where
  /-- The threshold stays. -/
  min_eq : s'.dcpmmAvailSizeMin = s.dcpmmAvailSizeMin
  /-- A refusal clears the flag. -/
  refused : L.Refuses s call → s'.dcpmmIsAvail = false ∧ s'.dcpmmAvailSize = s.dcpmmAvailSize
  /-- Otherwise it stays set. -/
  accepted : s.dcpmmIsAvail = true → ¬L.Refuses s call →
    s'.dcpmmIsAvail = true ∧ s'.dcpmmAvailSize = s.dcpmmAvailSize
  /-- Enough bytes set the flag. -/
  recovered : s.dcpmmIsAvail = false → s.dcpmmAvailSizeMin < s.dcpmmAvailSize + freedSize call →
    s'.dcpmmIsAvail = true ∧ s'.dcpmmAvailSize = 0
  /-- Fewer are counted. -/
  counted : s.dcpmmIsAvail = false → s.dcpmmAvailSize + freedSize call ≤ s.dcpmmAvailSizeMin →
    s'.dcpmmIsAvail = false ∧ s'.dcpmmAvailSize = s.dcpmmAvailSize + freedSize call

/-- The bytes that a call gives back are counted as the flag says. -/
lemma flagStep_of_flagged (hs : Counted s) {call : KvsCall} (hframe : CallFrame s s')
    (hflag : L.Flagged s call s'.dcpmmAvailSize s'.dcpmmIsAvail)
    (hfreed : (givenBack call).getD 0 = freedSize call)
    (hlt : ∀ n, givenBack call = some n → n < 2 ^ 32) : FlagStep L s s' call := by
  have hmin := hs.min_lt
  have hle := hs.size_le
  cases hgiven : givenBack call with
  | some n =>
    have hn := hlt n hgiven
    obtain ⟨hsize, havail⟩ := hflag.given n hgiven
    have hrefuses : ¬L.Refuses s call := by
      intro h
      cases call with
      | encode value compress => cases hgiven
      | _ => exact h
    rw [hgiven, Option.getD_some] at hfreed
    refine ⟨hframe.min_eq, fun h => absurd h hrefuses, fun h _ => ?_, fun h hrec => ?_,
      fun h hcnt => ?_⟩
    · rw [hsize, havail, noteFreed_of_avail h]
      exact ⟨h, rfl⟩
    · rw [hsize, havail]
      exact (noteFreed_of_lt h (by omega) (by omega)).symm
    · rw [hsize, havail, ← hfreed]
      exact (noteFreed_of_le h (by omega) (by omega)).symm
  | none =>
    rw [hgiven, Option.getD_none] at hfreed
    refine ⟨hframe.min_eq, fun h => (hflag.refused h).symm, fun h hrefuses => ?_, fun _ hrec => ?_,
      fun h _ => ?_⟩
    · obtain ⟨hsize, havail⟩ := hflag.other hgiven hrefuses
      exact ⟨havail.trans h, hsize⟩
    · omega
    · obtain ⟨hsize, havail⟩ := hflag.other hgiven (not_refuses h)
      rw [← hfreed]
      exact ⟨havail.trans h, hsize⟩

lemma Ledger.size_lt (h : L.Ledger count r) {x : StoredValue} (hx : x ∈ r.live) :
    x.ref.size < 2 ^ 32 := by
  rw [(h.stored x hx).size_eq]
  exact Nat.mod_lt _ (Nat.two_pow_pos 32)

lemma Ledger.not_isRaw (h : L.Ledger count r) {x : StoredValue} (hx : x ∈ r.live) :
    ¬IsRaw x.ref := by
  obtain ⟨h₁, h₂⟩ := ptrEncoding_ne x.compress
  rw [← (h.stored x hx).encoding_eq] at h₁ h₂
  exact not_or.mpr ⟨h₁, h₂⟩

/-- What an admissible call gives back. -/
lemma Ledger.givenBack_eq (h : L.Ledger count r) {call : KvsCall} (hadm : AdmitsCall r call) :
    (givenBack call).getD 0 = freedSize call ∧ ∀ n, givenBack call = some n → n < 2 ^ 32 := by
  cases call with
  | encode value compress => exact ⟨rfl, fun n hn => by cases hn⟩
  | publish pacts => exact ⟨rfl, fun n hn => by cases hn⟩
  | free ref =>
    simp only [givenBack, freedSize]
    by_cases hraw : IsRaw ref
    · rw [if_pos hraw, if_pos hraw]
      exact ⟨rfl, fun n hn => by cases hn⟩
    · obtain ⟨-, x, hx, rfl⟩ := hadm.resolve_left hraw
      rw [if_neg hraw, if_neg hraw]
      refine ⟨rfl, fun n hn => ?_⟩
      cases hn
      exact h.size_lt hx
  | dump ref =>
    simp only [givenBack, freedSize]
    obtain ⟨-, hraw | ⟨x, hx, rfl⟩⟩ := hadm
    · have hptr : ¬(ref.encoding = kEncodingPtrCompressed ∨
          ref.encoding = kEncodingPtrUncompressed) := by
        rcases hraw with heq | heq <;> rw [heq] <;> decide
      rw [if_neg hptr, if_pos hraw]
      exact ⟨rfl, fun n hn => by cases hn⟩
    · rw [if_pos (isPtr_of_eq (h.stored x hx).encoding_eq), if_neg (h.not_isRaw hx)]
      refine ⟨rfl, fun n hn => ?_⟩
      cases hn
      exact h.size_lt hx

/-- **Every call** treats the flag so, and leaves the pools open. -/
lemma Ledger.flagStep (h : L.Ledger count r) (hs : Counted r.s) {call : KvsCall}
    (hadm : AdmitsCall r call) {r' : KvsRun} (hrun : L.runCall call r = .ok r') :
    FlagStep L r.s r'.s call ∧ r'.s.pools = r.s.pools := by
  obtain ⟨hframe, hflag⟩ := flagged_runCall hrun
  obtain ⟨hfreed, hlt⟩ := h.givenBack_eq hadm
  exact ⟨flagStep_of_flagged hs hframe hflag hfreed hlt, hframe.pools_eq⟩

/-! ## Runs -/

/-- **After a run** the flag is set if enough was given back after it was cleared. -/
theorem Ledger.avail_iff (hL : L.Lawful count) (h : L.Ledger count r) (hs : Counted r.s)
    {calls : List KvsCall} (hadm : L.Admissible count (calls.map KvsEvent.call) r) :
    ∃ r', L.runEvents (calls.map KvsEvent.call) r = .ok r' ∧ L.Ledger count r' ∧
      r'.s.pools = r.s.pools ∧ (r'.s.dcpmmIsAvail = true ↔
        (r.s.dcpmmIsAvail = false →
          r.s.dcpmmAvailSizeMin < r.s.dcpmmAvailSize + freedBytes calls) ∧
        L.Recovered r.s.dcpmmAvailSizeMin calls r) := by
  induction calls generalizing r with
  | nil =>
    refine ⟨r, rfl, h, rfl, ?_⟩
    have hle := hs.size_le
    unfold freedBytes Recovered
    cases r.s.dcpmmIsAvail with
    | true => simp
    | false => simp [hle]
  | cons call calls ih =>
    obtain ⟨hcall, hcalls⟩ := hadm
    obtain ⟨r₁, hrun₁, h₁⟩ := h.runCall hL hcall
    have hevent : L.runEvent (.call call) r = .ok r₁ := hrun₁
    obtain ⟨hstep, hpools⟩ := h.flagStep hs hcall hrun₁
    rw [hevent] at hcalls
    obtain ⟨r₂, hrun₂, h₂, hpools₂, hiff⟩ :=
      ih h₁ (hs.runCall (h.givenBack_eq hcall).2 hrun₁) hcalls
    refine ⟨r₂, ?_, h₂, hpools₂.trans hpools, ?_⟩
    · rw [List.map_cons, Libraries.runEvents, hevent]
      exact hrun₂
    · rw [hiff, hstep.min_eq]
      rw [freedBytes, Recovered, hrun₁]
      by_cases havail : r.s.dcpmmIsAvail
      · have hzero := hs.size_zero havail
        by_cases hrefuses : L.Refuses r.s call
        · obtain ⟨hflag, hsize⟩ := hstep.refused hrefuses
          simp [havail, hrefuses, hflag, hsize, hzero]
        · obtain ⟨hflag, -⟩ := hstep.accepted havail hrefuses
          simp [havail, hrefuses, hflag]
      · rw [Bool.not_eq_true] at havail
        have hrefuses : ¬L.Refuses r.s call := not_refuses havail
        by_cases hle : r.s.dcpmmAvailSize + freedSize call ≤ r.s.dcpmmAvailSizeMin
        · obtain ⟨hflag, hsize⟩ := hstep.counted havail hle
          simp [havail, hrefuses, hflag, hsize, Nat.add_assoc]
        · have hlt := Nat.lt_of_not_le hle
          obtain ⟨hflag, -⟩ := hstep.recovered havail hlt
          have htotal : r.s.dcpmmAvailSizeMin <
              r.s.dcpmmAvailSize + (freedSize call + freedBytes calls) := by omega
          simp [hrefuses, hflag, htotal]

/-- With open pools that are empty, a value that fits is accepted if the flag is set. -/
lemma Ledger.encode_isSome_iff {free : List Obj → ℕ → ℕ} {capacity : ℕ → ℕ} (hL : L.Lawful count)
    (hroom : L.Roomy count free capacity) (h : L.Ledger count r)
    (hopen : r.s.pools.isSome = true) (hempty : r.live = []) (value : Bytes) (compress : Bool)
    (hi : i < count) (hfits : 1 + (L.payload compress value).length ≤ capacity i) :
    ∃ res s', L.kvsEncodeValue value compress r.s = .ok (res, s') ∧
      (res.isSome = true ↔ r.s.dcpmmIsAvail = true) := by
  obtain ⟨pools, hpools⟩ := Option.isSome_iff_exists.mp hopen
  have hobjects : r.s.objects = [] := by
    rw [h.objects_eq, hempty]
    rfl
  rw [kvsEncodeValue_eq hopen]
  by_cases havail : r.s.dcpmmIsAvail
  · rw [if_pos havail]
    have hreserve : ∀ t, (L.reserve t r.s.objects i
        (1 + (L.payload compress value).length)).isSome = true := by
      intro t
      apply hroom.reserve_isSome t r.s.objects i hi _ (by omega)
      rw [hroom.free_empty r.s.objects i hi (by simp [hobjects])]
      exact hfits
    have hsome := reservePmem_isSome (h.pools_eq pools hpools).1 hi hreserve
    rcases hres : L.reservePmem (1 + (L.payload compress value).length) r.s with
      ⟨_ | ⟨j, off⟩, s'⟩
    · rw [hres] at hsome
      cases hsome
    · obtain ⟨n, t, -, -, heq⟩ := encodePayload_some hL (h.opened hopen) (ptrEncoding compress) hres
      exact ⟨_, _, heq, by simp [havail]⟩
  · rw [if_neg havail]
    exact ⟨_, _, rfl, by simp [havail]⟩

/-- **When an empty store accepts values.**  After the first `KVSOpen` and any admissible calls,
with all values freed or dumped again, a value that fits in an empty pool is accepted if and only if
after every refusal more than a tenth of the size was given back. -/
theorem accepts_iff_recovered {free : List Obj → ℕ → ℕ} {capacity : ℕ → ℕ} (hL : L.Lawful count)
    (hroom : L.Roomy count free capacity) (mem : ℕ → UInt8) (hsize : size < 2 ^ 64) {s₀ : KVSState}
    (hopen : L.kvsOpen size count (KVSState.start mem) = .ok (true, s₀)) (calls : List KvsCall)
    (hadm : L.Admissible count (calls.map KvsEvent.call) ⟨s₀, []⟩) :
    ∃ r, L.runEvents (calls.map KvsEvent.call) ⟨s₀, []⟩ = .ok r ∧ (r.live = [] →
      ∀ value compress i, i < count → 1 + (L.payload compress value).length ≤ capacity i →
        ∃ res s', L.kvsEncodeValue value compress r.s = .ok (res, s') ∧
          (res.isSome = true ↔ L.Recovered (size / 10) calls ⟨s₀, []⟩)) := by
  obtain ⟨hpos, hpools, havail, hzero, hmin⟩ := kvsOpen_restart (s := KVSState.start mem) hopen
  obtain ⟨r₀, hrun₀, h₀⟩ := (ledger_start mem).kvsOpen hL size ⟨rfl, rfl, hpos⟩
  have hr₀ : r₀ = ⟨s₀, []⟩ := by
    unfold runEvent at hrun₀
    simp only [bind, Except.bind, pure, Except.pure, KvsRun.start] at hrun₀
    rw [hopen] at hrun₀
    cases hrun₀
    rfl
  subst hr₀
  have hs : Counted s₀ := counted_of_open hsize hzero hmin
  obtain ⟨r, hrun, h, hpools', hiff⟩ := h₀.avail_iff hL hs hadm
  refine ⟨r, hrun, fun hempty value compress i hi hfits => ?_⟩
  have hopen' : r.s.pools.isSome = true := by rwa [hpools']
  obtain ⟨res, s', hencode, hres⟩ :=
    h.encode_isSome_iff hL hroom hopen' hempty value compress hi hfits
  refine ⟨res, s', hencode, ?_⟩
  rw [hres, hiff, ← hmin]
  simp [havail]

/-- A refusal changes nothing in the ledger. -/
lemma runCall_refused {value : Bytes} {compress : Bool} (hopen : r.s.pools.isSome = true)
    (havail : r.s.dcpmmIsAvail = true)
    (hres : L.reservePmem (1 + (L.payload compress value).length) r.s = (none, s')) :
    L.runCall (.encode value compress) r = .ok ⟨s', r.live⟩ := by
  unfold Libraries.runCall
  simp only [bind, Except.bind, pure, Except.pure]
  rw [kvsEncodeValue_eq hopen, if_pos havail, (encodePayload_none (ptrEncoding compress) hres).1]

/-! ## Sample runs -/

/-- The room behind the last object of a pool. -/
def sampleFree (objects : List Obj) (i : ℕ) : ℕ := 2 ^ 23 - poolTop objects i

/-- The room in an empty pool. -/
def sampleCapacity (_ : ℕ) : ℕ := 2 ^ 23 - 4096

lemma poolTop_of_forall_ne {objects : List Obj} (h : ∀ o ∈ objects, o.pool ≠ i) :
    poolTop objects i = 4096 := by
  induction objects with
  | nil => rfl
  | cons o objects ih =>
    unfold poolTop
    rw [List.foldr_cons, if_neg (h o List.mem_cons_self)]
    exact ih fun o' ho' => h o' (List.mem_cons_of_mem o ho')

lemma sampleLibraries_roomy : sampleLibraries.Roomy 2 sampleFree sampleCapacity := by
  constructor
  · intro t objects i _ size hpos hle
    unfold sampleFree at hle
    simp only [sampleLibraries]
    rw [if_pos (by omega)]
    rfl
  · intro objects i _ h
    unfold sampleFree sampleCapacity
    rw [poolTop_of_forall_ne h]

lemma sampleLibraries_reserve_eq_none {t : ℕ} {objects : List Obj} (h : 2 ^ 23 < size) :
    sampleLibraries.reserve t objects i size = none := by
  simp only [sampleLibraries]
  rw [if_neg (by omega)]

/-- The state after the first `KVSOpen`. -/
def sampleOpened : KVSState where
  pools := some (Function.update
    (Function.update (fun _ => ⟨0, 0⟩) 0 ⟨1, sampleLibraries.addr 1 0⟩) 1
    ⟨2, sampleLibraries.addr 1 1⟩)
  poolCount := 2
  nextPoolIndex := 0
  dcpmmAvailSizeMin := 2 ^ 24 / 10
  dcpmmAvailSize := 0
  dcpmmIsAvail := true
  mem := sampleLibraries.mapped 1 [] fun _ => 0
  objects := []
  tries := 1
  opens := 1
  reserves := 0

lemma sampleOpened_eq :
    sampleLibraries.kvsOpen (2 ^ 24) 2 (KVSState.start fun _ => 0) = .ok (true, sampleOpened) := rfl

/-- A value is stored, published and freed, another one is stored and dumped. -/
def sampleCalls : List KvsCall :=
  [.encode [5, 6] false, .publish [⟨4096, 0⟩], .encode [7] true,
    .free ⟨kEncodingPtrUncompressed, 2, 0, 4096⟩, .dump ⟨kEncodingPtrCompressed, 3, 1, 4096⟩]

theorem sampleCalls_accepts_iff :
    ∃ r, sampleLibraries.runEvents (sampleCalls.map KvsEvent.call) ⟨sampleOpened, []⟩ = .ok r ∧
      (r.live = [] → ∀ value compress i, i < 2 →
        1 + (sampleLibraries.payload compress value).length ≤ sampleCapacity i →
          ∃ res s', sampleLibraries.kvsEncodeValue value compress r.s = .ok (res, s') ∧
            (res.isSome = true ↔
              sampleLibraries.Recovered (2 ^ 24 / 10) sampleCalls ⟨sampleOpened, []⟩)) :=
  accepts_iff_recovered sampleLibraries_lawful sampleLibraries_roomy (fun _ => 0) (by decide)
    sampleOpened_eq sampleCalls (by decide +kernel)

/-- A value that no pool is large enough for is refused, and `dcpmm_is_avail_` is cleared. -/
lemma sampleLibraries_refuses {s : KVSState} (live : List StoredValue)
    (hopen : s.pools.isSome = true)
    (havail : s.dcpmmIsAvail = true) (value : Bytes) (hlen : 2 ^ 23 ≤ value.length) :
    sampleLibraries.Refuses s (.encode value false) ∧
      ∃ n t, sampleLibraries.runEvent (.call (.encode value false)) ⟨s, live⟩ =
        .ok ⟨{ s with nextPoolIndex := n, dcpmmIsAvail := false, reserves := t }, live⟩ := by
  have hfull : ∀ t i, sampleLibraries.reserve t s.objects i
      (1 + (sampleLibraries.payload false value).length) = none := by
    intro t i
    have hpayload : (sampleLibraries.payload false value).length = value.length := rfl
    apply sampleLibraries_reserve_eq_none
    rw [hpayload]
    omega
  obtain ⟨s', hres⟩ := reservePmem_eq_none hfull
  have hrun : sampleLibraries.runEvent (.call (.encode value false)) ⟨s, live⟩ = .ok ⟨s', live⟩ :=
    runCall_refused hopen havail hres
  obtain ⟨-, n, t, rfl⟩ := encodePayload_none (ptrEncoding false) hres
  exact ⟨⟨havail, congrArg Prod.fst hres⟩, n, t, hrun⟩

/-- A value that no pool is large enough for closes the store: nothing is stored, and a value of one
byte is refused as well. -/
lemma large_wedges (value : Bytes) (hlen : 2 ^ 23 ≤ value.length) :
    sampleLibraries.Admissible 2 [.call (.encode value false)] ⟨sampleOpened, []⟩ ∧
      1 + (sampleLibraries.payload false [1]).length ≤ sampleCapacity 0 ∧
      ∃ r s', sampleLibraries.runEvents [.call (.encode value false)] ⟨sampleOpened, []⟩ = .ok r ∧
        r.live = [] ∧ sampleLibraries.kvsEncodeValue [1] false r.s = .ok (none, s') := by
  obtain ⟨-, n, t, hrun⟩ := sampleLibraries_refuses (s := sampleOpened) [] rfl rfl value hlen
  generalize hs : ({ sampleOpened with
    nextPoolIndex := n, dcpmmIsAvail := false, reserves := t } : KVSState) = s' at hrun
  refine ⟨⟨rfl, ?_⟩, by decide, ⟨s', []⟩, s', ?_, rfl, ?_⟩
  · rw [hrun]
    exact True.intro
  · rw [runEvents, hrun]
    rfl
  · rw [← hs, kvsEncodeValue_eq rfl, if_neg Bool.false_ne_true]

/-- A value that is as large as a pool. -/
def oversized : Bytes := List.replicate (2 ^ 23) 0

theorem oversized_wedges :
    sampleLibraries.Lawful 2 ∧ sampleLibraries.Roomy 2 sampleFree sampleCapacity ∧
      sampleLibraries.kvsOpen (2 ^ 24) 2 (KVSState.start fun _ => 0) = .ok (true, sampleOpened) ∧
      sampleLibraries.Admissible 2 [.call (.encode oversized false)] ⟨sampleOpened, []⟩ ∧
      1 + (sampleLibraries.payload false [1]).length ≤ sampleCapacity 0 ∧
      ∃ r s', sampleLibraries.runEvents [.call (.encode oversized false)] ⟨sampleOpened, []⟩ =
        .ok r ∧
        r.live = [] ∧ sampleLibraries.kvsEncodeValue [1] false r.s = .ok (none, s') := by
  refine ⟨sampleLibraries_lawful, sampleLibraries_roomy, sampleOpened_eq, large_wedges oversized ?_⟩
  unfold oversized
  rw [List.length_replicate]

end Libraries

end PmemKv
