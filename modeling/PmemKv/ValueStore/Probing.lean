import PmemKv.Library.CyclicOrder
import PmemKv.ValueStore.ValueRuns
import PmemKv.ValueStore.Reserving

/-!
# Which pools are probed

`ReservePmem` starts at a pool that a counter chooses and goes around all pools until one finds
room.  Here the loop also keeps the pools that it has probed.  They are the pools in cyclic order up
to the first that can satisfy the request, or all pools if none can; the index of that pool is
stored three times, in the caller's `PMEMoid`, in the caller's index and in the reservation.

The last two are `unsigned int`s, while `pool_count_` is a `size_t`.  An address space has room for
at most `2 ^ 24` pools, so no index is cut.
-/

namespace PmemKv

open CyclicOrder PersistentMemory

namespace Libraries

variable (L : Libraries)

/-- The loop of `ReservePmem`, with the pools that it probes. -/
def probeLoop (size pact : ℕ) :
    ℕ → ℕ → ReserveOut → Process → List ℕ × Bool × ReserveOut × Process
  | 0, _, out, p =>
    ([], false, out, { p with
      s := { p.s with dcpmmIsAvail := false }
      actions := Function.update p.actions pact none })
  | n + 1, i, out, p =>
    match L.reserve p.s.reserves p.s.objects i size with
    | some off =>
      ([i], true, ⟨toUInt32 i, ⟨i, off⟩, some pact⟩, { p with
        s := { p.s with
          objects := ⟨i, off, size, false⟩ :: p.s.objects
          reserves := p.s.reserves + 1 }
        actions := Function.update p.actions pact (some ⟨off, toUInt32 i⟩) })
    | none =>
      let rest := probeLoop size pact n (if p.s.poolCount ≤ i + 1 then 0 else i + 1) out
        { p with s := { p.s with reserves := p.s.reserves + 1 } }
      (i :: rest.1, rest.2)

/-- What `ReservePmem` does before its loop. -/
def startProbing (p : Process) : Process where
  s := { p.s with nextPoolIndex := toUInt64 (p.s.nextPoolIndex + 1) }
  actions := Function.update p.actions p.nextAction (some ⟨0, 0⟩)
  nextAction := p.nextAction + 1

/-- `ReservePmem`, with the pools that it probes. -/
def probePmem (size : ℕ) (out : ReserveOut) (p : Process) :
    List ℕ × Bool × ReserveOut × Process :=
  L.probeLoop size p.nextAction p.s.poolCount (p.s.nextPoolIndex % p.s.poolCount) out
    (startProbing p)

/-- What `pmemobj_reserve` answers to the probe `k` of a loop that starts at the pool `i`. -/
def answer (size i : ℕ) (s : KVSState) (k : ℕ) : Option ℕ :=
  L.reserve (s.reserves + k) s.objects ((i + k) % s.poolCount) size

variable {L} {size pact i n k off : ℕ} {out : ReserveOut} {p : Process}

/-! ## The loop -/

/-- The pools that are probed do not change what the loop does. -/
lemma probeLoop_snd : (L.probeLoop size pact n i out p).2 =
    L.reserveIntoLoop size pact n i out p := by
  induction n generalizing i p with
  | zero => rfl
  | succ n ih =>
    unfold probeLoop reserveIntoLoop
    cases L.reserve p.s.reserves p.s.objects i size with
    | some off => rfl
    | none => exact ih

/-- `ReservePmem` is what it was. -/
lemma probePmem_snd : (L.probePmem size out p).2 = L.reservePmemInto size out p := probeLoop_snd

/-- The answers to a loop that starts one pool and one probe later. -/
lemma answer_succ (hi : i < p.s.poolCount) :
    L.answer size (if p.s.poolCount ≤ i + 1 then 0 else i + 1)
      { p.s with reserves := p.s.reserves + 1 } k = L.answer size i p.s (k + 1) := by
  unfold answer
  rw [wrap_eq hi, Nat.mod_add_mod, Nat.add_right_comm i 1 k, Nat.add_right_comm p.s.reserves 1 k]
  rfl

lemma answer_zero (hi : i < p.s.poolCount) :
    L.answer size i p.s 0 = L.reserve p.s.reserves p.s.objects i size := by
  rw [answer, Nat.add_zero, Nat.add_zero, Nat.mod_eq_of_lt hi]

/-- The loop stops at the first pool that can satisfy the request. -/
lemma probeLoop_of_some (hi : i < p.s.poolCount) (hk : k < n)
    (hbefore : ∀ j < k, L.answer size i p.s j = none) (hsome : L.answer size i p.s k = some off) :
    L.probeLoop size pact n i out p =
      (cyclic i p.s.poolCount (k + 1), true,
        ⟨toUInt32 ((i + k) % p.s.poolCount), ⟨(i + k) % p.s.poolCount, off⟩, some pact⟩,
        { p with
          s := { p.s with
            objects := ⟨(i + k) % p.s.poolCount, off, size, false⟩ :: p.s.objects
            reserves := p.s.reserves + (k + 1) }
          actions := Function.update p.actions pact
            (some ⟨off, toUInt32 ((i + k) % p.s.poolCount)⟩) }) := by
  induction n generalizing i k p with
  | zero => exact absurd hk (Nat.not_lt_zero k)
  | succ n ih =>
    unfold probeLoop
    cases k with
    | zero =>
      rw [answer_zero hi] at hsome
      simp only [hsome, Nat.add_zero, Nat.zero_add, cyclic_succ, cyclic_zero, Nat.mod_eq_of_lt hi]
    | succ k =>
      have hzero := hbefore 0 k.succ_pos
      rw [answer_zero hi] at hzero
      have hpos : 0 < p.s.poolCount := Nat.zero_lt_of_lt hi
      have hnext : (if p.s.poolCount ≤ i + 1 then 0 else i + 1) < p.s.poolCount := by
        rw [wrap_eq hi]
        exact Nat.mod_lt _ hpos
      rw [hzero]
      simp only
      rw [ih (p := { p with s := { p.s with reserves := p.s.reserves + 1 } }) hnext
        (Nat.lt_of_succ_lt_succ hk) (fun j hj => (answer_succ hi).trans (hbefore _ (by omega)))
        ((answer_succ hi).trans hsome)]
      simp only [wrap_eq hi, Nat.mod_add_mod, cyclic_mod]
      rw [cyclic_succ (k := k + 1), Nat.mod_eq_of_lt hi, Nat.add_right_comm i 1 k,
        Nat.add_right_comm p.s.reserves 1 (k + 1)]
      rfl

/-- The loop probes all its pools if none can satisfy the request. -/
lemma probeLoop_of_none (hi : i < p.s.poolCount) (hnone : ∀ j < n, L.answer size i p.s j = none) :
    L.probeLoop size pact n i out p =
      (cyclic i p.s.poolCount n, false, out, { p with
        s := { p.s with dcpmmIsAvail := false, reserves := p.s.reserves + n }
        actions := Function.update p.actions pact none }) := by
  induction n generalizing i p with
  | zero => rfl
  | succ n ih =>
    have hzero := hnone 0 n.succ_pos
    rw [answer_zero hi] at hzero
    have hnext : (if p.s.poolCount ≤ i + 1 then 0 else i + 1) < p.s.poolCount := by
      rw [wrap_eq hi]
      exact Nat.mod_lt _ (Nat.zero_lt_of_lt hi)
    unfold probeLoop
    rw [hzero]
    simp only
    rw [ih (p := { p with s := { p.s with reserves := p.s.reserves + 1 } }) hnext
      fun j hj => (answer_succ hi).trans (hnone _ (by omega))]
    simp only [wrap_eq hi, cyclic_mod]
    rw [cyclic_succ (k := n), Nat.mod_eq_of_lt hi, Nat.add_assoc, Nat.add_comm 1 n]

/-! ## The calls -/

/-- What a call of `ReservePmem` does, with the pools that it probes. -/
structure ReservesInOrder (L : Libraries) (size : ℕ) (out : ReserveOut) (p : Process)
    (probed : List ℕ) (ok : Bool) (out' : ReserveOut) (p' : Process) : Prop where
  /-- The pools are probed in cyclic order from the residue of the counter. -/
  order : probed = cyclic p.s.nextPoolIndex p.s.poolCount probed.length
  /-- Each pool is probed at most once. -/
  nodup : probed.Nodup
  /-- All pools before the last that is probed are unable to satisfy the request. -/
  stops : ∀ k, k + 1 < probed.length → L.answer size p.s.nextPoolIndex p.s k = none
  /-- The call returns `true` if and only if some pool can satisfy the request. -/
  returns : ok = true ↔
    ∃ k < p.s.poolCount, (L.answer size p.s.nextPoolIndex p.s k).isSome = true
  /-- The last pool that is probed owns the object then, and its index is stored three times; no
  other pool has changed. -/
  success : ok = true → ∃ pool off, probed.getLast? = some pool ∧
    L.answer size p.s.nextPoolIndex p.s (probed.length - 1) = some off ∧
    out' = ⟨pool, ⟨pool, off⟩, some p.nextAction⟩ ∧
    p'.actions = Function.update p.actions p.nextAction (some ⟨off, pool⟩) ∧
    p'.s = { p.s with
      nextPoolIndex := toUInt64 (p.s.nextPoolIndex + 1)
      objects := ⟨pool, off, size, false⟩ :: p.s.objects
      reserves := p.s.reserves + probed.length }
  /-- Otherwise each pool was probed once, and nothing but the counter and the flag has changed; the
  new `PobjAction` is deleted. -/
  failure : ok = false → probed.Perm (List.range p.s.poolCount) ∧ out' = out ∧
    p'.actions = Function.update p.actions p.nextAction none ∧
    p'.s = { p.s with
      nextPoolIndex := toUInt64 (p.s.nextPoolIndex + 1)
      dcpmmIsAvail := false
      reserves := p.s.reserves + p.s.poolCount }

/-- What a call of `KVSEncodeValue` leaves alone if it returns `false`. -/
def RefusesCleanly (L : Libraries) (p : Process) : Prop :=
  ∀ value compress out out' p', L.kvsEncodeValueInto value compress out p = .ok (false, out', p') →
    out' = out ∧ (∀ a ≠ p.nextAction, p'.actions a = p.actions a) ∧
    p'.s = { p.s with
      nextPoolIndex := p'.s.nextPoolIndex
      dcpmmIsAvail := false
      reserves := p'.s.reserves }

/-- The answers do not depend on the counter but for its residue. -/
lemma answer_mod : L.answer size (p.s.nextPoolIndex % p.s.poolCount) (startProbing p).s k =
    L.answer size p.s.nextPoolIndex p.s k := by
  unfold answer startProbing
  rw [Nat.mod_add_mod]

/-- A call that comes to a pool that can satisfy the request. -/
lemma probePmem_of_some (hk : k < p.s.poolCount)
    (hbefore : ∀ j < k, L.answer size p.s.nextPoolIndex p.s j = none)
    (hsome : L.answer size p.s.nextPoolIndex p.s k = some off) {pool : ℕ}
    (hpool : pool = (p.s.nextPoolIndex + k) % p.s.poolCount) :
    L.probePmem size out p =
      (cyclic p.s.nextPoolIndex p.s.poolCount (k + 1), true,
        ⟨toUInt32 pool, ⟨pool, off⟩, some p.nextAction⟩,
        { s := { p.s with
            nextPoolIndex := toUInt64 (p.s.nextPoolIndex + 1)
            objects := ⟨pool, off, size, false⟩ :: p.s.objects
            reserves := p.s.reserves + (k + 1) }
          actions := Function.update p.actions p.nextAction (some ⟨off, toUInt32 pool⟩)
          nextAction := p.nextAction + 1 }) := by
  have hlt : p.s.nextPoolIndex % p.s.poolCount < p.s.poolCount :=
    Nat.mod_lt _ (Nat.zero_lt_of_lt hk)
  unfold probePmem
  rw [probeLoop_of_some (p := startProbing p) hlt hk
    (fun j hj => answer_mod.trans (hbefore j hj)) (answer_mod.trans hsome)]
  simp only [startProbing, cyclic_mod, Nat.mod_add_mod, Function.update_idem, ← hpool]

/-- A call for which no pool can satisfy the request. -/
lemma probePmem_of_none (hpos : 1 ≤ p.s.poolCount)
    (hnone : ∀ j < p.s.poolCount, L.answer size p.s.nextPoolIndex p.s j = none) :
    L.probePmem size out p =
      (cyclic p.s.nextPoolIndex p.s.poolCount p.s.poolCount, false, out,
        { s := { p.s with
            nextPoolIndex := toUInt64 (p.s.nextPoolIndex + 1)
            dcpmmIsAvail := false
            reserves := p.s.reserves + p.s.poolCount }
          actions := Function.update p.actions p.nextAction none
          nextAction := p.nextAction + 1 }) := by
  have hlt : p.s.nextPoolIndex % p.s.poolCount < p.s.poolCount := Nat.mod_lt _ hpos
  unfold probePmem
  rw [probeLoop_of_none (p := startProbing p) hlt fun j hj => answer_mod.trans (hnone j hj)]
  simp only [startProbing, cyclic_mod, Function.update_idem]

/-- A failing call does what it should. -/
lemma reservesInOrder_of_none (hpos : 1 ≤ p.s.poolCount)
    (hnone : ∀ j < p.s.poolCount, L.answer size p.s.nextPoolIndex p.s j = none) :
    ReservesInOrder L size out p (L.probePmem size out p).1 (L.probePmem size out p).2.1
      (L.probePmem size out p).2.2.1 (L.probePmem size out p).2.2.2 := by
  rw [probePmem_of_none hpos hnone]
  constructor
  · rw [length_cyclic]
  · exact nodup_cyclic le_rfl
  · intro k hk
    rw [length_cyclic] at hk
    exact hnone k (Nat.lt_of_succ_lt hk)
  · refine iff_of_false (by simp) ?_
    rintro ⟨k, hk, hsome⟩
    rw [hnone k hk] at hsome
    cases hsome
  · exact fun h => by cases h
  · exact fun _ => ⟨cyclic_perm_range, rfl, rfl, rfl⟩

/-- A call that succeeds does what it should, as the index of the pool fits its variables. -/
lemma reservesInOrder_of_some (hk : k < p.s.poolCount)
    (hbefore : ∀ j < k, L.answer size p.s.nextPoolIndex p.s j = none)
    (hsome : L.answer size p.s.nextPoolIndex p.s k = some off)
    (hlt : (p.s.nextPoolIndex + k) % p.s.poolCount < 2 ^ 32) :
    ReservesInOrder L size out p (L.probePmem size out p).1 (L.probePmem size out p).2.1
      (L.probePmem size out p).2.2.1 (L.probePmem size out p).2.2.2 := by
  generalize hpool : (p.s.nextPoolIndex + k) % p.s.poolCount = pool at hlt
  rw [probePmem_of_some hk hbefore hsome hpool.symm, toUInt32_of_lt hlt]
  constructor
  · rw [length_cyclic]
  · exact nodup_cyclic hk
  · intro j hj
    rw [length_cyclic] at hj
    exact hbefore j (Nat.lt_of_succ_lt_succ hj)
  · exact iff_of_true rfl ⟨k, hk, by rw [hsome]; rfl⟩
  · intro _
    refine ⟨pool, off, ?_, ?_, rfl, rfl, ?_⟩
    · rw [getLast?_cyclic, hpool]
    · rw [length_cyclic]
      exact hsome
    · rw [length_cyclic]
  · exact fun h => by cases h

/-- `KVSEncodeValue` returns `false` behind a failing call of `ReservePmem` only. -/
lemma reservePmem_of_encodePayload {encoding : UInt8} {payload : Bytes} {s s' : KVSState}
    (h : L.encodePayload encoding payload s = .ok (none, s')) :
    L.reservePmem (1 + payload.length) s = (none, s') := by
  unfold encodePayload at h
  rcases hres : L.reservePmem (1 + payload.length) s with ⟨_ | ⟨j, off⟩, s₁⟩
  · rw [hres] at h
    cases h
    rfl
  · rw [hres] at h
    obtain ⟨pool, -, h⟩ := bind_eq_ok.mp h
    obtain ⟨u, -, h⟩ := bind_eq_ok.mp h
    cases h

/-- `KVSEncodeValue` writes nothing of its caller if it returns `false`. -/
lemma refusesCleanly (L : Libraries) (p : Process) : RefusesCleanly L p := by
  intro value compress out out' p' h
  cases havail : p.s.dcpmmIsAvail with
  | false =>
    -- the flag is cleared, and nothing happens
    unfold kvsEncodeValueInto at h
    obtain ⟨u, -, h⟩ := bind_eq_ok.mp h
    rw [havail] at h
    cases h
    refine ⟨rfl, fun _ _ => rfl, ?_⟩
    rw [← havail]
  | true =>
    rw [kvsEncodeValueInto_eq value compress out havail] at h
    rcases hkvs : L.kvsEncodeValue value compress p.s with _ | ⟨_ | _, s⟩
    · rw [hkvs] at h
      cases h
    · rw [hkvs] at h
      cases h
      refine ⟨rfl, fun a ha => Function.update_of_ne ha _ _, ?_⟩
      -- the pools are open, and no pool had room
      have hopen : p.s.pools.isSome = true := by
        unfold kvsEncodeValue at hkvs
        obtain ⟨u, hpools, -⟩ := bind_eq_ok.mp hkvs
        exact require_eq_ok.mp hpools
      rw [kvsEncodeValue_eq hopen, if_pos havail] at hkvs
      obtain ⟨-, m, t, rfl⟩ :=
        encodePayload_none (ptrEncoding compress) (reservePmem_of_encodePayload hkvs)
      rfl
    · rw [hkvs] at h
      cases h

/-- **Which pools are probed.**  `ReservePmem` probes the pools in cyclic order, takes the first
that can satisfy the request, and leaves everything as it was if there is none; it does so for any
number of pools, any counter and any free space. -/
theorem reservePmem_probes (L : Libraries) (size : ℕ) (out : ReserveOut) (p : Process)
    (hL : L.Lawful p.s.poolCount) (hcount : 1 ≤ p.s.poolCount) :
    ReservesInOrder L size out p (L.probePmem size out p).1 (L.probePmem size out p).2.1
        (L.probePmem size out p).2.2.1 (L.probePmem size out p).2.2.2 ∧
      (L.probePmem size out p).2 = L.reservePmemInto size out p ∧ RefusesCleanly L p := by
  refine ⟨?_, probePmem_snd, refusesCleanly L p⟩
  by_cases hex : ∃ k < p.s.poolCount, (L.answer size p.s.nextPoolIndex p.s k).isSome = true
  · -- the first pool that can satisfy the request
    obtain ⟨hk, hfirst⟩ := Nat.find_spec hex
    have hbefore : ∀ j < Nat.find hex, L.answer size p.s.nextPoolIndex p.s j = none := by
      intro j hj
      have hnot := Nat.find_min hex hj
      rw [not_and] at hnot
      exact Option.not_isSome_iff_eq_none.mp (hnot (hj.trans hk))
    obtain ⟨off, hoff⟩ := Option.isSome_iff_exists.mp hfirst
    apply reservesInOrder_of_some hk hbefore hoff
    have hlt : (p.s.nextPoolIndex + Nat.find hex) % p.s.poolCount < p.s.poolCount :=
      Nat.mod_lt _ hcount
    exact (hlt.trans_le hL.count_le).trans (by decide)
  · apply reservesInOrder_of_none hcount
    intro j hj
    exact Option.not_isSome_iff_eq_none.mp fun hsome => hex ⟨j, hj, hsome⟩

/-- A value store with that many pools, which are empty, and the next of them. -/
def emptyPools (count next : ℕ) : Process where
  s := { KVSState.start fun _ => 0 with
    pools := some fun i => ⟨sampleLibraries.uuidLo i, sampleLibraries.addr 1 i⟩
    poolCount := count
    nextPoolIndex := next
    opens := 1 }
  actions _ := none
  nextAction := 1

/-- Variables that hold nothing yet. -/
def noReservation : ReserveOut := ⟨0, ⟨0, 0⟩, none⟩

/-- Two pools, when the counter is about to wrap. -/
theorem emptyPools_probes :
    ReservesInOrder sampleLibraries 9 noReservation (emptyPools 2 (2 ^ 64 - 1))
        (sampleLibraries.probePmem 9 noReservation (emptyPools 2 (2 ^ 64 - 1))).1
        (sampleLibraries.probePmem 9 noReservation (emptyPools 2 (2 ^ 64 - 1))).2.1
        (sampleLibraries.probePmem 9 noReservation (emptyPools 2 (2 ^ 64 - 1))).2.2.1
        (sampleLibraries.probePmem 9 noReservation (emptyPools 2 (2 ^ 64 - 1))).2.2.2 ∧
      (sampleLibraries.probePmem 9 noReservation (emptyPools 2 (2 ^ 64 - 1))).2 =
        sampleLibraries.reservePmemInto 9 noReservation (emptyPools 2 (2 ^ 64 - 1)) ∧
      RefusesCleanly sampleLibraries (emptyPools 2 (2 ^ 64 - 1)) :=
  reservePmem_probes sampleLibraries 9 noReservation (emptyPools 2 (2 ^ 64 - 1))
    sampleLibraries_lawful (by decide)

end Libraries

end PmemKv
