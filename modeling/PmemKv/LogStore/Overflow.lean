import PmemKv.LogStore.LogRuns

/-!
# The end of the mapping

`_push_back` never looks at `_mapped_len`, and `Set` returns `Ok` only: a record that does not fit
is written over the end of the mapping.  What the code does is therefore told by a mapping that
takes up the whole address space, of which only the first bytes belong to the file; a shorter
mapping makes a difference only in that it faults (`stricter_set`).

A run stays inside its mapping exactly if the records of all its calls of `Set` fit, one behind the
other.  Without `USE_LIBPMEM` the mapping is anonymous, and the store is empty whenever it is
opened.
-/

namespace PmemKv

open AtomicProg AtomicProg.Prog PersistentMemory

/-- A call of `Set`, or the store is closed and opened again. -/
inductive LogCall : Type
  /-- `Set(key, value)`. -/
  | set (key value : Bytes)
  /-- The store is closed and opened again. -/
  | reopen

namespace Mapping

/-- A mapping that takes up the address space. -/
def addressSpace (useLibpmem : Bool) : Mapping := ⟨2 ^ 64 - 1, by decide, by decide, useLibpmem⟩

/-- The bytes that `Append` writes for a key and a value. -/
def recordLength (key value : Bytes) : ℕ := 16 + key.length + value.length

/-- What the first `len` bytes hold when the store is opened again. -/
def remapped (useLibpmem : Bool) (s : PMem UInt8) : PMem UInt8 :=
  if useLibpmem then s else ⟨fun _ => 0, []⟩

/-- One call. -/
def runLogCall (useLibpmem : Bool) (fuel : ℕ) (call : LogCall) (st : StoreState) :
    Outcome Reply StoreState :=
  match call with
  | .set key value => (addressSpace useLibpmem).runEvent fuel (.set key value) st
  | .reopen => (addressSpace useLibpmem).openStore fuel (remapped useLibpmem st.pmem)

/-- Every byte that the program stores is one of the first `len` bytes. -/
def StoresInside (len : ℕ) {β : Type} (p : LogProg β) (s : PMem UInt8) : Prop :=
  ∀ op ∈ trace PMem.exec p s, ∀ a bs, op = PmOp.store a bs → ∀ x, a ≤ x →
    x < a + bs.length → x < len

/-- A call of `Set` stays inside the first `len` bytes. -/
structure SetContained (useLibpmem : Bool) (len : ℕ) (st : StoreState) (key value : Bytes) :
    Prop where
  /-- It writes no other byte. -/
  inside : StoresInside len ((addressSpace useLibpmem).set st.db key value) st.pmem
  /-- It returns.  A record that does not fit is refused, and the memory, `_end_off` and the map are
  left as they were; otherwise `_end_off` does not wrap. -/
  returns : ∃ status db s, run PMem.exec ((addressSpace useLibpmem).set st.db key value) st.pmem =
      .done (status, db) s ∧
    (len < st.db.endOff + recordLength key value → status ≠ .Ok ∧ s = st.pmem ∧ db = st.db) ∧
    (status = .Ok → db.endOff = st.db.endOff + recordLength key value)

/-- A call stays inside the first `len` bytes. -/
def CallContained (useLibpmem : Bool) (len : ℕ) (st : StoreState) : LogCall → Prop
  | .set key value => SetContained useLibpmem len st key value
  | .reopen => True

/-- All calls in a run stay inside the first `len` bytes. -/
def Contained (useLibpmem : Bool) (len fuel : ℕ) : List LogCall → StoreState → Prop
  | [], _ => True
  | call :: calls, st => CallContained useLibpmem len st call ∧
      After (Contained useLibpmem len fuel calls) (runLogCall useLibpmem fuel call st)

/-- The same for a run that begins with a new file, which reads as zeros. -/
def ContainedNew (useLibpmem : Bool) (len fuel : ℕ) (calls : List LogCall) : Prop :=
  After (Contained useLibpmem len fuel calls)
    ((addressSpace useLibpmem).openStore fuel ⟨fun _ => 0, []⟩)

/-- The record of a call fits in `len` bytes, behind a log that ends at the address `e`. -/
def CallFits (len e : ℕ) : LogCall → Prop
  | .set key value => e + recordLength key value ≤ len
  | .reopen => True

/-- Where the log ends after a call. -/
def endAfter (useLibpmem : Bool) (e : ℕ) : LogCall → ℕ
  | .set key value => e + recordLength key value
  | .reopen => if useLibpmem then e else 8

/-- The records of the calls fit in `len` bytes, one behind the other from the address `e` on. -/
def RecordsFit (useLibpmem : Bool) (len : ℕ) : ℕ → List LogCall → Prop
  | _, [] => True
  | e, call :: calls => CallFits len e call ∧
      RecordsFit useLibpmem len (endAfter useLibpmem e call) calls

variable {M N : Mapping} {useLibpmem : Bool} {len fuel e e' : ℕ} {st : StoreState}
  {s s' : PMem UInt8}
  {recs : List Record} {key value x : Bytes} {db db' : NvmExample} {status : Status}

/-! ## Mappings of different lengths -/

section Stricter

variable (hlen : M.mappedLen ≤ N.mappedLen)

include hlen in
lemma stricter_load (addr n : ℕ) : Stricter (M.load addr n) (N.load addr n) := by
  refine (Stricter.check fun h => ?_).bind fun _ => Stricter.refl _
  rw [decide_eq_true_eq] at h ⊢
  exact h.trans hlen

include hlen in
lemma stricter_storeBytes (addr : ℕ) (bs : Bytes) :
    Stricter (M.storeBytes addr bs) (N.storeBytes addr bs) := by
  refine (Stricter.check fun h => ?_).bind fun _ => Stricter.refl _
  rw [decide_eq_true_eq] at h ⊢
  exact h.trans hlen

include hlen in
lemma stricter_pushBack (hlib : M.useLibpmem = N.useLibpmem) (e : ℕ) (x : Bytes) :
    Stricter (M.pushBack e x) (N.pushBack e x) := by
  have hpersist : ∀ addr n, M.persist addr n = N.persist addr n := by
    intro addr n
    rw [persist, persist, hlib]
  unfold pushBack
  simp only [hpersist]
  refine (stricter_storeBytes hlen _ _).bind fun _ => ?_
  refine (Stricter.refl _).bind fun _ => ?_
  refine (stricter_storeBytes hlen _ _).bind fun _ => ?_
  exact Stricter.refl _

include hlen in
/-- **A longer mapping** lets `Set` do whatever a shorter one does. -/
theorem stricter_set (hlib : M.useLibpmem = N.useLibpmem) (db : NvmExample) (key value : Bytes) :
    Stricter (M.set db key value) (N.set db key value) := by
  unfold set append
  refine Stricter.bind ?_ fun kv => ?_
  · refine (stricter_pushBack hlen hlib _ _).bind fun k => ?_
    refine (stricter_pushBack hlen hlib _ _).bind fun v => ?_
    refine Stricter.bind ?_ fun _ => Stricter.refl _
    exact (stricter_load hlen _ _).bind fun _ => Stricter.refl _
  · refine Stricter.bind ?_ fun _ => Stricter.refl _
    unfold toString
    cases kv.1.1.data with
    | none => exact Stricter.refl _
    | some addr => exact stricter_load hlen _ _

end Stricter

/-- On a mapping of any length, `Set` does what it does in the address space, unless it faults. -/
theorem run_set_addressSpace
    (hrun : run PMem.exec (M.set db key value) s = .done (status, db') s') :
    run PMem.exec ((addressSpace M.useLibpmem).set db key value) s = .done (status, db') s' :=
  (stricter_set (N := addressSpace M.useLibpmem) (Nat.le_pred_of_lt M.lt) rfl
    db key value).run_eq_done
    hrun

/-! ## One call of `Set` -/

/-- `Set` always returns `Ok`. -/
lemma status_of_run_set (hrun : run PMem.exec (M.set db key value) s = .done (status, db') s') :
    status = .Ok := by
  unfold set at hrun
  obtain ⟨kv, s₁, -, hrun⟩ := run_bind_eq_done hrun
  obtain ⟨k, s₂, -, hrun⟩ := run_bind_eq_done hrun
  cases hrun
  rfl

/-- A program that stores nothing. -/
lemma storesInside_of_trace_eq {β : Type} {p : LogProg β} (h : trace PMem.exec p s = []) :
    StoresInside len p s := by
  intro op hop
  rw [h] at hop
  exact absurd hop List.not_mem_nil

lemma storesInside_storeBytes (hfits : e + x.length ≤ len) :
    StoresInside len (M.storeBytes e x) s := by
  unfold storeBytes
  refine forall_mem_trace_bind (storesInside_of_trace_eq (trace_check _)) fun _ s₁ _ op hop => ?_
  obtain ⟨y, b, rfl, hey, hy⟩ := mem_trace_storeSingles hop
  intro a bs heq z haz hz
  cases heq
  rw [List.length_singleton] at hz
  omega

lemma storesInside_persist (addr n : ℕ) : StoresInside len (M.persist addr n) s := by
  intro op hop a bs heq
  unfold persist at hop
  split at hop
  · rw [List.mem_singleton.mp hop] at heq
    cases heq
  · exact absurd hop List.not_mem_nil

lemma storesInside_load (addr n : ℕ) : StoresInside len (M.load addr n) s := by
  unfold load
  refine forall_mem_trace_bind (storesInside_of_trace_eq (trace_check _)) fun _ s₁ _ => ?_
  intro op hop a bs heq
  rw [List.mem_singleton.mp hop] at heq
  cases heq

lemma storesInside_pushBack (hfits : e + (frame x).length ≤ len) :
    StoresInside len (M.pushBack e x) s := by
  rw [length_frame] at hfits
  unfold pushBack
  refine forall_mem_trace_bind (storesInside_storeBytes (by rw [length_le64]; omega))
    fun _ _ _ => ?_
  refine forall_mem_trace_bind (storesInside_persist _ _) fun _ _ _ => ?_
  refine forall_mem_trace_bind (storesInside_storeBytes (by omega)) fun _ _ _ => ?_
  refine forall_mem_trace_bind (storesInside_persist _ _) fun _ _ _ => ?_
  exact fun op hop => absurd hop List.not_mem_nil

/-- `_push_back` returns the end of its frame. -/
lemma endOff_of_run_pushBack {slice : Slice}
    (hrun : run PMem.exec (M.pushBack e x) s = .done (slice, e') s') :
    slice.data = some (e + 8) ∧ e' = toUInt64 (e + 8 + x.length) := by
  unfold pushBack at hrun
  obtain ⟨_, _, -, hrun⟩ := run_bind_eq_done hrun
  obtain ⟨_, _, -, hrun⟩ := run_bind_eq_done hrun
  obtain ⟨_, _, -, hrun⟩ := run_bind_eq_done hrun
  obtain ⟨_, _, -, hrun⟩ := run_bind_eq_done hrun
  cases hrun
  exact ⟨rfl, rfl⟩

/-- `Set` writes nothing but its record and `sequence`. -/
lemma storesInside_set (hlen : len < 2 ^ 64) (hfits : db.endOff + recordLength key value ≤ len) :
    StoresInside len (M.set db key value) s := by
  unfold recordLength at hfits
  unfold set append
  refine forall_mem_trace_bind ?_ fun kv _ _ => ?_
  · refine forall_mem_trace_bind (storesInside_pushBack (by rw [length_frame]; omega))
      fun kv s₁ hkey => ?_
    have hend : kv.2 = toUInt64 (db.endOff + 8 + key.length) := (endOff_of_run_pushBack hkey).2
    rw [toUInt64_of_lt (by omega)] at hend
    simp only [hend]
    refine forall_mem_trace_bind (storesInside_pushBack (by rw [length_frame]; omega))
      fun vv _ _ => ?_
    refine forall_mem_trace_bind ?_ fun n _ _ => ?_
    · unfold loadWord
      refine forall_mem_trace_bind (storesInside_load _ _) fun _ _ _ => ?_
      exact storesInside_of_trace_eq rfl
    · -- `sequence`
      intro op hop a bs heq y hay hy
      rw [List.mem_singleton.mp hop] at heq
      cases heq
      rw [length_le64] at hy
      omega
  · refine forall_mem_trace_bind ?_ fun _ _ _ => storesInside_of_trace_eq rfl
    unfold toString
    cases kv.1.1.data with
    | none =>
      refine forall_mem_trace_bind (storesInside_of_trace_eq (trace_check _)) fun _ _ _ => ?_
      exact storesInside_of_trace_eq rfl
    | some addr => exact storesInside_load _ _

/-- **One call of `Set`** on a log stays inside the first `len` bytes exactly if its record fits. -/
theorem setContained_iff (h : (addressSpace useLibpmem).Ready st recs) (hlen : len < 2 ^ 64) :
    SetContained useLibpmem len st key value ↔ st.db.endOff + recordLength key value ≤ len := by
  constructor
  · intro hset
    obtain ⟨status, db, s, hrun, hrefused, -⟩ := hset.returns
    by_contra hlt
    exact (hrefused (not_le.mp hlt)).1 (status_of_run_set hrun)
  · intro hfits
    have hspace : (addressSpace useLibpmem).mappedLen = 2 ^ 64 - 1 := rfl
    have hrecord : st.db.endOff + (16 + key.length + value.length) ≤
        (addressSpace useLibpmem).mappedLen := by
      unfold recordLength at hfits
      omega
    have hset := throughout_set (s := st.pmem) (r := (key, value)) (R := fun _ => True)
      ⟨fun _ _ _ _ h => h, fun _ _ _ _ h => h⟩ trivial (h.fits_append hrecord).1
    obtain ⟨a, s, hrun, rfl, rfl⟩ := returns_iff_run.mp hset.returns
    have hdb := h.db
    refine ⟨storesInside_set hlen hfits, .Ok, _, _, by rw [hdb]; exact hrun, fun hlt => ?_,
      fun _ => ?_⟩
    · exact absurd hlt (not_lt.mpr hfits)
    · rw [hdb, storeOf_append, length_encodeRecord]
      rfl

/-! ## Runs -/

/-- A call on a log leaves a log behind. -/
lemma runLogCall_spec (h : (addressSpace useLibpmem).Ready st recs) (hlen : len < 2 ^ 64)
    {call : LogCall} (hfits : CallFits len st.db.endOff call) (hfuel : recs.length < fuel) :
    ∃ r st' recs', runLogCall useLibpmem fuel call st = .done r st' ∧
      (addressSpace useLibpmem).Ready st' recs' ∧ recs'.length ≤ recs.length + 1 ∧
      st'.db.endOff = endAfter useLibpmem st.db.endOff call := by
  have hspace : (addressSpace useLibpmem).mappedLen = 2 ^ 64 - 1 := rfl
  have hdb := h.db
  cases call with
  | set key value =>
    have hrecord : (addressSpace useLibpmem).EventFits st (.set key value) := by
      unfold CallFits recordLength at hfits
      unfold EventFits
      omega
    have hclean : Event.Clean (.set key value) := trivial
    obtain ⟨hrun, hready⟩ := runEvent_spec h hclean hrecord fuel hfuel
    refine ⟨_, _, _, hrun, hready, length_specEvent _ _, ?_⟩
    rw [endAfter, hdb]
    change endOf (recs ++ [(key, value)]) = endOf recs + _
    rw [endOf_append, encode_singleton, length_encodeRecord, recordLength]
  | reopen =>
    cases useLibpmem with
    | true =>
      obtain ⟨hrun, hready⟩ := openStore_spec h.log h.fits hfuel
      refine ⟨_, _, _, hrun, hready, Nat.le_succ _, ?_⟩
      rw [endAfter, hdb]
      rfl
    | false =>
      -- the mapping is a new one
      obtain ⟨hrun, hready⟩ := openStore_new (addressSpace false) fuel (Nat.zero_lt_of_lt hfuel)
      exact ⟨_, _, _, hrun, hready, Nat.zero_le _, rfl⟩

/-- A call stays inside exactly if its record fits. -/
lemma callContained_iff (h : (addressSpace useLibpmem).Ready st recs) (hlen : len < 2 ^ 64)
    (call : LogCall) : CallContained useLibpmem len st call ↔ CallFits len st.db.endOff call := by
  cases call with
  | set key value => exact setContained_iff h hlen
  | reopen => exact Iff.rfl

/-- A run from an open store. -/
lemma contained_iff (h : (addressSpace useLibpmem).Ready st recs) (hlen : len < 2 ^ 64)
    (calls : List LogCall) (hfuel : recs.length + calls.length < fuel) :
    Contained useLibpmem len fuel calls st ↔ RecordsFit useLibpmem len st.db.endOff calls := by
  induction calls generalizing st recs with
  | nil => exact Iff.rfl
  | cons call calls ih =>
    rw [List.length_cons] at hfuel
    unfold Contained RecordsFit
    rw [callContained_iff h hlen]
    refine and_congr_right fun hfits => ?_
    obtain ⟨r, st', recs', hrun, hready, hle, hend⟩ :=
      runLogCall_spec h hlen hfits (show recs.length < fuel by omega)
    rw [hrun, ← hend]
    exact ih hready (by omega)

/-- **When the log stays inside its mapping.**  For every length of the mapping and all calls of
`Set` and openings of the store, no byte is written behind the mapping, and records that do not fit
are refused, exactly if every record fits. -/
theorem contained_iff_fit (useLibpmem : Bool) (len : ℕ) (hlen : len < 2 ^ 64) (calls : List LogCall)
    (fuel : ℕ) (hfuel : calls.length < fuel) :
    ContainedNew useLibpmem len fuel calls ↔ RecordsFit useLibpmem len 8 calls := by
  obtain ⟨hrun, hready⟩ := openStore_new (addressSpace useLibpmem) fuel (Nat.zero_lt_of_lt hfuel)
  unfold ContainedNew
  rw [hrun]
  exact contained_iff hready hlen calls (by simpa using hfuel)

/-- Calls of `Set` and an opening of the store. -/
def sampleCalls : List LogCall := [.set [1] [8, 0], .reopen, .set [] [7]]

theorem sampleCalls_contained_iff_fit :
    ContainedNew true 160 4 sampleCalls ↔ RecordsFit true 160 8 sampleCalls :=
  contained_iff_fit true 160 (by decide) sampleCalls 4 (by decide)

/-- On a mapping of 24 bytes, `Set` returns `Ok` and writes the value at the offset 25. -/
theorem set_past_mapping :
    ¬ContainedNew true 24 2 [.set [1] [2]] ∧
      (trace PMem.exec ((addressSpace true).set (storeOf []) [1] [2]) ⟨fun _ => 0, []⟩)[20]? =
        some (PmOp.store 25 [2]) := by
  constructor
  · intro h
    obtain ⟨hrun, hready⟩ := openStore_new (addressSpace true) 2 (by decide)
    unfold ContainedNew at h
    rw [hrun] at h
    obtain ⟨hfits, -⟩ := (contained_iff hready (by decide) _ (by decide)).mp h
    exact absurd hfits (by decide : ¬8 + 18 ≤ 24)
  · rfl

end Mapping

end PmemKv
