import PmemKv.LogStore.Durability

/-!
# Runs of the log store

A run begins with a new file and consists of calls of `Set` and `Get`, of closing and opening the
store again, and of power failures, each at any point of a call of `Set` or between two calls and
with any selection of the pending stores surviving it.

Without power failures `Get` returns the last value that was set, and a recovery decodes the records
that were appended.
-/

namespace PmemKv

open AtomicProg AtomicProg.Prog PersistentMemory

/-- What may happen to an open store. -/
inductive Event : Type
  /-- `Set(key, value)`. -/
  | set (key value : Bytes)
  /-- `Get(key, &value)`, where `value` is what the string holds. -/
  | get (key value : Bytes)
  /-- The store is closed and opened again. -/
  | reopen
  /-- The power fails, after the first operations of the memory that the call `torn` of `Set` makes
  if there is one; the stores chosen by `survives` reach the medium, and the store is opened
  again. -/
  | powerFailure (torn : Option (Bytes × Bytes × ℕ)) (survives : List Bool)

/-- What an event answers. -/
inductive Reply : Type
  /-- What `Set` returned. -/
  | status (status : Status)
  /-- What `Get` returned, and what the string holds. -/
  | value (status : Status) (value : Bytes)
  /-- The store is open. -/
  | opened
  deriving DecidableEq

/-- The mapping and the fields of the open store. -/
structure StoreState where
  /-- The mapping. -/
  pmem : PMem UInt8
  /-- The store. -/
  db : Mapping.NvmExample

namespace Mapping

variable (M : Mapping)

/-- Open the store. -/
def openStore (fuel : ℕ) (s : PMem UInt8) : Outcome Reply StoreState :=
  match run PMem.exec (M.nvmExample fuel) s with
  | .done db s => .done .opened ⟨s, db⟩
  | .fault => .fault
  | .exhausted => .exhausted

/-- The memory when the power fails. -/
def interrupt (torn : Option (Bytes × Bytes × ℕ)) (st : StoreState) : PMem UInt8 :=
  match torn with
  | some (key, value, i) => stateAfter PMem.exec i (M.set st.db key value) st.pmem
  | none => st.pmem

/-- One event. -/
def runEvent (fuel : ℕ) (event : Event) (st : StoreState) : Outcome Reply StoreState :=
  match event with
  | .set key value =>
    match run PMem.exec (M.set st.db key value) st.pmem with
    | .done (status, db) s => .done (.status status) ⟨s, db⟩
    | .fault => .fault
    | .exhausted => .exhausted
  | .get key value =>
    match run PMem.exec (M.get st.db key value) st.pmem with
    | .done (status, value) s => .done (.value status value) ⟨s, st.db⟩
    | .fault => .fault
    | .exhausted => .exhausted
  | .reopen => M.openStore fuel st.pmem
  | .powerFailure torn survives => M.openStore fuel ((M.interrupt torn st).crash survives)

/-- A sequence of events, with the replies. -/
def runEvents (fuel : ℕ) : List Event → StoreState → Outcome (List Reply) StoreState
  | [], st => .done [] st
  | event :: events, st =>
    match M.runEvent fuel event st with
    | .done r st =>
      match runEvents fuel events st with
      | .done rs st => .done (r :: rs) st
      | .fault => .fault
      | .exhausted => .exhausted
    | .fault => .fault
    | .exhausted => .exhausted

/-- A sequence of events that begins with a new file, which reads as zeros. -/
def runNew (fuel : ℕ) (events : List Event) : Outcome (List Reply) StoreState :=
  match M.openStore fuel ⟨fun _ => 0, []⟩ with
  | .done _ st => M.runEvents fuel events st
  | .fault => .fault
  | .exhausted => .exhausted

/-! ## Runs that fit the mapping -/

/-- The property holds of the state that is reached, if one is. -/
def After {β σ : Type} (P : σ → Prop) : Outcome β σ → Prop
  | .done _ s => P s
  | _ => True

/-- The record of a call of `Set` fits the mapping. -/
def EventFits (st : StoreState) : Event → Prop
  | .set key value => st.db.endOff + (16 + key.length + value.length) ≤ M.mappedLen
  | .powerFailure (some (key, value, _)) _ =>
    st.db.endOff + (16 + key.length + value.length) ≤ M.mappedLen
  | _ => True

/-- All records of the events fit the mapping. -/
def Fits (fuel : ℕ) : List Event → StoreState → Prop
  | [], _ => True
  | event :: events, st =>
    M.EventFits st event ∧ After (Fits fuel events) (M.runEvent fuel event st)

/-- All records of the events fit the mapping of a new file. -/
def FitsNew (fuel : ℕ) (events : List Event) : Prop :=
  After (M.Fits fuel events) (M.openStore fuel ⟨fun _ => 0, []⟩)

instance {β σ : Type} (P : σ → Prop) [∀ s, Decidable (P s)] (o : Outcome β σ) :
    Decidable (After P o) := by
  cases o <;> unfold After <;> infer_instance

instance (st : StoreState) (event : Event) : Decidable (M.EventFits st event) := by
  unfold EventFits
  split <;> infer_instance

instance decidableFits (fuel : ℕ) :
    (events : List Event) → (st : StoreState) → Decidable (M.Fits fuel events st)
  | [], _ => instDecidableTrue
  | _ :: events, _ =>
    have := decidableFits fuel events
    instDecidableAnd

instance (fuel : ℕ) (events : List Event) : Decidable (M.FitsNew fuel events) :=
  inferInstanceAs (Decidable (After _ _))

end Mapping

/-- The lengths of a key and its value are below `2^32`. -/
def Event.Short : Event → Prop
  | .set key value => key.length < 2 ^ 32 ∧ value.length < 2 ^ 32
  | .powerFailure (some (key, value, _)) _ => key.length < 2 ^ 32 ∧ value.length < 2 ^ 32
  | _ => True

/-- The event is not a power failure. -/
def Event.Clean : Event → Prop
  | .powerFailure _ _ => False
  | _ => True

instance : DecidablePred Event.Short := fun event => by
  unfold Event.Short
  split <;> infer_instance

instance : DecidablePred Event.Clean := fun event => by
  unfold Event.Clean
  split <;> infer_instance

/-! ## What the store stands for -/

/-- What an event answers when the store holds the records, and the records that it then holds, if
the event is not a power failure. -/
def specEvent (event : Event) (recs : List Record) : Reply × List Record :=
  match event with
  | .set key value => (.status .Ok, recs ++ [(key, value)])
  | .get key value =>
    (match replay recs key with
      | some value => .value .Ok value
      | none => .value .NotFound value, recs)
  | _ => (.opened, recs)

/-- The replies of a sequence of events without power failures, and the records. -/
def specEvents : List Event → List Record → List Reply × List Record
  | [], recs => ([], recs)
  | event :: events, recs =>
    let (r, recs) := specEvent event recs
    let (rs, recs) := specEvents events recs
    (r :: rs, recs)

/-- The record of a call of `Set` that was interrupted. -/
def tornRecord (torn : Option (Bytes × Bytes × ℕ)) : List Record :=
  (torn.map fun t => (t.1, t.2.1)).toList

namespace Mapping

/-- The store is open on the log of exactly these records. -/
structure OpenOn (M : Mapping) (fuel : ℕ) (st : StoreState) (recs : List Record) : Prop where
  /-- `_end_off` is the end of the records. -/
  endOff : st.db.endOff = endOf recs
  /-- The map has exactly the keys of the records; its slices designate the last values. -/
  values : ∀ key, (st.db.hashMap key).map (Slice.bytes st.pmem.image) = (replay recs key).map some
  /-- A `RecoveryHelper` hands out the records, and ends at `_end_off`. -/
  decoded : run PMem.exec (M.decode fuel) st.pmem = .done (recs, st.db.endOff) st.pmem
  /-- `Recovery` would rebuild the same map and the same `_end_off`. -/
  recovered : run PMem.exec (M.nvmExample fuel) st.pmem = .done st.db st.pmem

/-- The invariant of a run, for what a program sees. -/
structure Ready (M : Mapping) (st : StoreState) (recs : List Record) : Prop where
  /-- The memory holds the log. -/
  log : LogImage st.pmem.image recs
  /-- The store is open on it. -/
  db : st.db = storeOf recs
  /-- It fits the mapping. -/
  fits : endOf recs ≤ M.mappedLen

variable {M : Mapping} {st st' : StoreState} {recs : List Record} {event : Event}
  {events : List Event} {fuel : ℕ} {s : PMem UInt8}

theorem Ready.openOn (h : M.Ready st recs) (fuel : ℕ) (hfuel : recs.length < fuel) :
    M.OpenOn fuel st recs := by
  have hdb := h.db
  constructor
  · rw [hdb]
    rfl
  · intro key
    rw [hdb]
    exact h.log.bytes_enter key
  · rw [hdb]
    exact run_decode h.log h.fits hfuel
  · rw [hdb]
    exact run_nvmExample h.log h.fits hfuel

/-! ## One event -/

/-- Opening a mapping that holds a log. -/
lemma openStore_spec (hlog : LogImage s.image recs) (hfits : endOf recs ≤ M.mappedLen)
    (hfuel : recs.length < fuel) :
    M.openStore fuel s = .done .opened ⟨s, storeOf recs⟩ ∧ M.Ready ⟨s, storeOf recs⟩ recs := by
  constructor
  · unfold openStore
    rw [run_nvmExample hlog hfits hfuel]
  · exact ⟨hlog, rfl, hfits⟩

/-- Opening a new file. -/
lemma openStore_new (M : Mapping) (fuel : ℕ) (hfuel : 0 < fuel) :
    M.openStore fuel ⟨fun _ => 0, []⟩ = .done .opened ⟨⟨fun _ => 0, []⟩, storeOf []⟩ ∧
      M.Ready ⟨⟨fun _ => 0, []⟩, storeOf []⟩ [] :=
  openStore_spec ⟨rfl, rfl⟩ M.ge hfuel

/-- The record of an event fits behind the log. -/
lemma Ready.fits_append (h : M.Ready st recs) {key value : Bytes}
    (hfits : st.db.endOff + (16 + key.length + value.length) ≤ M.mappedLen) :
    endOf recs + (encodeRecord (key, value)).length ≤ M.mappedLen ∧
      endOf (recs ++ [(key, value)]) ≤ M.mappedLen := by
  have hdb := h.db
  rw [hdb] at hfits
  rw [endOf_append, encode_singleton, length_encodeRecord]
  exact ⟨hfits, hfits⟩

/-- The memory after an event other than a power failure. -/
def memoryAfter (M : Mapping) (event : Event) (recs : List Record) (s : PMem UInt8) : PMem UInt8 :=
  match event with
  | .set key value => counted (M.appended s (endOf recs) (key, value))
  | _ => s

/-- **One event** other than a power failure. -/
theorem runEvent_spec (h : M.Ready st recs) (hclean : event.Clean) (hfits : M.EventFits st event)
    (fuel : ℕ) (hfuel : recs.length < fuel) :
    M.runEvent fuel event st = .done (specEvent event recs).1
        ⟨M.memoryAfter event recs st.pmem, storeOf (specEvent event recs).2⟩ ∧
      M.Ready ⟨M.memoryAfter event recs st.pmem, storeOf (specEvent event recs).2⟩
        (specEvent event recs).2 := by
  have hdb := h.db
  cases event with
  | set key value =>
    have hset := throughout_set (s := st.pmem) (r := (key, value)) (R := fun _ => True)
      ⟨fun _ _ _ _ h => h, fun _ _ _ _ h => h⟩ trivial (h.fits_append hfits).1
    obtain ⟨a, s', hrun, rfl, rfl⟩ := returns_iff_run.mp hset.returns
    constructor
    · unfold runEvent
      rw [hdb]
      simp only
      rw [hrun]
      rfl
    · exact ⟨logImage_append h.log h.fits (key, value), rfl, (h.fits_append hfits).2⟩
  | get key value =>
    constructor
    · unfold runEvent specEvent
      rw [hdb]
      simp only
      rw [run_get h.log h.fits]
      cases replay recs key <;> rfl
    · exact ⟨h.log, rfl, h.fits⟩
  | reopen => exact openStore_spec h.log h.fits hfuel
  | powerFailure torn survives => exact hclean.elim

/-- An event adds at most one record. -/
lemma length_specEvent (event : Event) (recs : List Record) :
    (specEvent event recs).2.length ≤ recs.length + 1 := by
  unfold specEvent
  split
  · simp
  · exact Nat.le_succ _
  · exact Nat.le_succ _

/-- While a record is being appended, the slices of the map designate the same bytes. -/
lemma Ready.slices_set (h : M.Ready st recs) {key value : Bytes}
    (hfits : M.EventFits st (.set key value)) (i : ℕ) (k : Bytes) :
    (st.db.hashMap k).map
        (Slice.bytes (stateAfter PMem.exec i (M.set st.db key value) st.pmem).image) =
      (replay recs k).map some := by
  have hdb := h.db
  -- the bytes of the log stay as they are, and with them what the slices designate
  have hkeep : M.Keeps (fun s => ∀ y, 8 ≤ y → y < endOf recs → s.image y = st.pmem.image y)
      (endOf recs) := by
    constructor
    · intro s a b ha hs y hy₁ hy₂
      rw [PMem.image_push]
      refine (applyWrite_of_forall_ne fun p hp => ?_).trans (hs y hy₁ hy₂)
      rw [List.mem_singleton.mp hp]
      simp only
      omega
    · intro s a n _ hs y hy₁ hy₂
      rw [image_persisted]
      exact hs y hy₁ hy₂
  have hset := throughout_set (s := st.pmem) (r := (key, value)) hkeep (fun _ _ _ => rfl)
    (h.fits_append hfits).1
  have hsame : ∀ y, 8 ≤ y → y < endOf recs →
      (stateAfter PMem.exec i (M.set (storeOf recs) key value) st.pmem).image y =
        st.pmem.image y := by
    rcases hset.stateAfter i with hs | hs
    · exact hs
    · intro y hy₁ hy₂
      have hlog := (read_encode_append _ _ (logImage_append h.log h.fits (key, value)).records).1
      have := (hlog.trans h.log.records.symm)
      rw [hs]
      exact read_eq_read.mp this y hy₁ hy₂
  rw [hdb]
  refine bytes_enter ?_ (fun _ => rfl) k
  exact (read_eq_read.mpr hsame).trans h.log.records

/-! ## Runs without power failures -/

/-- A run adds at most one record for each event. -/
lemma length_specEvents (events : List Event) (recs : List Record) :
    (specEvents events recs).2.length ≤ recs.length + events.length := by
  induction events generalizing recs with
  | nil => exact le_rfl
  | cons event events ih =>
    have h₁ := length_specEvent event recs
    have h₂ := ih (specEvent event recs).2
    rw [List.length_cons]
    exact h₂.trans (by omega)

/-- A run from a store that is open. -/
theorem runEvents_spec (h : M.Ready st recs) (hclean : ∀ event ∈ events, event.Clean)
    (hfits : M.Fits fuel events st) (hfuel : recs.length + events.length < fuel) :
    ∃ st', M.runEvents fuel events st = .done (specEvents events recs).1 st' ∧
      M.Ready st' (specEvents events recs).2 := by
  induction events generalizing st recs with
  | nil => exact ⟨st, rfl, h⟩
  | cons event events ih =>
    obtain ⟨hevent, hafter⟩ := hfits
    rw [List.length_cons] at hfuel
    have hlen := length_specEvent event recs
    obtain ⟨hrun₁, hready₁⟩ := runEvent_spec h (hclean event List.mem_cons_self) hevent fuel
      (by omega)
    rw [hrun₁] at hafter
    obtain ⟨st₂, hrun₂, hready₂⟩ := ih hready₁
      (fun e he => hclean e (List.mem_cons_of_mem event he)) hafter (by omega)
    refine ⟨st₂, ?_, hready₂⟩
    unfold runEvents
    rw [hrun₁]
    simp only
    rw [hrun₂]
    rfl

/-- **The log store is a map.**  In a run without power failures every call of `Get` returns the
last value of the key, over all times that the store was open, or `NotFound`; the slices of the map
keep designating the last values, also while a further record is being appended; and a recovery
decodes exactly the records that were appended and ends where the writer ends. -/
theorem logStore_is_map (M : Mapping) (events : List Event) (hclean : ∀ event ∈ events, event.Clean)
    (fuel : ℕ) (hfuel : events.length < fuel) (hfits : M.FitsNew fuel events) :
    ∃ st, M.runNew fuel events = .done (specEvents events []).1 st ∧
      M.OpenOn fuel st (specEvents events []).2 ∧
      ∀ key value i, M.EventFits st (.set key value) → ∀ k,
        (st.db.hashMap k).map
            (Slice.bytes (stateAfter PMem.exec i (M.set st.db key value) st.pmem).image) =
          (replay (specEvents events []).2 k).map some := by
  obtain ⟨hopen, hready⟩ := openStore_new M fuel (by omega)
  unfold FitsNew at hfits
  rw [hopen] at hfits
  obtain ⟨st, hrun, h⟩ := runEvents_spec hready hclean hfits (by simpa using hfuel)
  have hlen := length_specEvents events []
  refine ⟨st, ?_, h.openOn fuel ?_, fun key value i hset k => ?_⟩
  · unfold runNew
    rw [hopen]
    exact hrun
  · rw [List.length_nil, Nat.zero_add] at hlen
    omega
  · exact h.slices_set hset i k

/-- A small mapping. -/
def sampleMapping : Mapping := ⟨160, by decide, by decide, true⟩

/-- Keys and values that are empty or look like lengths, a key that is set twice, and a store that
is opened twice. -/
def sampleEvents : List Event :=
  [.set [1] [8, 0], .get [1] [], .set [] [7], .reopen, .get [] [9], .set [1] [],
    .get [1] [5], .reopen,
    .get [1] [5], .get [2] [5]]

theorem sampleEvents_is_map : ∃ st, sampleMapping.runNew 20 sampleEvents = .done
      [.status .Ok, .value .Ok [8, 0], .status .Ok, .opened, .value .Ok [7],
        .status .Ok, .value .Ok [],
        .opened, .value .Ok [], .value .NotFound [5]] st ∧
    sampleMapping.OpenOn 20 st [([1], [8, 0]), ([], [7]), ([1], [])] ∧
    ∀ key value i, sampleMapping.EventFits st (.set key value) → ∀ k,
      (st.db.hashMap k).map
          (Slice.bytes (stateAfter PMem.exec i (sampleMapping.set st.db key value) st.pmem).image) =
        (replay [([1], [8, 0]), ([], [7]), ([1], [])] k).map some :=
  logStore_is_map sampleMapping sampleEvents (by decide) 20 (by decide) (by decide +kernel)

end Mapping

end PmemKv
