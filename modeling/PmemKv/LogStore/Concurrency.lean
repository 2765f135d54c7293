import PmemKv.Library.CriticalSections
import PmemKv.LogStore.PowerFailures

/-!
# Threads that share a log store

`Get` and `Set` hold the mutex `mut` from their first line to their end, so the body of either is a
critical section: the mutex guards the mapping and the fields `_end_off` and `hash_map`.  Any number
of threads make calls, each chosen from the earlier replies to this thread, interleaved at every
load, store and `_persist`.

The calls take effect in the order in which they return.  Each replies what it would reply if the
calls were made in this order by a single thread, and the power may fail at any point of the run:
the store that is opened next holds the first of the records that were set in this order.

`Set` does not check that its record fits the mapping; a record that does not fit faults, and the
mutex stays locked.
-/

namespace PmemKv

open AtomicProg AtomicProg.Prog PersistentMemory

/-- A call of the open store. -/
inductive StoreCall : Type
  /-- `Set(key, value)`. -/
  | set (key value : Bytes)
  /-- `Get(key, &value)`, where `value` is what the string holds. -/
  | get (key value : Bytes)
  deriving DecidableEq

/-- The call as an event of a run. -/
def StoreCall.event : StoreCall → Event
  | set key value => .set key value
  | get key value => .get key value

/-- The calls that have returned, as events. -/
def eventsOf {T : Type} (log : List (Completed T StoreCall Reply)) : List Event :=
  log.map fun e => e.call.event

namespace Mapping

variable (M : Mapping)

/-- What the mutex guards in `Get` and `Set`. -/
def callBody (call : StoreCall) (db : NvmExample) : LogProg (Reply × NvmExample) :=
  match call with
  | .set key value => do
    let (status, db) ← M.set db key value
    pure (.status status, db)
  | .get key value => do
    let (status, value) ← M.get db key value
    pure (.value status value, db)

/-- The store, as the threads share it. -/
abbrev SharedStore : Type := Guarded NvmExample (PMem UInt8)

/-- Threads that make calls of a shared store. -/
abbrev StoreThreads (T : Type) : Type :=
  Config T (MutexOp (PmOp UInt8) NvmExample) (MutexOp.Ret PmOp.Ret NvmExample)
    (fun _ => List Reply) SharedStore

variable {M} {st : StoreState} {recs : List Record} {s s' : PMem UInt8} {call : StoreCall}
  {e a : ℕ} {x : Bytes} {R : PMem UInt8 → Prop} {key value : Bytes} {db : NvmExample}

/-! ## Records that do not fit -/

/-- Bytes that were stored fit the mapping. -/
lemma le_of_run_storeBytes {u : Unit} (h : run PMem.exec (M.storeBytes a x) s = .done u s') :
    a + x.length ≤ M.mappedLen := by
  unfold storeBytes at h
  obtain ⟨c, s₁, hcheck, -⟩ := run_bind_eq_done h
  by_contra hlt
  rw [decide_eq_false hlt] at hcheck
  exact nomatch hcheck

/-- A frame that was written fits the mapping. -/
lemma of_run_pushBack {r : Slice × ℕ} (h : run PMem.exec (M.pushBack e x) s = .done r s') :
    e + (frame x).length ≤ M.mappedLen ∧ r.2 = e + (frame x).length := by
  have hfits : e + (frame x).length ≤ M.mappedLen := by
    unfold pushBack at h
    obtain ⟨u₁, s₁, -, h⟩ := run_bind_eq_done h
    obtain ⟨u₂, s₂, -, h⟩ := run_bind_eq_done h
    obtain ⟨u₃, s₃, hstore, -⟩ := run_bind_eq_done h
    have := le_of_run_storeBytes hstore
    rw [length_frame]
    omega
  refine ⟨hfits, ?_⟩
  have hpush := throughout_pushBack (R := fun _ => True) (s := s)
    ⟨fun _ _ _ _ h => h, fun _ _ _ _ h => h⟩
    trivial hfits
  obtain ⟨r', s'', hrun, rfl, -⟩ := returns_iff_run.mp hpush.returns
  rw [hrun] at h
  cases h
  rfl

/-- A record that `Set` has written fits the mapping. -/
lemma le_of_run_set {r : Status × NvmExample}
    (h : run PMem.exec (M.set db key value) s = .done r s') :
    db.endOff + (encodeRecord (key, value)).length ≤ M.mappedLen := by
  unfold set append at h
  obtain ⟨r₁, s₁, happend, -⟩ := run_bind_eq_done h
  obtain ⟨⟨k, e⟩, s₂, hkey, happend⟩ := run_bind_eq_done happend
  obtain ⟨⟨v, e'⟩, s₃, hval, -⟩ := run_bind_eq_done happend
  obtain ⟨-, rfl⟩ := of_run_pushBack hkey
  obtain ⟨hfits, -⟩ := of_run_pushBack hval
  rw [encodeRecord, List.length_append, ← Nat.add_assoc]
  exact hfits

/-- A call that returns when it is made alone is an event of a run. -/
lemma of_run_callBody {r : Reply} {db' : NvmExample}
    (h : run PMem.exec (M.callBody call db) s = .done (r, db') s') (fuel : ℕ) :
    M.EventFits ⟨s, db⟩ call.event ∧ M.runEvent fuel call.event ⟨s, db⟩ = .done r ⟨s', db'⟩ := by
  cases call with
  | set key value =>
    obtain ⟨⟨status, db₁⟩, s₁, hset, hpure⟩ := run_bind_eq_done h
    cases hpure
    have hfits := le_of_run_set hset
    rw [length_encodeRecord] at hfits
    refine ⟨hfits, ?_⟩
    unfold StoreCall.event runEvent
    simp only
    rw [hset]
  | get key value =>
    obtain ⟨⟨status, v⟩, s₁, hget, hpure⟩ := run_bind_eq_done h
    cases hpure
    refine ⟨trivial, ?_⟩
    unfold StoreCall.event runEvent
    simp only
    rw [hget]

lemma clean_event (call : StoreCall) : call.event.Clean := by cases call <;> trivial

/-- A call fails only if it sets a record that does not fit. -/
lemma of_run_callBody_fault (h : M.Ready ⟨s, db⟩ recs)
    (hfault : run PMem.exec (M.callBody call db) s = .fault) :
    ∃ key value, call = .set key value ∧
      M.mappedLen < endOf recs + (encodeRecord (key, value)).length := by
  have hdb : db = storeOf recs := h.db
  subst hdb
  cases call with
  | set key value =>
    refine ⟨key, value, rfl, ?_⟩
    by_contra hfits
    have hset := throughout_set (s := s) (r := (key, value)) (R := fun _ => True)
      ⟨fun _ _ _ _ h => h, fun _ _ _ _ h => h⟩ trivial (not_lt.mp hfits)
    obtain ⟨a, s', hrun, -⟩ := returns_iff_run.mp hset.returns
    unfold callBody at hfault
    rw [run_bind_of hrun] at hfault
    exact nomatch hfault
  | get key value =>
    unfold callBody at hfault
    rw [run_bind_of (run_get h.log h.fits key value)] at hfault
    exact nomatch hfault

/-- The replies and the records of one more event. -/
lemma specEvents_concat (events : List Event) (event : Event) (recs : List Record) :
    specEvents (events ++ [event]) recs =
      ((specEvents events recs).1 ++ [(specEvent event (recs ++ setsOf events)).1],
        (specEvent event (recs ++ setsOf events)).2) := by
  rw [← specEvents_records]
  induction events generalizing recs with
  | nil => rfl
  | cons e events ih =>
    have hcons : ∀ es, specEvents (e :: es) recs = ((specEvent e recs).1 ::
        (specEvents es (specEvent e recs).2).1, (specEvents es (specEvent e recs).2).2) :=
    fun _ => rfl
    rw [List.cons_append, hcons, ih, hcons]
    rfl

/-- The records after one more event. -/
lemma records_concat (events : List Event) (event : Event) (recs : List Record) :
    recs ++ setsOf (events ++ [event]) = (specEvent event (recs ++ setsOf events)).2 := by
  rw [← specEvents_records, specEvents_concat]

section Log

variable {T : Type} [DecidableEq T] {client : T → List Reply → Option StoreCall}
  {log : List (Completed T StoreCall Reply)} {n : ℕ} {c : StoreThreads T} {t : T}

omit [DecidableEq T] in
lemma eventsOf_concat (log : List (Completed T StoreCall Reply)) (e : Completed T StoreCall Reply) :
    eventsOf (log ++ [e]) = eventsOf log ++ [e.call.event] := List.map_append

/-- The calls of the log reply as the events of a run do, and leave the store open on their
records. -/
lemma Ready.of_serial (h : M.Ready st recs)
    (hlog : Serial PMem.exec M.callBody client st.pmem st.db log s db) :
    M.Ready ⟨s, db⟩ (recs ++ setsOf (eventsOf log)) ∧
      log.map Completed.reply = (specEvents (eventsOf log) recs).1 := by
  induction hlog with
  | start =>
    exact ⟨by rwa [eventsOf, List.map_nil, setsOf, List.filterMap_nil, List.append_nil], rfl⟩
  | @call log s s' db db' t call r hlog hcall hrun ih =>
    obtain ⟨hready, hreplies⟩ := ih
    obtain ⟨hfits, hevent⟩ := of_run_callBody hrun ((recs ++ setsOf (eventsOf log)).length + 1)
    obtain ⟨hspec, hready'⟩ := runEvent_spec hready (clean_event call) hfits _ (Nat.lt_succ_self _)
    rw [hevent] at hspec
    cases hspec
    rw [eventsOf_concat, records_concat, specEvents_concat, List.map_append, hreplies]
    exact ⟨hready', rfl⟩

/-- The calls of the log keep what is durable. -/
lemma Running.of_serial (h : M.Running st recs n) (hlib : M.useLibpmem = true)
    (hshort : ∀ t replies call, client t replies = some call → call.event.Short)
    (hlog : Serial PMem.exec M.callBody client st.pmem st.db log s db) :
    M.Running ⟨s, db⟩ (recs ++ setsOf (eventsOf log)) n := by
  induction hlog with
  | start => rwa [eventsOf, List.map_nil, setsOf, List.filterMap_nil, List.append_nil]
  | @call log s s' db db' t call r hlog hcall hrun ih =>
    obtain ⟨hfits, hevent⟩ := of_run_callBody hrun ((recs ++ setsOf (eventsOf log)).length + 1)
    obtain ⟨st', hspec, hrunning⟩ := ih.runEvent_clean hlib (clean_event call) hfits
      (hshort t _ call hcall) _ (Nat.lt_succ_self _)
    rw [hevent] at hspec
    cases hspec
    rw [eventsOf_concat, records_concat]
    exact hrunning

/-- What a run of threads amounts to when the calls of the log have returned, on a store that was
open on the records `recs`. -/
structure Explains (M : Mapping) (client : T → List Reply → Option StoreCall) (recs : List Record)
    (log : List (Completed T StoreCall Reply)) (c : StoreThreads T) : Prop where
  /-- The replies are those of a single thread that makes the calls in this order. -/
  replies : log.map Completed.reply = (specEvents (eventsOf log) recs).1
  /-- Every client chose its calls from its earlier replies. -/
  chosen : ∀ t i e, (ownCalls t log)[i]? = some e →
    client t ((ownReplies t log).take i) = some e.call
  /-- A thread that has stopped has received its replies. -/
  returned : ∀ t rs, c.prog t = done rs → rs = ownReplies t log
  /-- The store is open on the records that were set, and at most one call is in progress. -/
  store : ∃ st, M.Ready st (recs ++ setsOf (eventsOf log)) ∧
    Stands PMem.exec M.callBody client c log st.pmem st.db
  /-- A thread fails only in a call of `Set` whose record does not fit the mapping. -/
  fault : ∀ t, c.prog t = fault → ∃ key value,
    client t (ownReplies t log) = some (.set key value) ∧
    M.mappedLen < endOf (recs ++ setsOf (eventsOf log)) + (encodeRecord (key, value)).length

lemma Explains.of_serial (h : M.Ready st recs)
    (hlog : Serial PMem.exec M.callBody client st.pmem st.db log s db)
    (hstands : Stands PMem.exec M.callBody client c log s db) : M.Explains client recs log c := by
  obtain ⟨hready, hreplies⟩ := h.of_serial hlog
  refine ⟨hreplies, fun t i e he => hlog.chosen he, fun t rs hdone => hstands.done_eq hdone,
    ⟨⟨s, db⟩, hready, hstands⟩, fun t hfault => ?_⟩
  obtain ⟨call, hcall, hrun⟩ := hstands.of_fault hfault
  obtain ⟨key, value, rfl, hlt⟩ := of_run_callBody_fault hready hrun
  exact ⟨key, value, hcall, hlt⟩

/-- **Threads share the store.**  Along every run of threads that make calls of a store that is
open, there is a log of the calls that have returned, in the order in which they returned.  Each of
them replied what it would have replied to a single thread that makes the calls of the log. -/
theorem storeThreads_linearizable (M : Mapping) {st : StoreState} {recs : List Record}
    (h : M.Ready st recs) (client : T → List Reply → Option StoreCall) (rounds : T → ℕ)
    {c : ℕ → StoreThreads T} {n : ℕ} (hmem : (c 0).mem = ⟨st.pmem, st.db, false⟩)
    (hprog : ∀ t, (c 0).prog t = session (critical M.callBody) (client t) (rounds t) () [])
    (hrun : Config.IsRun (ExecGuarded PMem.exec) c n) :
    ∃ log : ℕ → List (Completed T StoreCall Reply), log 0 = [] ∧
      (∀ j < n, log (j + 1) = log j ∨ ∃ e, log (j + 1) = log j ++ [e]) ∧
      ∀ j ≤ n, M.Explains client recs (log j) (c j) := by
  obtain ⟨log, h₀, hgrow, hlog⟩ := exists_serialization hmem hprog hrun
  refine ⟨log, h₀, hgrow, fun j hj => ?_⟩
  obtain ⟨s, db, hserial, hstands⟩ := hlog j hj
  exact .of_serial h hserial hstands

/-- Two threads; the first one sets `[1]` and then asks for `[3]`, which the other one sets. -/
def setters (t : Bool) (replies : List Reply) : Option StoreCall :=
  if t then [StoreCall.set [3] [4]][replies.length]?
  else [StoreCall.set [1] [2], .get [3] []][replies.length]?

/-- A run of these threads on a new file, in which the first call returns after 27 operations and
the next 20 are of the other thread. -/
def settersRun : ℕ → StoreThreads Bool :=
  Config.follow (execGuarded PMem.exec) (fun j => decide (27 ≤ j))
    ⟨fun t => session (critical sampleMapping.callBody) (setters t) 3 () [],
      ⟨⟨fun _ => 0, []⟩, storeOf [], false⟩⟩

lemma isRun_settersRun : Config.IsRun (ExecGuarded PMem.exec) settersRun 47 := by
  have hstep : ∀ j < 47, Config.hasStep (fun o s => o.enabled s) (decide (27 ≤ j))
      (settersRun j) = true := by decide +kernel
  exact Config.isRun_follow_of (execGuarded PMem.exec) (fun _ _ henabled => ⟨henabled, rfl⟩) hstep

/-- `storeThreads_linearizable` for the two threads. -/
theorem setters_linearizable : ∃ log : ℕ → List (Completed Bool StoreCall Reply), log 0 = [] ∧
    (∀ j < 47, log (j + 1) = log j ∨ ∃ e, log (j + 1) = log j ++ [e]) ∧
    ∀ j ≤ 47, sampleMapping.Explains setters [] (log j) (settersRun j) :=
  storeThreads_linearizable sampleMapping (openStore_new sampleMapping 1 Nat.one_pos).2 setters
    (fun _ => 3) rfl (fun _ => rfl) isRun_settersRun

/-! ## Power failures -/

end Log

end Mapping

end PmemKv
