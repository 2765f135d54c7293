import PmemKv.LogStore.LogRuns

/-!
# Power failures in a run of the log store

After a power failure the store holds the first of the records that were issued, and it works on
from there.  Keys and values are shorter than `2 ^ 32` bytes here, so that a record is durable
before it is counted.
-/

namespace PmemKv

open AtomicProg AtomicProg.Prog PersistentMemory

namespace Mapping

/-- The invariant of a run, with what is durable: the medium counts at least the first `n`
records. -/
structure Running (M : Mapping) (st : StoreState) (recs : List Record) (n : ℕ) : Prop where
  /-- The store is open on the log. -/
  ready : M.Ready st recs
  /-- The medium counts some of the records. -/
  le : n ≤ recs.length
  /-- The records are durable and the later numbers are pending. -/
  settled : Settled st.pmem n (recs.length - n) (encode recs)

variable {M : Mapping} {st : StoreState} {recs : List Record} {event : Event} {events : List Event}
  {fuel n : ℕ} {torn : Option (Bytes × Bytes × ℕ)} {survives : List Bool}

/-- A new file is open. -/
lemma running_new (h : M.Ready ⟨⟨fun _ => 0, []⟩, storeOf []⟩ []) :
    M.Running ⟨⟨fun _ => 0, []⟩, storeOf []⟩ [] 0 := ⟨h, le_rfl, rfl, rfl, rfl⟩

/-! ## One event -/

/-- An event other than a power failure adds to what is pending. -/
lemma Running.runEvent_clean (h : M.Running st recs n) (hlib : M.useLibpmem = true)
    (hclean : event.Clean) (hfits : M.EventFits st event) (hshort : event.Short) (fuel : ℕ)
    (hfuel : recs.length < fuel) :
    ∃ st', M.runEvent fuel event st = .done (specEvent event recs).1 st' ∧
      M.Running st' (specEvent event recs).2 n := by
  obtain ⟨hrun, hready⟩ := runEvent_spec h.ready hclean hfits fuel hfuel
  refine ⟨_, hrun, hready, ?_, ?_⟩
  · cases event with
    | set key value =>
      change n ≤ (recs ++ [(key, value)]).length
      rw [List.length_append]
      exact h.le.trans (Nat.le_add_right _ _)
    | get key value => exact h.le
    | reopen => exact h.le
    | powerFailure torn survives => exact hclean.elim
  · cases event with
    | set key value =>
      have hlt := M.lt
      have hle := h.le
      have hlen := length_le_encode recs
      have hend := h.ready.fits
      rw [endOf] at hend
      have happended := h.settled.appended (r := (key, value)) hlib hshort.1 hshort.2
      have hset := happended.counted (by omega)
      rw [← Nat.sub_add_comm hle] at hset
      change Settled (counted _) n ((recs ++ [(key, value)]).length - n) _
      rw [List.length_append]
      exact hset
    | get key value => exact h.settled
    | reopen => exact h.settled
    | powerFailure torn survives => exact hclean.elim

/-- When the power fails, the records survive; the one that is being written may do so. -/
lemma Running.surviving_interrupt (h : M.Running st recs n) (hlib : M.useLibpmem = true)
    (hfits : M.EventFits st (.powerFailure torn survives))
    (hshort : (Event.powerFailure torn survives).Short) :
    ∃ recs', (recs' = recs ∨ recs' = recs ++ tornRecord torn) ∧ endOf recs' ≤ M.mappedLen ∧
      Surviving (M.interrupt torn st) n recs'.length (encode recs') := by
  have hnj : n + (recs.length - n) = recs.length := Nat.add_sub_cancel' h.le
  cases torn with
  | none => exact ⟨recs, Or.inl rfl, h.ready.fits, hnj ▸ Surviving.of_settled h.settled⟩
  | some t =>
    obtain ⟨key, value, i⟩ := t
    have hend := (h.ready.fits_append hfits).2
    have hset := (surviving_set hlib h.settled hnj hend hshort.1 hshort.2).stateAfter i
    rw [← h.ready.db] at hset
    rcases hset with hs | hs
    · exact ⟨recs, Or.inl rfl, h.ready.fits, hs⟩
    · exact ⟨recs ++ [(key, value)], Or.inr rfl, hend, hs⟩

lemma length_tornRecord (torn : Option (Bytes × Bytes × ℕ)) : (tornRecord torn).length ≤ 1 := by
  unfold tornRecord
  cases torn with
  | none => exact Nat.zero_le 1
  | some t => exact le_rfl

lemma endOf_take_le (recs : List Record) (k : ℕ) : endOf (recs.take k) ≤ endOf recs := by
  conv_rhs => rw [← List.take_append_drop k recs]
  rw [endOf_append]
  exact Nat.le_add_right _ _

/-- **A power failure** leaves the first of the records, at least those that the medium counts. -/
theorem Running.runEvent_powerFailure (h : M.Running st recs n) (hlib : M.useLibpmem = true)
    (hfits : M.EventFits st (.powerFailure torn survives))
    (hshort : (Event.powerFailure torn survives).Short) (fuel : ℕ)
    (hfuel : recs.length + 1 < fuel) :
    ∃ st' k, n ≤ k ∧ k ≤ (recs ++ tornRecord torn).length ∧
      M.runEvent fuel (.powerFailure torn survives) st = .done .opened st' ∧
      M.Running st' ((recs ++ tornRecord torn).take k) k := by
  have htorn := length_tornRecord torn
  obtain ⟨recs', hrecs', hend, hs⟩ := h.surviving_interrupt hlib hfits hshort
  obtain ⟨k, hnk, hk, hlog, hsettled⟩ := log_crash hs survives
  have htake : recs'.take k = (recs ++ tornRecord torn).take k := by
    rcases hrecs' with rfl | rfl
    · rw [List.take_append_of_le_length hk]
    · rfl
  have hk' : k ≤ (recs ++ tornRecord torn).length := by
    rcases hrecs' with rfl | rfl
    · rw [List.length_append]
      omega
    · exact hk
  have hlen : (recs'.take k).length = k := by rw [List.length_take, Nat.min_eq_left hk]
  have hkf : k < fuel := by
    rw [List.length_append] at hk'
    omega
  obtain ⟨hopen, hready⟩ := openStore_spec hlog ((endOf_take_le _ _).trans hend)
    (hlen.symm ▸ hkf)
  refine ⟨_, k, hnk, hk', hopen, ?_⟩
  rw [← htake]
  refine ⟨hready, hlen.ge, ?_⟩
  rw [hlen, Nat.sub_self]
  exact hsettled

/-! ## Runs -/

/-- The second part of a run fits where the first part ends. -/
lemma fits_append {es es' : List Event} (hfits : M.Fits fuel (es ++ es') st) :
    M.Fits fuel es st ∧ ∀ rs st', M.runEvents fuel es st = .done rs st' → M.Fits fuel es' st' := by
  induction es generalizing st with
  | nil =>
    refine ⟨trivial, ?_⟩
    rintro rs st' hrun
    cases hrun
    exact hfits
  | cons e es ih =>
    obtain ⟨he, hafter⟩ := hfits
    unfold runEvents
    cases hrun : M.runEvent fuel e st with
    | done r st₁ =>
      rw [hrun] at hafter
      obtain ⟨hfits₁, hrest⟩ := ih hafter
      refine ⟨⟨he, by rw [hrun]; exact hfits₁⟩, fun rs st' hrun' => ?_⟩
      simp only at hrun'
      cases hrun₁ : M.runEvents fuel es st₁ with
      | done rs₁ st₂ =>
        rw [hrun₁] at hrun'
        cases hrun'
        exact hrest rs₁ st' hrun₁
      | fault =>
        rw [hrun₁] at hrun'
        cases hrun'
      | exhausted =>
        rw [hrun₁] at hrun'
        cases hrun'
    | fault =>
      refine ⟨⟨he, by rw [hrun]; exact trivial⟩, fun rs st' hrun' => ?_⟩
      cases hrun'
    | exhausted =>
      refine ⟨⟨he, by rw [hrun]; exact trivial⟩, fun rs st' hrun' => ?_⟩
      cases hrun'

/-- The replies of a run are those of its parts. -/
lemma runEvents_append {es es' : List Event} {rs rs' : List Reply} {st₁ st₂ : StoreState}
    (h : M.runEvents fuel es st = .done rs st₁) (h' : M.runEvents fuel es' st₁ = .done rs' st₂) :
    M.runEvents fuel (es ++ es') st = .done (rs ++ rs') st₂ := by
  induction es generalizing st rs with
  | nil =>
    cases h
    exact h'
  | cons e es ih =>
    unfold runEvents at h
    rw [List.cons_append, runEvents]
    cases hrun : M.runEvent fuel e st with
    | done r st₃ =>
      rw [hrun] at h
      simp only at h ⊢
      cases hrun₁ : M.runEvents fuel es st₃ with
      | done rs₁ st₄ =>
        rw [hrun₁] at h
        cases h
        rw [ih hrun₁]
        rfl
      | fault =>
        rw [hrun₁] at h
        cases h
      | exhausted =>
        rw [hrun₁] at h
        cases h
    | fault =>
      rw [hrun] at h
      cases h
    | exhausted =>
      rw [hrun] at h
      cases h

/-- A run of one event. -/
lemma runEvents_singleton {r : Reply} {st₁ : StoreState}
    (h : M.runEvent fuel event st = .done r st₁) :
    M.runEvents fuel [event] st = .done [r] st₁ := by
  unfold runEvents
  rw [h]
  rfl

/-- **A run** without power failures. -/
theorem Running.runEvents_clean (h : M.Running st recs n) (hlib : M.useLibpmem = true)
    (hclean : ∀ event ∈ events, event.Clean) (hfits : M.Fits fuel events st)
    (hshort : ∀ event ∈ events, event.Short) (hfuel : recs.length + events.length < fuel) :
    ∃ st', M.runEvents fuel events st = .done (specEvents events recs).1 st' ∧
      M.Running st' (specEvents events recs).2 n := by
  induction events generalizing st recs with
  | nil => exact ⟨st, rfl, h⟩
  | cons event events ih =>
    obtain ⟨hevent, hafter⟩ := hfits
    rw [List.length_cons] at hfuel
    have hlen := length_specEvent event recs
    obtain ⟨st₁, hrun₁, h₁⟩ := h.runEvent_clean hlib (hclean event List.mem_cons_self) hevent
      (hshort event List.mem_cons_self) fuel (by omega)
    rw [hrun₁] at hafter
    obtain ⟨st₂, hrun₂, h₂⟩ := ih h₁ (fun e he => hclean e (List.mem_cons_of_mem event he)) hafter
      (fun e he => hshort e (List.mem_cons_of_mem event he)) (by omega)
    refine ⟨st₂, ?_, h₂⟩
    unfold runEvents
    rw [hrun₁]
    simp only
    rw [hrun₂]
    rfl

/-- **A run**, with power failures or without, leaves the store open on some log. -/
theorem Running.runEvents (h : M.Running st recs n) (hlib : M.useLibpmem = true)
    (hfits : M.Fits fuel events st) (hshort : ∀ event ∈ events, event.Short)
    (hfuel : recs.length + events.length < fuel) :
    ∃ replies st' recs' n', M.runEvents fuel events st = .done replies st' ∧
      M.Running st' recs' n' ∧ recs'.length ≤ recs.length + events.length := by
  induction events generalizing st recs n with
  | nil => exact ⟨[], st, recs, n, rfl, h, le_rfl⟩
  | cons event events ih =>
    obtain ⟨hevent, hafter⟩ := hfits
    rw [List.length_cons] at hfuel ⊢
    have hstep : ∃ r st₁ recs₁ n₁, M.runEvent fuel event st = .done r st₁ ∧
        M.Running st₁ recs₁ n₁ ∧ recs₁.length ≤ recs.length + 1 := by
      by_cases hclean : event.Clean
      · obtain ⟨st₁, hrun₁, h₁⟩ := h.runEvent_clean hlib hclean hevent
          (hshort event List.mem_cons_self) fuel (by omega)
        exact ⟨_, st₁, _, n, hrun₁, h₁, length_specEvent event recs⟩
      · cases event with
        | powerFailure torn survives =>
          obtain ⟨st₁, k, -, -, hrun₁, h₁⟩ := h.runEvent_powerFailure hlib hevent
            (hshort _ List.mem_cons_self) fuel (by omega)
          refine ⟨_, st₁, _, k, hrun₁, h₁,
            (List.take_sublist _ _).length_le.trans ?_⟩
          rw [List.length_append]
          exact Nat.add_le_add_left (length_tornRecord torn) _
        | set key value => exact absurd trivial hclean
        | get key value => exact absurd trivial hclean
        | reopen => exact absurd trivial hclean
    obtain ⟨r, st₁, recs₁, n₁, hrun₁, h₁, hlen₁⟩ := hstep
    rw [hrun₁] at hafter
    obtain ⟨rs, st₂, recs₂, n₂, hrun₂, h₂, hlen₂⟩ := ih h₁ hafter
      (fun e he => hshort e (List.mem_cons_of_mem event he)) (by omega)
    refine ⟨r :: rs, st₂, recs₂, n₂, ?_, h₂, by omega⟩
    unfold Mapping.runEvents
    rw [hrun₁]
    simp only
    rw [hrun₂]

/-- A run from a new file. -/
lemma runNew_running (hlib : M.useLibpmem = true) (hfits : M.FitsNew fuel events)
    (hshort : ∀ event ∈ events, event.Short) (hfuel : events.length < fuel) :
    ∃ replies st recs n, M.runNew fuel events = .done replies st ∧ M.Running st recs n ∧
      recs.length ≤ events.length := by
  obtain ⟨hopen, hready⟩ := openStore_new M fuel (by omega)
  unfold FitsNew at hfits
  rw [hopen] at hfits
  obtain ⟨replies, st, recs, n, hrun, h, hlen⟩ := (running_new hready).runEvents hlib hfits hshort
    (by simpa using hfuel)
  refine ⟨replies, st, recs, n, ?_, h, by simpa using hlen⟩
  unfold runNew
  rw [hopen]
  exact hrun

/-- The records that the calls of `Set` issue. -/
def setsOf (events : List Event) : List Record :=
  events.filterMap fun event =>
    match event with
    | .set key value => some (key, value)
    | _ => none

lemma specEvents_records (events : List Event) (recs : List Record) :
    (specEvents events recs).2 = recs ++ setsOf events := by
  induction events generalizing recs with
  | nil => exact (List.append_nil recs).symm
  | cons event events ih =>
    have hih := ih (specEvent event recs).2
    cases event with
    | set key value =>
      change (specEvents events (recs ++ [(key, value)])).2 =
        recs ++ ((key, value) :: setsOf events)
      rw [ih, List.append_assoc]
      rfl
    | get key value => exact hih
    | reopen => exact hih
    | powerFailure torn survives => exact hih

/-- The calls of `Set` that issue the records. -/
def setEvents (sets : List Record) : List Event := sets.map fun r => .set r.1 r.2

lemma setsOf_setEvents (sets : List Record) : setsOf (setEvents sets) = sets := by
  unfold setsOf setEvents
  rw [List.filterMap_map]
  exact List.filterMap_some

/-- **Power failures are atomic.**  After any run the store holds some records; records are then
set, and the power fails.  The store that is opened next holds the first of the records that it held
and of those that were issued, the one that was being written included; its map and its `_end_off`
are exactly those of these records. -/
theorem powerFailure_atomic (M : Mapping) (hlib : M.useLibpmem = true) (events : List Event)
    (sets : List Record) (torn : Option (Bytes × Bytes × ℕ)) (survives : List Bool) (fuel : ℕ)
    (hfuel : events.length + sets.length + 1 < fuel)
    (hshort : ∀ event ∈ events ++ (setEvents sets ++ [.powerFailure torn survives]), event.Short)
    (hfits : M.FitsNew fuel (events ++ (setEvents sets ++ [.powerFailure torn survives]))) :
    ∃ replies st recs replies' st' recs', M.runNew fuel events = .done replies st ∧
      M.OpenOn fuel st recs ∧
      M.runEvents fuel (setEvents sets ++ [.powerFailure torn survives]) st = .done replies' st' ∧
      M.OpenOn fuel st' recs' ∧ recs' <+: recs ++ sets ++ tornRecord torn := by
  obtain ⟨hopen, -⟩ := openStore_new M fuel (by omega)
  have hfits₀ := hfits
  unfold FitsNew at hfits₀
  rw [hopen] at hfits₀
  obtain ⟨hfits₁, hfits₂⟩ := fits_append hfits₀
  have hnew : M.FitsNew fuel events := by
    unfold FitsNew
    rw [hopen]
    exact hfits₁
  obtain ⟨replies, st, recs, n, hrun, h, hlen⟩ := runNew_running hlib hnew
    (fun e he => hshort e (List.mem_append_left _ he)) (by omega)
  have hrun₁ := hrun
  unfold runNew at hrun₁
  rw [hopen] at hrun₁
  obtain ⟨hfits₃, hfits₄⟩ := fits_append (hfits₂ replies st hrun₁)
  have hsets : (setEvents sets).length = sets.length := List.length_map _
  obtain ⟨st₁, hrun₂, h₁⟩ := h.runEvents_clean hlib (fun e he => by
      obtain ⟨r, -, rfl⟩ := List.mem_map.mp he
      exact trivial) hfits₃
    (fun e he => hshort e (List.mem_append_right _ (List.mem_append_left _ he))) (by omega)
  rw [specEvents_records, setsOf_setEvents] at h₁
  obtain ⟨st', k, -, hk, hrun₃, h'⟩ := h₁.runEvent_powerFailure hlib (hfits₄ _ _ hrun₂).1
    (hshort _ (by simp)) fuel (by rw [List.length_append]; omega)
  refine ⟨replies, st, recs, _, st', _, hrun, h.ready.openOn fuel (by omega),
    runEvents_append hrun₂ (runEvents_singleton hrun₃), h'.ready.openOn fuel ?_,
    List.take_prefix _ _⟩
  rw [List.length_take, Nat.min_eq_left hk]
  rw [List.length_append, List.length_append] at hk
  have := length_tornRecord torn
  omega

/-- A record that a power failure has left behind the log is written over. -/
theorem staleTail_atomic : ∃ replies st recs replies' st' recs',
    sampleMapping.runNew 20 [.set [1] [2, 2, 2], .powerFailure none []] = .done replies st ∧
      sampleMapping.OpenOn 20 st recs ∧
      sampleMapping.runEvents 20
          (setEvents [([3], [4])] ++ [.powerFailure (some ([5], [6], 20)) [true, false, true]]) st =
        .done replies' st' ∧
      sampleMapping.OpenOn 20 st' recs' ∧
      recs' <+: recs ++ [([3], [4])] ++ tornRecord (some ([5], [6], 20)) :=
  powerFailure_atomic sampleMapping rfl [.set [1] [2, 2, 2], .powerFailure none []] [([3], [4])]
    (some ([5], [6], 20)) [true, false, true] 20 (by decide) (by decide) (by decide +kernel)

end Mapping

end PmemKv
