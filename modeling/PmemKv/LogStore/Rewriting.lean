import PmemKv.LogStore.LostStores

/-!
# What the log store makes durable

`Append` counts a record in the word `sequence` and never persists this word, so every record since
the last power failure may be lost, although `Set` has returned.  Here a run has any number of power
failures, and keys and values have any length.  At every point of the run the store owes each key
the value of the last call of `Set` that has returned, or of one that was interrupted since.

This debt can be met at every point exactly if no call of `Set` that returned has changed a value,
neither by its record nor by what may be left of it, and no interrupted call can leave a value that
was never set.
-/

namespace PmemKv

open AtomicProg AtomicProg.Prog PersistentMemory

/-- The record of the call of `Set` that the event makes, or that it interrupts. -/
def Event.records : Event → List Record
  | .set key value => [(key, value)]
  | .powerFailure torn _ => tornRecord torn
  | _ => []

/-- What the keys must have after an event, if they must have `values` before: the value that was
set; a call that was interrupted may have taken effect or not. -/
def Event.Owes (event : Event) (values values' : Bytes → Option Bytes) : Prop :=
  match event with
  | .set key value => values' = Function.update values key (some value)
  | .powerFailure torn _ => values' = values ∨
      ∃ r ∈ tornRecord torn, values' = Function.update values r.1 (some r.2)
  | _ => values' = values

namespace Mapping

/-- What `Get` finds. -/
def valueOf (st : StoreState) (key : Bytes) : Option Bytes :=
  (st.db.hashMap key).bind (Slice.bytes st.pmem.image)

/-- Whenever the power fails, between two calls or during one that sets one of the records, every
key has its value afterwards, or that of the call which was in progress. -/
def DurableAt (M : Mapping) (fuel : ℕ) (st : StoreState) (values : Bytes → Option Bytes)
    (recs : List Record) : Prop :=
  ∀ torn survives, tornRecord torn ⊆ recs →
    ∃ st', M.runEvent fuel (.powerFailure torn survives) st = .done .opened st' ∧
      ∀ key, valueOf st' key = values key ∨
        ∃ value i, torn = some (key, value, i) ∧ valueOf st' key = some value

/-- Whenever the power fails in a run, between two events or during a call, every key has the value
that the store owes it. -/
def Durable (M : Mapping) (fuel : ℕ) : List Event → StoreState → (Bytes → Option Bytes) → Prop
  | [], st, values => M.DurableAt fuel st values []
  | event :: events, st, values => M.DurableAt fuel st values event.records ∧
      ∃ values', event.Owes values values' ∧
        After (fun st' => Durable M fuel events st' values') (M.runEvent fuel event st)

/-- The same for a run that begins with a new file: no key has a value. -/
def DurableNew (M : Mapping) (fuel : ℕ) (events : List Event) : Prop :=
  After (fun st => M.Durable fuel events st fun _ => none) (M.openStore fuel ⟨fun _ => 0, []⟩)

/-- Whatever may be left of the record of a call that returns sets the value that its key has
already; what may be left of that of an interrupted call is the record itself, or does so. -/
def EventRewrites (st : StoreState) : Event → Prop
  | .set key value => ∀ r, RecordLeft st.pmem.medium st.db.endOff (key, value) r →
      valueOf st r.1 = some r.2
  | .powerFailure torn _ => ∀ r ∈ tornRecord torn, ∀ r',
      RecordLeft st.pmem.medium st.db.endOff r r' → r' = r ∨ valueOf st r'.1 = some r'.2
  | _ => True

/-- So do all events of a run. -/
def Rewrites (M : Mapping) (fuel : ℕ) : List Event → StoreState → Prop
  | [], _ => True
  | event :: events, st => EventRewrites st event ∧
      After (Rewrites M fuel events) (M.runEvent fuel event st)

/-- The same for a run that begins with a new file. -/
def RewritesNew (M : Mapping) (fuel : ℕ) (events : List Event) : Prop :=
  After (M.Rewrites fuel events) (M.openStore fuel ⟨fun _ => 0, []⟩)

/-- The store is open on the records `recs₀`, which a mapping with the bytes `m₀` held, and on the
records `sets`, which were set since. -/
structure OpenSince (M : Mapping) (st : StoreState) (m₀ : ℕ → UInt8) (recs₀ sets : List Record) :
    Prop where
  /-- What a program sees. -/
  ready : M.Ready st (recs₀ ++ sets)
  /-- What is durable. -/
  session : Session st.pmem m₀ recs₀ sets

/-- Whatever is left of the records, no key gets another value by them. -/
def Stable (m₀ : ℕ → UInt8) (recs₀ sets : List Record) : Prop :=
  ∀ sets', LogLeft m₀ (endOf recs₀) sets sets' → ∀ k, replay (recs₀ ++ sets'.take k) = replay recs₀

variable {M : Mapping} {st : StoreState} {m₀ : ℕ → UInt8} {recs recs₀ sets : List Record}
  {r : Record} {events : List Event} {fuel : ℕ} {values : Bytes → Option Bytes}
  {torn : Option (Bytes × Bytes × ℕ)} {survives : List Bool} {key value : Bytes}

/-! ## Values -/

/-- `Get` finds the last value that was set. -/
lemma Ready.valueOf_eq (h : M.Ready st recs) : valueOf st = replay recs := by
  funext key
  have hvalues := h.log.bytes_enter key
  unfold valueOf
  rw [h.db]
  change (enter 8 recs (fun _ => none) key).bind _ = _
  cases hslice : enter 8 recs (fun _ => none) key with
  | none =>
    rw [hslice, Option.map_none, eq_comm, Option.map_eq_none_iff] at hvalues
    exact hvalues.symm
  | some slice =>
    rw [hslice, Option.map_some, eq_comm, Option.map_eq_some_iff] at hvalues
    obtain ⟨v, hv, hbytes⟩ := hvalues
    rw [Option.bind_some, hv, hbytes]

/-- A call with a short key and a short value can leave its record only. -/
lemma eventRewrites_set_iff (hkey : key.length < 2 ^ 32) (hvalue : value.length < 2 ^ 32) :
    EventRewrites st (.set key value) ↔ valueOf st key = some value := by
  constructor
  · intro h
    exact h (key, value) (.refl _ _ _)
  · intro h r hr
    obtain rfl := hr.eq_of_short hkey hvalue
    exact h

/-- So can one that is interrupted. -/
lemma eventRewrites_powerFailure (hshort : (Event.powerFailure torn survives).Short) :
    EventRewrites st (.powerFailure torn survives) := by
  intro r hr r' hleft
  cases torn with
  | none => cases hr
  | some t =>
    obtain rfl := List.mem_singleton.mp hr
    exact Or.inl (hleft.eq_of_short hshort.1 hshort.2)

/-! ## What may be left -/

lemma stable_nil (m₀ : ℕ → UInt8) (recs₀ : List Record) : Stable m₀ recs₀ [] := by
  intro sets' hleft k
  obtain rfl := List.eq_nil_of_length_eq_zero hleft.length_eq.1
  rw [List.take_nil, List.append_nil]

/-- All of the records are there. -/
lemma Stable.replay_append (h : Stable m₀ recs₀ sets) {sets' : List Record}
    (hleft : LogLeft m₀ (endOf recs₀) sets sets') : replay (recs₀ ++ sets') = replay recs₀ := by
  have := h sets' hleft sets'.length
  rwa [List.take_length] at this

lemma Stable.replay_eq (h : Stable m₀ recs₀ sets) : replay (recs₀ ++ sets) = replay recs₀ :=
  h.replay_append (.refl m₀ _ sets)

/-- What is left of the records and of one more. -/
lemma Stable.replay_snoc (h : Stable m₀ recs₀ sets) {sets' : List Record}
    (hleft : LogLeft m₀ (endOf recs₀) (sets ++ [r]) sets') (k : ℕ) :
    replay (recs₀ ++ sets'.take k) = replay recs₀ ∨
      ∃ r', RecordLeft m₀ (endOf (recs₀ ++ sets)) r r' ∧
        replay (recs₀ ++ sets'.take k) = Function.update (replay recs₀) r'.1 (some r'.2) := by
  obtain ⟨sets₁, r', rfl, hleft₁, hr⟩ := hleft.of_snoc
  rcases Nat.lt_or_ge sets₁.length k with hlt | hge
  · refine Or.inr ⟨r', by rwa [endOf_append], ?_⟩
    rw [List.take_of_length_le (by rw [List.length_append]; exact hlt), ← List.append_assoc,
      PmemKv.replay_append, h.replay_append hleft₁]
  · rw [List.take_append_of_le_length hge]
    exact Or.inl (h sets₁ hleft₁ k)

/-- One more record that changes nothing. -/
lemma Stable.snoc (h : Stable m₀ recs₀ sets)
    (hr : ∀ r', RecordLeft m₀ (endOf (recs₀ ++ sets)) r r' → replay recs₀ r'.1 = some r'.2) :
    Stable m₀ recs₀ (sets ++ [r]) := by
  intro sets' hleft k
  rcases h.replay_snoc hleft k with heq | ⟨r', hr', heq⟩
  · exact heq
  · rw [heq, ← hr r' hr', Function.update_eq_self]

/-! ## One event -/

/-- The store was just opened. -/
lemma OpenSince.new {m : ℕ → UInt8} (hlog : LogImage m recs) (hfits : endOf recs ≤ M.mappedLen) :
    M.OpenSince ⟨⟨m, []⟩, storeOf recs⟩ m recs [] :=
  ⟨⟨by rwa [List.append_nil], by rw [List.append_nil], by rwa [List.append_nil]⟩, .new hlog⟩

/-- A call of `Set`. -/
lemma OpenSince.runEvent_set (h : M.OpenSince st m₀ recs₀ sets) (hlib : M.useLibpmem = true)
    (hfits : M.EventFits st (.set key value)) (hfuel : (recs₀ ++ sets).length < fuel) :
    ∃ st', M.runEvent fuel (.set key value) st = .done (.status .Ok) st' ∧
      st'.pmem = counted (M.appended st.pmem (endOf (recs₀ ++ sets)) (key, value)) ∧
      M.OpenSince st' m₀ recs₀ (sets ++ [(key, value)]) := by
  have hclean : (Event.set key value).Clean := trivial
  obtain ⟨hrun, hready⟩ := runEvent_spec h.ready hclean hfits fuel hfuel
  refine ⟨_, hrun, rfl, ?_, h.session.appended hlib h.ready.fits (key, value)⟩
  rw [← List.append_assoc]
  exact hready

/-- The memory when the power fails: some of the records are left, or what may be left of them, and
that of the interrupted call may be among them. -/
lemma OpenSince.exists_left (h : M.OpenSince st m₀ recs₀ sets) (hlib : M.useLibpmem = true)
    (hfits : M.EventFits st (.powerFailure torn survives)) :
    ∃ sets₁ sets' k, (sets₁ = sets ∨ ∃ r ∈ tornRecord torn, sets₁ = sets ++ [r]) ∧
      LogLeft m₀ (endOf recs₀) sets₁ sets' ∧ k ≤ sets₁.length ∧
      endOf (recs₀ ++ sets₁) ≤ M.mappedLen ∧
      LogImage ((M.interrupt torn st).crash survives).image (recs₀ ++ sets'.take k) := by
  cases torn with
  | none =>
    obtain ⟨sets', k, hleft, hk, hlog⟩ := h.session.crash (.refl st.pmem _) survives
    exact ⟨sets, sets', k, Or.inl rfl, hleft, hk, h.ready.fits, hlog⟩
  | some t =>
    obtain ⟨key, value, i⟩ := t
    obtain ⟨hlen, hend⟩ := h.ready.fits_append hfits
    have hset := throughout_set (r := (key, value))
      (keeps_behind M fun w hw => (h.session.pending_lt w hw).2) (.refl st.pmem _) hlen
    have hstate := hset.stateAfter i
    rw [← h.ready.db] at hstate
    change ∃ sets₁ sets' k, _ ∧ _ ∧ _ ∧ _ ∧ LogImage (PMem.crash survives (stateAfter PMem.exec i
      (M.set st.db key value) st.pmem)).image _
    rcases hstate with hbehind | heq
    · -- the record has not been counted
      obtain ⟨sets', k, hleft, hk, hlog⟩ := h.session.crash hbehind survives
      exact ⟨sets, sets', k, Or.inl rfl, hleft, hk, h.ready.fits, hlog⟩
    · rw [heq]
      obtain ⟨sets', k, hleft, hk, hlog⟩ :=
        (h.session.appended hlib h.ready.fits (key, value)).crash (.refl _ _) survives
      rw [List.append_assoc] at hend
      exact ⟨_, sets', k, Or.inr ⟨_, List.mem_singleton_self _, rfl⟩, hleft, hk, hend, hlog⟩

/-- **A power failure.**  The store that is opened holds what may be left of the records. -/
theorem OpenSince.runEvent_powerFailure (h : M.OpenSince st m₀ recs₀ sets)
    (hlib : M.useLibpmem = true) (hfits : M.EventFits st (.powerFailure torn survives))
    (hfuel : (recs₀ ++ sets).length + 1 < fuel) :
    ∃ sets₁ sets' k st' m₁, (sets₁ = sets ∨ ∃ r ∈ tornRecord torn, sets₁ = sets ++ [r]) ∧
      LogLeft m₀ (endOf recs₀) sets₁ sets' ∧
      M.runEvent fuel (.powerFailure torn survives) st = .done .opened st' ∧
      M.OpenSince st' m₁ (recs₀ ++ sets'.take k) [] ∧
      (recs₀ ++ sets'.take k).length ≤ (recs₀ ++ sets).length + 1 := by
  obtain ⟨sets₁, sets', k, hsets₁, hleft, hk, hend, hlog⟩ := h.exists_left hlib hfits
  have hlength : (recs₀ ++ sets'.take k).length ≤ (recs₀ ++ sets).length + 1 := by
    have hlen := hleft.length_eq.1
    rw [List.length_append, List.length_append, List.length_take]
    rcases hsets₁ with rfl | ⟨r, -, rfl⟩
    · omega
    · rw [List.length_append, List.length_singleton] at hlen
      omega
  have hend' : endOf (recs₀ ++ sets'.take k) ≤ M.mappedLen := by
    have hsame : endOf (recs₀ ++ sets') = endOf (recs₀ ++ sets₁) := by
      rw [endOf_append, endOf_append, hleft.length_eq.2]
    rw [← List.take_append_drop k sets', ← List.append_assoc, endOf_append] at hsame
    omega
  obtain ⟨hopen, -⟩ := openStore_spec hlog hend' (by omega : _ < fuel)
  exact ⟨sets₁, sets', k, _, _, hsets₁, hleft, hopen, .new hlog hend', hlength⟩

/-- An event that sets nothing and loses nothing. -/
lemma OpenSince.runEvent_quiet {event : Event} (h : M.OpenSince st m₀ recs₀ sets)
    (hclean : event.Clean) (hrecords : event.records = []) (hfuel : (recs₀ ++ sets).length < fuel) :
    ∃ reply st', M.runEvent fuel event st = .done reply st' ∧ M.OpenSince st' m₀ recs₀ sets := by
  cases event with
  | set key value => cases hrecords
  | get key value =>
    obtain ⟨hrun, hready⟩ := runEvent_spec h.ready hclean trivial fuel hfuel
    exact ⟨_, _, hrun, hready, h.session⟩
  | reopen =>
    obtain ⟨hrun, hready⟩ := runEvent_spec h.ready hclean trivial fuel hfuel
    exact ⟨_, _, hrun, hready, h.session⟩
  | powerFailure torn survives => exact hclean.elim

/-- One event of any kind. -/
lemma OpenSince.runEvent {event : Event} (h : M.OpenSince st m₀ recs₀ sets)
    (hlib : M.useLibpmem = true) (hfits : M.EventFits st event)
    (hfuel : (recs₀ ++ sets).length + 1 < fuel) :
    ∃ reply st' m₀' recs₀' sets', M.runEvent fuel event st = .done reply st' ∧
      M.OpenSince st' m₀' recs₀' sets' ∧
      (recs₀' ++ sets').length ≤ (recs₀ ++ sets).length + 1 := by
  cases event with
  | set key value =>
    obtain ⟨st', hrun, -, h'⟩ := h.runEvent_set hlib hfits (Nat.lt_of_succ_lt hfuel)
    refine ⟨_, st', m₀, recs₀, _, hrun, h', ?_⟩
    rw [← List.append_assoc, List.length_append]
    exact le_rfl
  | get key value =>
    have hclean : (Event.get key value).Clean := trivial
    obtain ⟨reply, st', hrun, h'⟩ := h.runEvent_quiet hclean rfl (Nat.lt_of_succ_lt hfuel)
    exact ⟨reply, st', m₀, recs₀, sets, hrun, h', Nat.le_succ _⟩
  | reopen =>
    have hclean : Event.reopen.Clean := trivial
    obtain ⟨reply, st', hrun, h'⟩ := h.runEvent_quiet hclean rfl (Nat.lt_of_succ_lt hfuel)
    exact ⟨reply, st', m₀, recs₀, sets, hrun, h', Nat.le_succ _⟩
  | powerFailure torn survives =>
    obtain ⟨sets₁, sets', k, st', m₁, -, -, hrun, h', hlen⟩ :=
      h.runEvent_powerFailure hlib hfits hfuel
    refine ⟨_, st', m₁, _, [], hrun, h', ?_⟩
    rwa [List.append_nil]

/-! ## What is owed -/

/-- What a power failure leaves is what the store owes. -/
lemma DurableAt.replay_eq (h : M.DurableAt fuel st values recs) (htorn : tornRecord torn ⊆ recs)
    {recs' : List Record} (hlog : LogImage ((M.interrupt torn st).crash survives).image recs')
    (hfits : endOf recs' ≤ M.mappedLen) (hfuel : recs'.length < fuel) (key : Bytes) :
    replay recs' key = values key ∨
      ∃ value i, torn = some (key, value, i) ∧ replay recs' key = some value := by
  obtain ⟨st', hrun, hvalues⟩ := h torn survives htorn
  obtain ⟨hopen, hready⟩ := openStore_spec hlog hfits hfuel
  obtain rfl := (Outcome.done.inj (hrun.symm.trans hopen)).2
  rw [← hready.valueOf_eq]
  exact hvalues key

/-- The same between two calls. -/
lemma DurableAt.replay_eq_of_none (h : M.DurableAt fuel st values recs) {recs' : List Record}
    (hlog : LogImage (st.pmem.crash survives).image recs') (hfits : endOf recs' ≤ M.mappedLen)
    (hfuel : recs'.length < fuel) : replay recs' = values := by
  have htorn : tornRecord none ⊆ recs := List.nil_subset recs
  funext key
  rcases h.replay_eq htorn hlog hfits hfuel key with heq | ⟨value, i, hnone, -⟩
  · exact heq
  · cases hnone

/-- The power may fail before the next event. -/
lemma Durable.durableAt (h : M.Durable fuel events st values) : M.DurableAt fuel st values [] := by
  cases events with
  | nil => exact h
  | cons event events =>
    intro torn survives htorn
    exact h.1 torn survives (List.Subset.trans htorn (List.nil_subset _))

/-- What is owed after the power has failed is what it has left. -/
lemma OpenSince.replay_eq (h : M.OpenSince st m₀ recs₀ sets)
    (hdurable : M.DurableAt fuel st values recs)
    (hfuel : (recs₀ ++ sets).length < fuel) : replay recs₀ = values := by
  have hend := h.ready.fits
  rw [endOf_append] at hend
  rw [List.length_append] at hfuel
  exact hdurable.replay_eq_of_none h.session.crash_nil (by omega) (by omega)

/-- What is left when the power fails during a call that can leave nothing else. -/
lemma Stable.owes (h : Stable m₀ recs₀ sets) (hopen : M.OpenSince st m₀ recs₀ sets)
    (hrewrites : EventRewrites st (.powerFailure torn survives)) {sets₁ sets' : List Record}
    (hsets₁ : sets₁ = sets ∨ ∃ r ∈ tornRecord torn, sets₁ = sets ++ [r])
    (hleft : LogLeft m₀ (endOf recs₀) sets₁ sets') (k : ℕ) :
    (Event.powerFailure torn survives).Owes (replay recs₀) (replay (recs₀ ++ sets'.take k)) := by
  rcases hsets₁ with rfl | ⟨r, hr, rfl⟩
  · exact Or.inl (h sets' hleft k)
  · rcases h.replay_snoc hleft k with heq | ⟨r', hr', heq⟩
    · exact Or.inl heq
    · have hend : st.db.endOff = endOf (recs₀ ++ sets) := by
        rw [hopen.ready.db]
        rfl
      have hold : RecordLeft st.pmem.medium st.db.endOff r r' := by
        rw [hend]
        exact hr'.congr fun p hp => (hopen.session.behind p hp).symm
      rcases hrewrites r hr r' hold with rfl | hvalue
      · exact Or.inr ⟨_, hr, heq⟩
      · rw [hopen.ready.valueOf_eq, h.replay_eq] at hvalue
        rw [← hvalue, Function.update_eq_self] at heq
        exact Or.inl heq

/-- The store keeps what it owes during a call that can leave nothing else. -/
lemma Stable.durableAt (h : Stable m₀ recs₀ sets) (hopen : M.OpenSince st m₀ recs₀ sets)
    (hlib : M.useLibpmem = true) (hfuel : (recs₀ ++ sets).length + 1 < fuel)
    (hfits : ∀ r ∈ recs, st.db.endOff + (16 + r.1.length + r.2.length) ≤ M.mappedLen)
    (hrewrites : ∀ r ∈ recs, ∀ r', RecordLeft st.pmem.medium st.db.endOff r r' →
      r' = r ∨ valueOf st r'.1 = some r'.2) : M.DurableAt fuel st (replay recs₀) recs := by
  intro torn survives htorn
  have hevent : M.EventFits st (.powerFailure torn survives) := by
    cases torn with
    | none => trivial
    | some t => exact hfits _ (htorn (List.mem_singleton_self _))
  have hleaves : EventRewrites st (.powerFailure torn survives) :=
    fun r hr => hrewrites r (htorn hr)
  obtain ⟨sets₁, sets', k, st', m₁, hsets₁, hleft, hrun, h', -⟩ :=
    hopen.runEvent_powerFailure hlib hevent hfuel
  refine ⟨st', hrun, fun key => ?_⟩
  have hready := h'.ready
  rw [List.append_nil] at hready
  rw [hready.valueOf_eq]
  rcases h.owes hopen hleaves hsets₁ hleft k with heq | ⟨r, hr, heq⟩
  · exact Or.inl (congrFun heq key)
  · cases torn with
    | none => cases hr
    | some t =>
      obtain ⟨key', value, i⟩ := t
      obtain rfl := List.mem_singleton.mp hr
      rw [heq]
      by_cases hkey : key = key'
      · subst hkey
        exact Or.inr ⟨value, i, rfl, Function.update_self _ _ _⟩
      · exact Or.inl (Function.update_of_ne hkey _ _)

/-- The store keeps what it owes between two calls. -/
lemma Stable.durableAt_nil (h : Stable m₀ recs₀ sets) (hopen : M.OpenSince st m₀ recs₀ sets)
    (hlib : M.useLibpmem = true) (hfuel : (recs₀ ++ sets).length + 1 < fuel) :
    M.DurableAt fuel st (replay recs₀) [] := by
  apply h.durableAt hopen hlib hfuel
  · exact fun r hr => absurd hr List.not_mem_nil
  · exact fun r hr => absurd hr List.not_mem_nil

/-- A call of `Set` that can leave nothing else changes nothing. -/
lemma Stable.set (h : Stable m₀ recs₀ sets) (hopen : M.OpenSince st m₀ recs₀ sets)
    (hrewrites : EventRewrites st (.set key value)) :
    Stable m₀ recs₀ (sets ++ [(key, value)]) ∧
      Function.update (replay recs₀) key (some value) = replay recs₀ := by
  have hold : ∀ r', RecordLeft m₀ (endOf (recs₀ ++ sets)) (key, value) r' →
      replay recs₀ r'.1 = some r'.2 := by
    intro r' hr'
    have hvalue := hrewrites r' ?_
    · rwa [hopen.ready.valueOf_eq, h.replay_eq] at hvalue
    · rw [hopen.ready.db]
      exact hr'.congr fun p hp => (hopen.session.behind p hp).symm
  refine ⟨h.snoc hold, ?_⟩
  rw [← hold (key, value) (.refl _ _ _), Function.update_eq_self]

/-- What a durable call of `Set` can leave. -/
lemma OpenSince.eventRewrites_set (h : M.OpenSince st m₀ recs₀ sets)
    (hstable : Stable m₀ recs₀ sets) (hlib : M.useLibpmem = true)
    (hfits : M.EventFits st (.set key value)) (hfuel : (recs₀ ++ sets).length + 1 < fuel)
    {st' : StoreState}
    (hpmem : st'.pmem = counted (M.appended st.pmem (endOf (recs₀ ++ sets)) (key, value)))
    (hdurable : M.DurableAt fuel st' (replay recs₀) recs) : EventRewrites st (.set key value) := by
  intro r hr
  obtain ⟨-, hend⟩ := h.ready.fits_append hfits
  rw [h.ready.db] at hr
  have hr' : RecordLeft m₀ (endOf (recs₀ ++ sets)) (key, value) r :=
    hr.congr fun p hp => h.session.behind p hp
  obtain ⟨survives, hlog⟩ := h.session.exists_crash hlib h.ready.fits hr'
  rw [← hpmem] at hlog
  have heq := hdurable.replay_eq_of_none hlog ?_ ?_
  · rw [replay_append, hstable.replay_eq] at heq
    rw [h.ready.valueOf_eq, hstable.replay_eq, ← heq, Function.update_self]
  · rw [endOf_append, encode_singleton, hr.length_encodeRecord]
    rwa [endOf_append, encode_singleton] at hend
  · rwa [List.length_append, List.length_singleton]

/-- What a durable call of `Set` that is interrupted can leave. -/
lemma OpenSince.eventRewrites_powerFailure (h : M.OpenSince st m₀ recs₀ sets)
    (hstable : Stable m₀ recs₀ sets) (hlib : M.useLibpmem = true)
    (hfits : M.EventFits st (.powerFailure torn survives))
    (hfuel : (recs₀ ++ sets).length + 1 < fuel)
    (hdurable : M.DurableAt fuel st (replay recs₀) (tornRecord torn)) :
    EventRewrites st (.powerFailure torn survives) := by
  intro r hr r' hleft
  cases torn with
  | none => cases hr
  | some t =>
    obtain ⟨key, value, i⟩ := t
    obtain rfl := List.mem_singleton.mp hr
    obtain ⟨hlen, hend⟩ := h.ready.fits_append hfits
    rw [h.ready.db] at hleft
    have hleft' : RecordLeft m₀ (endOf (recs₀ ++ sets)) (key, value) r' :=
      hleft.congr fun p hp => h.session.behind p hp
    obtain ⟨survives', hlog⟩ := h.session.exists_crash hlib h.ready.fits hleft'
    -- the call is stopped at its end
    have hset := throughout_set (s := st.pmem) (r := (key, value)) (R := fun _ => True)
      ⟨fun _ _ _ _ h => h, fun _ _ _ _ h => h⟩ trivial hlen
    obtain ⟨a, s', hrun, -, rfl⟩ := returns_iff_run.mp hset.returns
    obtain ⟨j, hj⟩ := exists_stateAfter hrun
    rw [← hj, ← h.ready.db] at hlog
    have htorn : tornRecord (some (key, value, j)) ⊆ [(key, value)] := List.Subset.refl _
    have hvalue := hdurable.replay_eq htorn hlog ?_ ?_ r'.1
    · rw [replay_append, hstable.replay_eq, Function.update_self] at hvalue
      rw [h.ready.valueOf_eq, hstable.replay_eq]
      rcases hvalue with heq | ⟨v, i', hsome, heq⟩
      · exact Or.inr heq.symm
      · cases hsome
        cases heq
        exact Or.inl rfl
    · rw [endOf_append, encode_singleton, hleft.length_encodeRecord]
      rwa [endOf_append, encode_singleton] at hend
    · rwa [List.length_append, List.length_singleton]

/-- The records of an event fit the mapping. -/
lemma fits_of_mem_records {event : Event} (h : M.EventFits st event) (hr : r ∈ event.records) :
    st.db.endOff + (16 + r.1.length + r.2.length) ≤ M.mappedLen := by
  cases event with
  | set key value =>
    obtain rfl := List.mem_singleton.mp hr
    exact h
  | get key value => cases hr
  | reopen => cases hr
  | powerFailure torn survives =>
    cases torn with
    | none => cases hr
    | some t =>
      obtain rfl := List.mem_singleton.mp hr
      exact h

/-! ## Runs -/

/-- **A run returns.** -/
lemma OpenSince.runEvents (h : M.OpenSince st m₀ recs₀ sets) (hlib : M.useLibpmem = true)
    (hfits : M.Fits fuel events st) (hfuel : (recs₀ ++ sets).length + events.length < fuel) :
    ∃ replies st', M.runEvents fuel events st = .done replies st' := by
  induction events generalizing st m₀ recs₀ sets with
  | nil => exact ⟨[], st, rfl⟩
  | cons event events ih =>
    obtain ⟨hevent, hafter⟩ := hfits
    rw [List.length_cons] at hfuel
    have hfuel₁ : (recs₀ ++ sets).length + 1 < fuel := by omega
    obtain ⟨reply, st₁, m₁, recs₁, sets₁, hrun₁, h₁, hlen⟩ := h.runEvent hlib hevent hfuel₁
    rw [hrun₁] at hafter
    obtain ⟨replies, st₂, hrun₂⟩ := ih h₁ hafter (by omega)
    refine ⟨reply :: replies, st₂, ?_⟩
    unfold Mapping.runEvents
    rw [hrun₁]
    simp only
    rw [hrun₂]

/-- **A run** from a store whose records give no key another value, whatever is left of those that
were set. -/
theorem OpenSince.durable_iff (h : M.OpenSince st m₀ recs₀ sets) (hstable : Stable m₀ recs₀ sets)
    (hlib : M.useLibpmem = true) (hfits : M.Fits fuel events st)
    (hfuel : (recs₀ ++ sets).length + events.length + 1 < fuel) :
    M.Durable fuel events st (replay recs₀) ↔ M.Rewrites fuel events st := by
  have hfuel₁ : (recs₀ ++ sets).length + 1 < fuel := by omega
  induction events generalizing st m₀ recs₀ sets with
  | nil =>
    exact iff_of_true (hstable.durableAt_nil h hlib hfuel₁) trivial
  | cons event events ih =>
    obtain ⟨hevent, hafter⟩ := hfits
    rw [List.length_cons] at hfuel
    unfold Durable Rewrites
    cases event with
    | set key value =>
      obtain ⟨st', hrun, hpmem, h'⟩ := h.runEvent_set hlib hevent (Nat.lt_of_succ_lt hfuel₁)
      rw [hrun] at hafter ⊢
      have hlen : (recs₀ ++ (sets ++ [(key, value)])).length = (recs₀ ++ sets).length + 1 := by
        rw [← List.append_assoc, List.length_append, List.length_singleton]
      constructor
      · rintro ⟨-, values', rfl, hrest⟩
        have hdurable := hrest.durableAt
        have hvalues := h'.replay_eq hdurable (by omega)
        rw [← hvalues] at hdurable hrest
        have hrewrites := h.eventRewrites_set hstable hlib hevent hfuel₁ hpmem hdurable
        exact ⟨hrewrites, (ih h' (hstable.set h hrewrites).1 hafter (by omega) (by omega)).mp hrest⟩
      · rintro ⟨hrewrites, hrest⟩
        obtain ⟨hstable', hvalues⟩ := hstable.set h hrewrites
        refine ⟨hstable.durableAt h hlib hfuel₁ (fun r => fits_of_mem_records hevent) ?_,
          _, rfl, ?_⟩
        · intro r hr r' hleft
          obtain rfl := List.mem_singleton.mp hr
          exact Or.inr (hrewrites r' hleft)
        · rw [hvalues]
          exact (ih h' hstable' hafter (by omega) (by omega)).mpr hrest
    | get key value =>
      have hclean : (Event.get key value).Clean := trivial
      obtain ⟨reply, st', hrun, h'⟩ := h.runEvent_quiet hclean rfl (Nat.lt_of_succ_lt hfuel₁)
      rw [hrun] at hafter ⊢
      have hih := ih h' hstable hafter (by omega) hfuel₁
      constructor
      · rintro ⟨-, values', rfl, hrest⟩
        exact ⟨trivial, hih.mp hrest⟩
      · rintro ⟨-, hrest⟩
        exact ⟨hstable.durableAt_nil h hlib hfuel₁, _, rfl, hih.mpr hrest⟩
    | reopen =>
      have hclean : Event.reopen.Clean := trivial
      obtain ⟨reply, st', hrun, h'⟩ := h.runEvent_quiet hclean rfl (Nat.lt_of_succ_lt hfuel₁)
      rw [hrun] at hafter ⊢
      have hih := ih h' hstable hafter (by omega) hfuel₁
      constructor
      · rintro ⟨-, values', rfl, hrest⟩
        exact ⟨trivial, hih.mp hrest⟩
      · rintro ⟨-, hrest⟩
        exact ⟨hstable.durableAt_nil h hlib hfuel₁, _, rfl, hih.mpr hrest⟩
    | powerFailure torn survives =>
      obtain ⟨sets₁, sets', k, st', m₁, hsets₁, hleft, hrun, h', hlen⟩ :=
        h.runEvent_powerFailure hlib hevent hfuel₁
      rw [hrun] at hafter ⊢
      rw [← List.append_nil (recs₀ ++ sets'.take k)] at hlen
      have hih := ih h' (stable_nil _ _) hafter (by omega) (by omega)
      constructor
      · rintro ⟨hdurable, values', howes, hrest⟩
        have hvalues := h'.replay_eq hrest.durableAt (by omega)
        rw [← hvalues] at hrest
        exact ⟨h.eventRewrites_powerFailure hstable hlib hevent hfuel₁ hdurable, hih.mp hrest⟩
      · rintro ⟨hrewrites, hrest⟩
        refine ⟨hstable.durableAt h hlib hfuel₁ (fun r => fits_of_mem_records hevent) hrewrites, _,
          hstable.owes h hrewrites hsets₁ hleft k, hih.mpr hrest⟩

/-- **Durability.**  A run from a new file returns, whatever it sets and whenever the power fails in
it.  At every point of it every key has the value that the store owes it if and only if no call of
`Set` that returned has changed a value, neither by its record nor by what may be left of it, and no
interrupted call can leave a value that was never set. -/
theorem durable_iff_rewrites (M : Mapping) (hlib : M.useLibpmem = true) (events : List Event)
    (fuel : ℕ) (hfuel : events.length + 1 < fuel) (hfits : M.FitsNew fuel events) :
    (∃ replies st, M.runNew fuel events = .done replies st) ∧
      (M.DurableNew fuel events ↔ M.RewritesNew fuel events) := by
  obtain ⟨hopen, hready⟩ := openStore_new M fuel (by omega)
  unfold FitsNew at hfits
  unfold runNew DurableNew RewritesNew
  rw [hopen] at hfits ⊢
  have hlog : LogImage (fun _ => 0) [] := hready.log
  have h : M.OpenSince ⟨⟨fun _ => 0, []⟩, storeOf []⟩ (fun _ => 0) [] [] := .new hlog hready.fits
  constructor
  · apply h.runEvents hlib hfits
    rw [List.append_nil, List.length_nil]
    omega
  · apply h.durable_iff (stable_nil _ _) hlib hfits
    rw [List.append_nil, List.length_nil]
    omega

/-- A record that survived a power failure is set again: nothing can be lost. -/
theorem setAgain_durable :
    (∃ replies st, sampleMapping.runNew 20
        [.powerFailure (some ([1], [2], 100)) [true], .set [1] [2], .get [1] []] =
      .done replies st) ∧
      sampleMapping.RewritesNew 20
        [.powerFailure (some ([1], [2], 100)) [true], .set [1] [2], .get [1] []] ∧
      sampleMapping.DurableNew 20
        [.powerFailure (some ([1], [2], 100)) [true], .set [1] [2], .get [1] []] := by
  have hrewrites : sampleMapping.RewritesNew 20
      [.powerFailure (some ([1], [2], 100)) [true], .set [1] [2], .get [1] []] := by
    refine ⟨eventRewrites_powerFailure ⟨by decide, by decide⟩, ?_, trivial, trivial⟩
    exact (eventRewrites_set_iff (by decide) (by decide)).mpr rfl
  obtain ⟨hrun, hiff⟩ := durable_iff_rewrites sampleMapping rfl
    [.powerFailure (some ([1], [2], 100)) [true], .set [1] [2], .get [1] []] 20 (by decide)
    (by decide +kernel)
  exact ⟨hrun, hrewrites, hiff.mpr hrewrites⟩

/-- `Set` has returned, the power fails, and the value is gone. -/
theorem set_lost : ∃ st st', sampleMapping.runNew 5 [.set [1] [2]] = .done [.status .Ok] st ∧
    sampleMapping.FitsNew 5 [.set [1] [2]] ∧
    sampleMapping.runEvent 5 (.powerFailure none []) st = .done .opened st' ∧
    valueOf st [1] = some [2] ∧ valueOf st' [1] = none ∧
    ¬sampleMapping.DurableNew 5 [.set [1] [2]] := by
  refine ⟨_, _, rfl, by decide +kernel, rfl, rfl, rfl, fun hdurable => ?_⟩
  obtain ⟨-, values, rfl, hrest⟩ := hdurable
  obtain ⟨st', hrun, hvalues⟩ := hrest none [] (List.nil_subset _)
  obtain rfl := (Outcome.done.inj hrun).2
  rcases hvalues [1] with heq | ⟨value, i, hnone, -⟩
  · cases heq
  · cases hnone

end Mapping

end PmemKv
