import PmemKv.ValueStore.Reserving
import PmemKv.ValueStore.Availability

/-!
# Which calls publish a batch of reservations

`KVSPublish` copies the reservations it is given into one vector for each pool, deletes them, and
passes each vector to `pmemobj_publish`, at most 32 reservations in a call.  Here it works on the
addresses of the reservations, as the source does, and returns its deletions and its calls in order.
The calls for a pool are the reservations in that pool, each once and in the order of the batch, and
they do to the objects in the pools what `kvsPublish` says.
-/

namespace PmemKv

/-- What `KVSPublish` does. -/
inductive PublishStep : Type
  /-- A `PobjAction` is deleted. -/
  | delete (pact : ℕ)
  /-- `pmemobj_publish` is called. -/
  | publish (pool : ℕ) (offs : List ℕ)
  deriving DecidableEq

/-- The `PobjAction`s that are deleted. -/
def deletedActions : List PublishStep → List ℕ
  | [] => []
  | .delete pact :: steps => pact :: deletedActions steps
  | .publish _ _ :: steps => deletedActions steps

/-- The reservations in the calls of `pmemobj_publish` for a pool. -/
def callsOn (i : ℕ) : List PublishStep → List (List ℕ)
  | [] => []
  | .delete _ :: steps => callsOn i steps
  | .publish j offs :: steps => if j = i then offs :: callsOn i steps else callsOn i steps

namespace Libraries

/-- The objects after some steps. -/
def publishSteps : List PublishStep → List Obj → List Obj
  | [], objects => objects
  | .delete _ :: steps, objects => publishSteps steps objects
  | .publish i offs :: steps, objects => publishSteps steps (pmemobjPublish i offs objects)

/-- The loop of `KVSPublish` over `pact_array`, which fills `pacts_of_pools`. -/
def collectLoop (poolCount : ℕ) : List ℕ → (ℕ → List ℕ) → (ℕ → Option PobjAction) →
    Except Stop (List PublishStep × (ℕ → List ℕ) × (ℕ → Option PobjAction))
  | [], pactsOfPools, actions => .ok ([], pactsOfPools, actions)
  | a :: pactArray, pactsOfPools, actions =>
    match actions a with
    | none => .error .fault
    | some pact => do
      require (pact.poolIndex < poolCount)
      let (steps, pactsOfPools, actions) ← collectLoop poolCount pactArray
        (Function.update pactsOfPools pact.poolIndex (pactsOfPools pact.poolIndex ++ [pact.off]))
        (Function.update actions a none)
      pure (.delete a :: steps, pactsOfPools, actions)

/-- The loop of `KVSPublish` over the vector `pacts` of a pool, from `index` on. -/
def batchLoop (pool : ℕ) (pacts : List ℕ) : ℕ → ℕ → Except Stop (List PublishStep)
  | 0, _ => .error .exhausted
  | fuel + 1, index =>
    if index < pacts.length then do
      let n := min (pacts.length - index) 32
      let steps ← batchLoop pool pacts fuel (index + n)
      pure (.publish pool ((pacts.drop index).take n) :: steps)
    else do
      require (index = pacts.length)
      pure []

/-- The loop of `KVSPublish` over the `n` pools from the pool `i` on. -/
def poolsLoop (pactsOfPools : ℕ → List ℕ) : ℕ → ℕ → Except Stop (List PublishStep)
  | 0, _ => .ok []
  | n + 1, i => do
    let steps ← batchLoop i (pactsOfPools i) ((pactsOfPools i).length + 1) 0
    let steps' ← poolsLoop pactsOfPools n (i + 1)
    pure (steps ++ steps')

/-- `KVSPublish`, with what it does. -/
def kvsPublishArray (pactArray : List ℕ) (p : Process) :
    Except Stop (List PublishStep × Process) := do
  p.s.requirePools
  let (deletes, pactsOfPools, actions) ← collectLoop p.s.poolCount pactArray (fun _ => []) p.actions
  let publishes ← poolsLoop pactsOfPools p.s.poolCount 0
  let steps := deletes ++ publishes
  pure (steps, { p with
    s := { p.s with objects := publishSteps steps p.s.objects }, actions := actions })

/-! ## Sequences of steps -/

section Steps

variable {i : ℕ} (steps steps' : List PublishStep)

lemma deletedActions_append :
    deletedActions (steps ++ steps') = deletedActions steps ++ deletedActions steps' := by
  induction steps with
  | nil => rfl
  | cons step steps ih =>
    cases step with
    | delete a => exact congrArg (a :: ·) ih
    | publish j offs => exact ih

lemma callsOn_append : callsOn i (steps ++ steps') = callsOn i steps ++ callsOn i steps' := by
  induction steps with
  | nil => rfl
  | cons step steps ih =>
    cases step with
    | delete a => exact ih
    | publish j offs =>
      rw [List.cons_append, callsOn, callsOn, ih]
      split <;> rfl

lemma publishSteps_append (objects : List Obj) :
    publishSteps (steps ++ steps') objects = publishSteps steps' (publishSteps steps objects) := by
  induction steps generalizing objects with
  | nil => rfl
  | cons step steps ih =>
    cases step with
    | delete a => exact ih objects
    | publish j offs => exact ih _

end Steps

/-- The calls in a list of steps pass some reservations in a pool, and no other step is there. -/
structure Publishes (i : ℕ) (offs : List ℕ) (steps : List PublishStep) : Prop where
  /-- Nothing is deleted. -/
  deleted : deletedActions steps = []
  /-- The calls for the pool pass the reservations. -/
  calls : (callsOn i steps).flatten = offs
  /-- There are no calls for other pools. -/
  other : ∀ j, j ≠ i → callsOn j steps = []
  /-- No call is empty or too long. -/
  bounded : ∀ j offs, .publish j offs ∈ steps → j = i ∧ 0 < offs.length ∧ offs.length ≤ 32
  /-- The objects of the reservations are published. -/
  objects : ∀ objects, publishSteps steps objects = pmemobjPublish i offs objects

lemma publishes_nil (i : ℕ) : Publishes i [] [] := by
  refine ⟨rfl, rfl, fun _ _ => rfl, fun _ _ h => absurd h List.not_mem_nil, fun objects => ?_⟩
  unfold publishSteps pmemobjPublish
  simp

/-- One more call. -/
lemma Publishes.cons {i : ℕ} {offs' : List ℕ} {steps : List PublishStep}
    (h : Publishes i offs' steps) (offs : List ℕ) (hpos : 0 < offs.length)
    (hle : offs.length ≤ 32) :
    Publishes i (offs ++ offs') (.publish i offs :: steps) := by
  constructor
  · exact h.deleted
  · rw [callsOn, if_pos rfl, List.flatten_cons, h.calls]
  · intro j hj
    rw [callsOn, if_neg (Ne.symm hj), h.other j hj]
  · intro j offs'' hmem
    rcases List.mem_cons.mp hmem with heq | hmem
    · cases heq
      exact ⟨rfl, hpos, hle⟩
    · exact h.bounded j offs'' hmem
  · intro objects
    rw [publishSteps, h.objects, pmemobjPublish_append]

/-- **The loop over a vector** ends, and passes what the vector holds from `index` on. -/
lemma batchLoop_eq (pool : ℕ) (pacts : List ℕ) (fuel index : ℕ) (hindex : index ≤ pacts.length)
    (hfuel : pacts.length < index + fuel) :
    ∃ steps, batchLoop pool pacts fuel index = .ok steps ∧
      Publishes pool (pacts.drop index) steps := by
  induction fuel generalizing index with
  | zero => omega
  | succ fuel ih =>
    unfold batchLoop
    by_cases hlt : index < pacts.length
    · obtain ⟨steps, hloop, hsteps⟩ :=
        ih (index + min (pacts.length - index) 32) (by omega) (by omega)
      rw [if_pos hlt]
      simp only [hloop, bind, Except.bind, pure, Except.pure]
      refine ⟨_, rfl, ?_⟩
      have hlen : ((pacts.drop index).take (min (pacts.length - index) 32)).length =
          min (pacts.length - index) 32 := by
        rw [List.length_take, List.length_drop]
        omega
      have hcons := hsteps.cons ((pacts.drop index).take (min (pacts.length - index) 32))
        (by omega) (by omega)
      rwa [← List.drop_drop, List.take_append_drop] at hcons
    · obtain rfl : index = pacts.length := by omega
      rw [if_neg hlt, require, if_pos rfl, List.drop_length]
      exact ⟨[], rfl, publishes_nil pool⟩

/-- The loop over the pools passes, for each of them, what its vector holds. -/
lemma poolsLoop_eq (pactsOfPools : ℕ → List ℕ) (n i : ℕ) :
    ∃ steps, poolsLoop pactsOfPools n i = .ok steps ∧ deletedActions steps = [] ∧
      (∀ j, (callsOn j steps).flatten = if i ≤ j ∧ j < i + n then pactsOfPools j else []) ∧
      (∀ j offs, .publish j offs ∈ steps → j < i + n ∧ 0 < offs.length ∧ offs.length ≤ 32) ∧
      ∀ objects, publishSteps steps objects = objects.map fun o =>
        publishIf ((i ≤ o.pool ∧ o.pool < i + n) ∧ o.off ∈ pactsOfPools o.pool) o := by
  induction n generalizing i with
  | zero =>
    refine ⟨[], rfl, rfl, fun j => ?_, fun _ _ h => absurd h List.not_mem_nil, fun objects => ?_⟩
    · rw [if_neg (by omega)]
      rfl
    · symm
      rw [List.map_congr_left fun o _ => publishIf_of_not (by omega) o]
      exact List.map_id objects
  | succ n ih =>
    obtain ⟨steps, hloop, hsteps⟩ := batchLoop_eq i (pactsOfPools i)
      ((pactsOfPools i).length + 1) 0 (Nat.zero_le _) (by omega)
    obtain ⟨steps', hloop', hdel, hcalls, hbounded, hobjects⟩ := ih (i + 1)
    rw [List.drop_zero] at hsteps
    unfold poolsLoop
    simp only [hloop, hloop', bind, Except.bind, pure, Except.pure]
    refine ⟨_, rfl, ?_, fun j => ?_, fun j offs hmem => ?_, fun objects => ?_⟩
    · rw [deletedActions_append, hsteps.deleted, hdel]
      rfl
    · rw [callsOn_append, List.flatten_append, hcalls]
      by_cases hj : j = i
      · rw [hj, hsteps.calls, if_neg (by omega), if_pos (by omega), List.append_nil]
      · rw [hsteps.other j hj, List.flatten_nil, List.nil_append]
        by_cases hrange : i + 1 ≤ j ∧ j < i + 1 + n
        · rw [if_pos hrange, if_pos (by omega)]
        · rw [if_neg hrange, if_neg (by omega)]
    · rcases List.mem_append.mp hmem with hmem | hmem
      · obtain ⟨rfl, hlen⟩ := hsteps.bounded j offs hmem
        exact ⟨by omega, hlen⟩
      · obtain ⟨hlt, hlen⟩ := hbounded j offs hmem
        exact ⟨by omega, hlen⟩
    · rw [publishSteps_append, hsteps.objects, hobjects, pmemobjPublish_eq, List.map_map]
      apply List.map_congr_left
      intro o _
      simp only [Function.comp_apply, publishIf_publishIf, publishIf_pool, publishIf_off]
      exact publishIf_congr (or_range_iff (P := fun k => o.off ∈ pactsOfPools k)) o

/-! ## A batch -/

section Deletes

variable {i : ℕ} (pacts : List ℕ)

lemma deletedActions_map : deletedActions (pacts.map PublishStep.delete) = pacts := by
  induction pacts with
  | nil => rfl
  | cons a pacts ih => exact congrArg (a :: ·) ih

lemma callsOn_map : callsOn i (pacts.map PublishStep.delete) = [] := by
  induction pacts with
  | nil => rfl
  | cons a pacts ih => exact ih

lemma publishSteps_map (objects : List Obj) :
    publishSteps (pacts.map PublishStep.delete) objects = objects := by
  induction pacts with
  | nil => rfl
  | cons a pacts ih => exact ih

end Deletes

variable {L : Libraries} {count : ℕ} {p : Process} {actions : ℕ → Option PobjAction}
  {batch : List (ℕ × PobjAction)}

/-- The loop over `pact_array` sorts the reservations by their pools, and deletes them. -/
lemma collectLoop_eq (hactions : ∀ x ∈ batch, actions x.1 = some x.2 ∧ x.2.poolIndex < count)
    (hnd : (batch.map Prod.fst).Nodup) (pactsOfPools : ℕ → List ℕ) :
    ∃ pactsOfPools' actions', collectLoop count (batch.map Prod.fst) pactsOfPools actions =
        .ok ((batch.map Prod.fst).map PublishStep.delete, pactsOfPools', actions') ∧
      (∀ i, pactsOfPools' i = pactsOfPools i ++
        (batch.filter fun x => x.2.poolIndex = i).map fun x => x.2.off) ∧
      ∀ a, actions' a = if a ∈ batch.map Prod.fst then none else actions a := by
  induction batch generalizing pactsOfPools actions with
  | nil =>
    refine ⟨pactsOfPools, actions, rfl, fun i => ?_, fun a => ?_⟩
    · exact (List.append_nil _).symm
    · exact (if_neg List.not_mem_nil).symm
  | cons x batch ih =>
    obtain ⟨hx, hlt⟩ := hactions x List.mem_cons_self
    obtain ⟨hnotin, hnd⟩ := List.nodup_cons.mp hnd
    -- the other addresses still hold their reservations
    have hrest : ∀ y ∈ batch, Function.update actions x.1 none y.1 = some y.2 ∧
        y.2.poolIndex < count := by
      intro y hy
      rw [Function.update_of_ne]
      · exact hactions y (List.mem_cons_of_mem x hy)
      · rintro heq
        exact hnotin (heq ▸ List.mem_map_of_mem hy)
    obtain ⟨v, actions', hloop, hv, hactions'⟩ := ih hrest hnd
      (Function.update pactsOfPools x.2.poolIndex (pactsOfPools x.2.poolIndex ++ [x.2.off]))
    refine ⟨v, actions', ?_, fun i => ?_, fun a => ?_⟩
    · rw [List.map_cons, collectLoop, hx]
      simp only [bind, Except.bind, pure, Except.pure, require]
      rw [if_pos hlt]
      simp only
      rw [hloop, List.map_cons]
    · rw [hv, List.filter_cons]
      by_cases hi : x.2.poolIndex = i
      · subst hi
        rw [Function.update_self, if_pos (decide_eq_true rfl), List.map_cons, List.append_assoc]
        rfl
      · rw [Function.update_of_ne (Ne.symm hi), if_neg (fun h => hi (of_decide_eq_true h))]
    · rw [hactions', List.map_cons]
      by_cases ha : a = x.1
      · subst ha
        rw [if_neg hnotin, Function.update_self, if_pos List.mem_cons_self]
      · rw [Function.update_of_ne ha]
        simp only [List.mem_cons, ha, false_or]

/-- What `KVSPublish` does with the reservations at some addresses. -/
lemma kvsPublishArray_eq (hopen : p.s.pools.isSome = true) (hcount : p.s.poolCount = count)
    (hactions : ∀ x ∈ batch, p.actions x.1 = some x.2 ∧ x.2.poolIndex < count)
    (hnd : (batch.map Prod.fst).Nodup) :
    ∃ steps p', kvsPublishArray (batch.map Prod.fst) p = .ok (steps, p') ∧
      deletedActions steps = batch.map Prod.fst ∧
      (∀ i, (callsOn i steps).flatten =
        (batch.filter fun x => x.2.poolIndex = i).map fun x => x.2.off) ∧
      (∀ i offs, .publish i offs ∈ steps → i < count ∧ 0 < offs.length ∧ offs.length ≤ 32) ∧
      (∀ a, p'.actions a = if a ∈ batch.map Prod.fst then none else p.actions a) ∧
      kvsPublish (batch.map Prod.snd) p.s = .ok p'.s := by
  obtain ⟨v, actions', hcollect, hv, hactions'⟩ := collectLoop_eq hactions hnd fun _ => []
  obtain ⟨steps, hloop, hdel, hcalls, hbounded, hobjects⟩ := poolsLoop_eq v count 0
  unfold kvsPublishArray
  simp only [bind, Except.bind, pure, Except.pure]
  rw [requirePools_eq hopen, hcount]
  simp only [hcollect, hloop]
  refine ⟨_, _, rfl, ?_, fun i => ?_, fun i offs hmem => ?_, hactions', ?_⟩
  · rw [deletedActions_append, deletedActions_map, hdel, List.append_nil]
  · rw [callsOn_append, callsOn_map, List.nil_append, hcalls, hv, List.nil_append]
    by_cases hi : i < count
    · rw [if_pos (by omega)]
    · rw [if_neg (by omega)]
      symm
      rw [List.map_eq_nil_iff, List.filter_eq_nil_iff]
      intro x hx hxi
      have hlt := (hactions x hx).2
      rw [of_decide_eq_true hxi] at hlt
      exact hi hlt
  · rcases List.mem_append.mp hmem with hmem | hmem
    · obtain ⟨a, -, ha⟩ := List.mem_map.mp hmem
      cases ha
    · obtain ⟨hlt, hlen⟩ := hbounded i offs hmem
      exact ⟨by omega, hlen⟩
  · -- the calls do what `kvsPublish` says
    have hlt : ∀ pact ∈ batch.map Prod.snd, pact.poolIndex < p.s.poolCount := by
      intro pact hpact
      obtain ⟨x, hx, rfl⟩ := List.mem_map.mp hpact
      rw [hcount]
      exact (hactions x hx).2
    have hmem : ∀ off i, off ∈ v i ↔ ⟨off, i⟩ ∈ batch.map Prod.snd := by
      intro off i
      rw [hv, List.nil_append, List.mem_map, List.mem_map]
      constructor
      · rintro ⟨x, hx, rfl⟩
        obtain ⟨hx, hi⟩ := List.mem_filter.mp hx
        exact ⟨x, hx, by rw [← of_decide_eq_true hi]⟩
      · rintro ⟨x, hx, heq⟩
        refine ⟨x, List.mem_filter.mpr ⟨hx, decide_eq_true ?_⟩, ?_⟩ <;> rw [heq]
    unfold kvsPublish
    simp only [bind, Except.bind, pure, Except.pure]
    rw [requirePools_eq hopen]
    simp only [require]
    rw [if_pos hlt]
    simp only
    rw [publishPools_eq, hcount]
    simp only
    congr 2
    rw [publishSteps_append, publishSteps_map, hobjects]
    apply List.map_congr_left
    intro o _
    apply publishIf_congr
    rw [hmem]

/-! ## Reservations that were made -/

/-- A reservation. -/
structure Reservation where
  /-- The address of its `PobjAction`. -/
  pact : ℕ
  /-- The pool in which the object was reserved. -/
  pool : ℕ
  /-- The offset of the object. -/
  off : ℕ
  deriving DecidableEq

/-- `ReservePmem` reserved the object in one of the pools, and its `PobjAction` has not changed
since. -/
def Reserved (L : Libraries) (count : ℕ) (p : Process) (x : Reservation) : Prop :=
  ∃ size out out' p₀ p₁, p₀.s.poolCount = count ∧
    L.reservePmemInto size out p₀ = (true, out', p₁) ∧ out'.pact = some x.pact ∧
    p₁.s.objects = ⟨x.pool, x.off, size, false⟩ :: p₀.s.objects ∧
    p.actions x.pact = p₁.actions x.pact

/-- Such a reservation holds the pool and the offset of its object. -/
lemma Reserved.action (hL : L.Lawful count) {x : Reservation} (h : Reserved L count p x) :
    p.actions x.pact = some ⟨x.off, x.pool⟩ ∧ x.pool < count := by
  obtain ⟨size, out, out', p₀, p₁, hcount, hres, hpact, hobjects, hkept⟩ := h
  rw [reservePmemInto_eq] at hres
  rcases hfound : L.reservePmem size p₀.s with ⟨_ | ⟨j, off⟩, s⟩
  · rw [hfound] at hres
    cases hres
  · obtain ⟨n, t, hj, -, rfl⟩ := reservePmem_some hcount hfound
    rw [hfound] at hres
    cases hres
    have haddr : p₀.nextAction = x.pact := Option.some.inj hpact
    obtain ⟨rfl, rfl⟩ : j = x.pool ∧ off = x.off := by
      have hhead := (List.cons.inj hobjects).1
      exact ⟨congrArg Obj.pool hhead, congrArg Obj.off hhead⟩
    rw [hkept, ← haddr, hL.toUInt32_of_lt hj]
    exact ⟨Function.update_self _ _ _, hj⟩

/-- **Publishing a batch.**  `KVSPublish` deletes every reservation once; its calls of
`pmemobj_publish` pass every reservation once, to the pool in which it was made and in the order of
the batch, and none passes no reservation or more than 32. -/
theorem kvsPublish_calls (hL : L.Lawful count) (hopen : p.s.pools.isSome = true)
    (hcount : p.s.poolCount = count) (batch : List Reservation)
    (hbatch : ∀ x ∈ batch, Reserved L count p x) (hnd : (batch.map Reservation.pact).Nodup) :
    ∃ steps p', kvsPublishArray (batch.map Reservation.pact) p = .ok (steps, p') ∧
      (∀ i offs, .publish i offs ∈ steps → i < count ∧ 0 < offs.length ∧ offs.length ≤ 32) ∧
      (∀ i, (callsOn i steps).flatten = (batch.filter fun x => x.pool = i).map Reservation.off) ∧
      deletedActions steps = batch.map Reservation.pact ∧
      ∀ a, p'.actions a = if a ∈ batch.map Reservation.pact then none else p.actions a := by
  have hfst : (batch.map fun x => (x.pact, (⟨x.off, x.pool⟩ : PobjAction))).map Prod.fst =
      batch.map Reservation.pact := by
    rw [List.map_map]
    rfl
  have hactions : ∀ y ∈ batch.map fun x => (x.pact, (⟨x.off, x.pool⟩ : PobjAction)),
      p.actions y.1 = some y.2 ∧ y.2.poolIndex < count := by
    intro y hy
    obtain ⟨x, hx, rfl⟩ := List.mem_map.mp hy
    exact (hbatch x hx).action hL
  obtain ⟨steps, p', hrun, hdel, hcalls, hbounded, hkept, -⟩ :=
    kvsPublishArray_eq hopen hcount hactions (by rwa [hfst])
  rw [hfst] at hrun hdel hkept
  refine ⟨steps, p', hrun, hbounded, fun i => ?_, hdel, hkept⟩
  rw [hcalls, List.filter_map, List.map_map]
  rfl

/-- The process behind a call of `ReservePmem`. -/
def sampleReserve (size : ℕ) (p : Process) : Process :=
  (sampleLibraries.reservePmemInto size ⟨0, ⟨0, 0⟩, none⟩ p).2.2

/-- The process before any reservation. -/
def sampleProcess : Process := ⟨sampleOpened, fun _ => none, 0⟩

/-- Three reservations in two pools are published. -/
theorem kvsPublish_calls_sample :
    ∃ steps p', kvsPublishArray [2, 0, 1]
        (sampleReserve 5 (sampleReserve 4 (sampleReserve 3 sampleProcess))) = .ok (steps, p') ∧
      (∀ i offs, .publish i offs ∈ steps → i < 2 ∧ 0 < offs.length ∧ offs.length ≤ 32) ∧
      (∀ i, (callsOn i steps).flatten = ([⟨2, 0, 4099⟩, ⟨0, 0, 4096⟩, ⟨1, 1, 4096⟩].filter
        fun x : Reservation => x.pool = i).map Reservation.off) ∧
      deletedActions steps = [2, 0, 1] ∧
      ∀ a, p'.actions a = if a ∈ [2, 0, 1] then none else
        (sampleReserve 5 (sampleReserve 4 (sampleReserve 3 sampleProcess))).actions a := by
  refine kvsPublish_calls sampleLibraries_lawful rfl rfl [⟨2, 0, 4099⟩, ⟨0, 0, 4096⟩, ⟨1, 1, 4096⟩]
    ?_ (by decide)
  intro x hx
  simp only [List.mem_cons, List.not_mem_nil, or_false] at hx
  rcases hx with rfl | rfl | rfl
  · exact ⟨5, ⟨0, ⟨0, 0⟩, none⟩, _, sampleReserve 4 (sampleReserve 3 sampleProcess), _,
      rfl, rfl, rfl,
      rfl, rfl⟩
  · exact ⟨3, ⟨0, ⟨0, 0⟩, none⟩, _, sampleProcess, _, rfl, rfl, rfl, rfl, rfl⟩
  · exact ⟨4, ⟨0, ⟨0, 0⟩, none⟩, _, sampleReserve 3 sampleProcess, _, rfl, rfl, rfl, rfl, rfl⟩

end Libraries

end PmemKv
