import PmemKv.ValueStore.Ledger

/-!
# Runs of the value store

The pools are opened, used by any sequence of calls, closed and opened again, at other addresses and
also by other processes.  Every reference in the ledger is decoded to its value in every state that
is reached.
-/

namespace PmemKv

open PersistentMemory

/-- What may happen to the value store. -/
inductive KvsEvent : Type
  /-- A call that stores, publishes or gives back values. -/
  | call (call : KvsCall)
  /-- `KVSOpen`, with the same path. -/
  | kvsOpen (size poolCount : ℕ)
  /-- `KVSCLose`. -/
  | kvsCLose
  /-- The process ends, and another one starts. -/
  | restart

/-- The state of a new process; the pools are as they were. -/
def KVSState.restart (s : KVSState) : KVSState :=
  { KVSState.start s.mem with
    objects := s.objects, tries := s.tries, opens := s.opens, reserves := s.reserves }

/-- Nothing was stored yet. -/
def KvsRun.start (mem : ℕ → UInt8) : KvsRun := ⟨KVSState.start mem, []⟩

namespace Libraries

variable (L : Libraries)

/-- One step; opening the pools drops what was not published. -/
def runEvent (event : KvsEvent) (r : KvsRun) : Except Stop KvsRun :=
  match event with
  | .call call => L.runCall call r
  | .kvsOpen size poolCount => do
    let (res, s) ← L.kvsOpen size poolCount r.s
    pure ⟨s, if res then r.live.filter fun x => x.published else r.live⟩
  | .kvsCLose => pure ⟨kvsCLose r.s, r.live⟩
  | .restart => pure ⟨r.s.restart, r.live⟩

/-- A sequence of steps. -/
def runEvents : List KvsEvent → KvsRun → Except Stop KvsRun
  | [], r => .ok r
  | event :: events, r => do
    let r ← L.runEvent event r
    runEvents events r

/-- Pools that are not open are opened, always the same number. -/
def Admits (count : ℕ) (r : KvsRun) : KvsEvent → Prop
  | .call call => AdmitsCall r call
  | .kvsOpen _ poolCount => r.s.pools.isNone = true ∧ poolCount = count ∧ 0 < count
  | _ => True

/-- Every step is admissible when it is taken. -/
def Admissible (count : ℕ) : List KvsEvent → KvsRun → Prop
  | [], _ => True
  | event :: events, r => Admits count r event ∧
      match L.runEvent event r with
      | .ok r => Admissible count events r
      | .error _ => True

instance (ref : KVSRef) : Decidable (IsRaw ref) := by
  unfold IsRaw
  infer_instance

instance (r : KvsRun) (call : KvsCall) : Decidable (AdmitsCall r call) := by
  cases call <;> unfold AdmitsCall <;> infer_instance

instance (count : ℕ) (r : KvsRun) (event : KvsEvent) : Decidable (Admits count r event) := by
  cases event <;> unfold Admits <;> infer_instance

/-- Whether every step is admissible. -/
def decidableAdmissible (count : ℕ) :
    (events : List KvsEvent) → (r : KvsRun) → Decidable (L.Admissible count events r)
  | [], _ => instDecidableTrue
  | event :: events, r => by
    unfold Admissible
    cases L.runEvent event r with
    | ok r => exact @instDecidableAnd _ _ _ (decidableAdmissible count events r)
    | error _ => infer_instance

instance (count : ℕ) (events : List KvsEvent) (r : KvsRun) :
    Decidable (L.Admissible count events r) := L.decidableAdmissible count events r

variable {L} {count : ℕ} {r : KvsRun}

/-! ## One step -/

lemma ledger_start (mem : ℕ → UInt8) : L.Ledger count (KvsRun.start mem) := by
  constructor
  · intro pools hpools
    cases hpools
  · rfl
  · exact ⟨fun o ho => absurd ho List.not_mem_nil, List.Pairwise.nil⟩
  · intro x hx
    exact absurd hx List.not_mem_nil

/-- Closed pools hold what they held. -/
lemma Ledger.closed (h : L.Ledger count r) {s' : KVSState} (hpools : s'.pools = none)
    (hopens : s'.opens = r.s.opens) (hobjects : s'.objects = r.s.objects)
    (hmem : s'.mem = r.s.mem) :
    L.Ledger count ⟨s', r.live⟩ := by
  constructor
  · intro pools hsome
    rw [hpools] at hsome
    cases hsome
  · rw [hobjects]
    exact h.objects_eq
  · rw [hobjects]
    exact h.objects
  · intro x hx
    refine (h.stored x hx).of_mem_eq hopens fun a _ _ => ?_
    rw [hmem]

/-- A published value is stored at the new address of its pool. -/
lemma Stored.mapped (hL : L.Lawful count) {x : StoredValue} {s s' : KVSState} (hx : L.Stored s x)
    (hin : Inside L count (L.valueObj x)) {objects : List Obj} (hobj : L.valueObj x ∈ objects)
    (hpub : x.published = true) (hopens : s'.opens = s.opens + 1)
    (hmem : s'.mem = L.mapped (s.opens + 1) objects s.mem) : L.Stored s' x := by
  obtain ⟨h₁, h₂, h₃, h₄, h₅⟩ := hx
  refine ⟨h₁, h₂, h₃, h₄, ?_⟩
  rw [← h₅, hmem, hopens]
  apply read_eq_of_forall
  intro k hk
  exact hL.mapped_published s.opens objects s.mem _ hobj hpub hin.pool_lt hin.le k hk

/-- Opening the pools. -/
lemma Ledger.kvsOpen (hL : L.Lawful count) (h : L.Ledger count r) (size : ℕ) {poolCount : ℕ}
    (hadm : Admits count r (.kvsOpen size poolCount)) :
    ∃ r', L.runEvent (.kvsOpen size poolCount) r = .ok r' ∧ L.Ledger count r' := by
  obtain ⟨hclosed, rfl, hpos⟩ := hadm
  unfold runEvent Libraries.kvsOpen
  simp only [bind, Except.bind, pure, Except.pure, require]
  rw [if_pos hclosed, if_pos hpos.ne']
  simp only
  cases hloop : L.openLoop (r.s.tries + 1) (r.s.opens + 1) (size / poolCount) poolCount 0
      fun _ => ⟨0, 0⟩ with
  | none => exact ⟨_, rfl, h.closed (Option.isNone_iff_eq_none.mp hclosed) rfl rfl rfl⟩
  | some pools =>
    refine ⟨_, rfl, ?_⟩
    have hsub : (r.s.objects.filter fun o => o.published).Sublist r.s.objects :=
      List.filter_sublist
    constructor
    · intro pools' hpools
      cases hpools
      refine ⟨rfl, fun i hi => ?_⟩
      rw [openLoop_some hloop i, if_pos (by omega)]
    · simp only [if_true]
      rw [h.objects_eq, List.filter_map]
      rfl
    · exact ⟨fun o ho => h.objects.inside o (hsub.subset ho), h.objects.apart.sublist hsub⟩
    · intro x hx
      obtain ⟨hx, hpub⟩ := List.mem_filter.mp hx
      exact (h.stored x hx).mapped hL (h.inside hx) (h.mem_objects hx) hpub rfl rfl

/-- **Every step** keeps the ledger. -/
theorem Ledger.runEvent (hL : L.Lawful count) (h : L.Ledger count r) {event : KvsEvent}
    (hadm : Admits count r event) : ∃ r', L.runEvent event r = .ok r' ∧ L.Ledger count r' := by
  cases event with
  | call call => exact h.runCall hL hadm
  | kvsOpen size poolCount => exact h.kvsOpen hL size hadm
  | kvsCLose => exact ⟨_, rfl, h.closed rfl rfl rfl rfl⟩
  | restart => exact ⟨_, rfl, h.closed rfl rfl rfl rfl⟩

/-! ## Runs -/

/-- A run keeps the ledger. -/
theorem Ledger.runEvents (hL : L.Lawful count) (h : L.Ledger count r) {events : List KvsEvent}
    (hadm : L.Admissible count events r) :
    ∃ r', L.runEvents events r = .ok r' ∧ L.Ledger count r' := by
  induction events generalizing r with
  | nil => exact ⟨r, rfl, h⟩
  | cons event events ih =>
    obtain ⟨hevent, hevents⟩ := hadm
    obtain ⟨r₁, hrun₁, h₁⟩ := h.runEvent hL hevent
    rw [hrun₁] at hevents
    obtain ⟨r₂, hrun₂, h₂⟩ := ih h₁ hevents
    refine ⟨r₂, ?_, h₂⟩
    rw [Libraries.runEvents, hrun₁]
    exact hrun₂

/-- **Live references stay valid.**  In every state that is reached with open pools, the reference
of every value that was stored, was not freed or dumped, and was published before the pools were
last opened, is decoded to the value. -/
theorem liveRefs_decode (hL : L.Lawful count) (mem : ℕ → UInt8) (events : List KvsEvent)
    (hadm : L.Admissible count events (KvsRun.start mem)) :
    ∃ r, L.runEvents events (KvsRun.start mem) = .ok r ∧ (r.s.pools.isSome = true →
      ∀ x ∈ r.live, (L.payload x.compress x.value).length < 2 ^ 32 →
        (x.compress = true → L.snappyDefined = true) →
          L.kvsDecodeValueRef (.ref x.ref) sizeofKVSRef r.s = .ok x.value) := by
  obtain ⟨r, hrun, h⟩ := (ledger_start mem).runEvents hL hadm
  exact ⟨r, hrun, fun hopen x hx => h.decode hL hopen hx⟩

/-! ## Sample libraries -/

/-- The first offset behind the objects of a pool. -/
def poolTop (objects : List Obj) (i : ℕ) : ℕ :=
  objects.foldr (fun o top => if o.pool = i then max top (o.off + o.size) else top) 4096

/-- Short values are stored as one literal. -/
def literal (v : Bytes) : Bytes :=
  if v.length = 0 then [0]
  else if v.length ≤ 60 then UInt8.ofNat v.length :: UInt8.ofNat (4 * (v.length - 1)) :: v
  else 255 :: v

/-- Where the first pool is mapped. -/
def sampleBase (e : ℕ) : ℕ := 2 ^ 40 * (1 + e % 2)

/-- Pools of the minimal size, which are made when `KVSOpen` is called first and have room behind
their last object. -/
def sampleLibraries : Libraries where
  create t _ _ := t == 1
  openPool t _ := t != 1
  uuidLo i := i + 1
  len _ := 2 ^ 23
  addr e i := sampleBase e + 2 ^ 23 * i
  mapped e _ mem a := mem (a - sampleBase e + sampleBase (e - 1))
  reserve _ objects i size :=
    if poolTop objects i + size ≤ 2 ^ 23 then some (poolTop objects i) else none
  snappyDefined := true
  rawCompress := literal
  getUncompressedLength
    | [] => none
    | b :: bs => if b = 255 then some bs.length else some b.toNat
  rawUncompress
    | [] => []
    | b :: bs => if b = 255 then bs else bs.drop 1

lemma le_poolTop {objects : List Obj} {o : Obj} (ho : o ∈ objects) :
    o.off + o.size ≤ poolTop objects o.pool := by
  induction objects with
  | nil => exact absurd ho List.not_mem_nil
  | cons o' objects ih =>
    unfold poolTop
    rw [List.foldr_cons]
    rcases List.mem_cons.mp ho with rfl | ho
    · rw [if_pos rfl]
      exact le_max_right _ _
    · split
      · exact le_trans (ih ho) (le_max_left _ _)
      · exact ih ho

lemma length_ne_255 {v : Bytes} (h : v.length ≤ 60) : UInt8.ofNat v.length ≠ 255 := by
  intro heq
  have := congrArg UInt8.toNat heq
  rw [UInt8.toNat_ofNat', Nat.mod_eq_of_lt (by omega)] at this
  change v.length = 255 at this
  omega

/-- Pools of the length `len` that are otherwise as in the sample. -/
def bumpLibraries (len : ℕ) : Libraries :=
  { sampleLibraries with
    len := fun _ => len
    addr := fun e i => sampleBase e + len * i
    reserve := fun _ objects i size =>
      if poolTop objects i + size ≤ len then some (poolTop objects i) else none }

/-- Two such pools are as the results need them. -/
lemma bumpLibraries_lawful {len : ℕ} (hge : 2 ^ 23 ≤ len) (hle : len ≤ 2 ^ 40) :
    (bumpLibraries len).Lawful 2 := by
  constructor
  · intro e i hi
    change sampleBase e + len * i + len ≤ 2 ^ 47
    have hmul : len * i ≤ len * 1 := Nat.mul_le_mul_left len (Nat.le_of_lt_succ hi)
    unfold sampleBase
    omega
  · intro i _
    exact hge
  · intro e i _ j _ hne
    change sampleBase e + len * i + len ≤ sampleBase e + len * j ∨
      sampleBase e + len * j + len ≤ sampleBase e + len * i
    rcases Nat.lt_or_gt_of_ne hne with hlt | hlt
    · have hmul : len * (i + 1) ≤ len * j := Nat.mul_le_mul_left len hlt
      rw [Nat.mul_succ] at hmul
      omega
    · have hmul : len * (j + 1) ≤ len * i := Nat.mul_le_mul_left len hlt
      rw [Nat.mul_succ] at hmul
      omega
  · intro i _ j _ h
    exact Nat.succ_injective h
  · intro t objects i n off h
    simp only [bumpLibraries, Option.ite_none_right_eq_some, Option.some.injEq] at h
    obtain ⟨hle, rfl⟩ := h
    exact hle
  · intro t objects i n off h o ho hp
    simp only [bumpLibraries, Option.ite_none_right_eq_some, Option.some.injEq] at h
    obtain ⟨-, rfl⟩ := h
    right
    rw [← hp]
    exact le_poolTop ho
  · intro e objects mem o _ _ _ _ k _
    change mem (sampleBase (e + 1) + len * o.pool + o.off + k - sampleBase (e + 1) +
      sampleBase (e + 1 - 1)) = mem (sampleBase e + len * o.pool + o.off + k)
    congr 1
    rw [Nat.add_sub_cancel]
    omega
  · intro v
    change (match literal v with
      | [] => none
      | b :: bs => if b = 255 then some bs.length else some b.toNat) = some v.length
    unfold literal
    split_ifs with h₀ h₆₀
    · rw [h₀]
      rfl
    · simp only [if_neg (length_ne_255 h₆₀)]
      rw [UInt8.toNat_ofNat', Nat.mod_eq_of_lt (by omega)]
    · rfl
  · intro v
    change (match literal v with
      | [] => []
      | b :: bs => if b = 255 then bs else bs.drop 1) = v
    unfold literal
    split_ifs with h₀ h₆₀
    · exact (List.length_eq_zero_iff.mp h₀).symm
    · simp only [if_neg (length_ne_255 h₆₀)]
      rfl
    · rfl

lemma sampleLibraries_lawful : sampleLibraries.Lawful 2 :=
  bumpLibraries_lawful le_rfl (by decide)

/-- Values in two pools, compressed or not: one is freed and its room is used again, one is dumped,
and the pools are opened again by the same process and by another one. -/
def sampleEvents : List KvsEvent :=
  [.kvsOpen (2 ^ 24) 2, .call (.encode [5, 6] false), .call (.encode [7] true),
    .call (.encode [8, 8, 8] false), .call (.publish [⟨4096, 1⟩, ⟨4099, 0⟩]),
    .call (.free ⟨kEncodingPtrUncompressed, 3, 0, 4099⟩), .call (.encode [9, 9] true),
    .call (.encode [1, 2] false), .call (.publish [⟨4099, 0⟩]), .kvsCLose, .kvsOpen (2 ^ 24) 2,
    .call (.dump ⟨kEncodingPtrCompressed, 3, 1, 4096⟩), .call (.encode [4] true), .restart,
    .kvsOpen (2 ^ 24) 2]

theorem sampleEvents_decode :
    ∃ r, sampleLibraries.runEvents sampleEvents (KvsRun.start fun _ => 0) = .ok r ∧
      (r.s.pools.isSome = true → ∀ x ∈ r.live,
        (sampleLibraries.payload x.compress x.value).length < 2 ^ 32 →
          (x.compress = true → sampleLibraries.snappyDefined = true) →
            sampleLibraries.kvsDecodeValueRef (.ref x.ref) sizeofKVSRef r.s = .ok x.value) :=
  liveRefs_decode sampleLibraries_lawful (fun _ => 0) sampleEvents (by decide +kernel)

/-- One value is still there at the end. -/
example : (match sampleLibraries.runEvents sampleEvents (KvsRun.start fun _ => 0) with
    | .ok r => r.live.map fun x => x.value
    | .error _ => []) = [[1, 2]] := by decide +kernel

end Libraries

end PmemKv
