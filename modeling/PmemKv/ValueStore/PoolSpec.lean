import PmemKv.ValueStore.Pools
import Mathlib.Data.Finset.Card
import Mathlib.Data.Finset.Range
import Mathlib.Data.List.Pairwise

/-!
# Objects in the pools

What is relied on of the libraries is `Lawful`: the pools are mapped apart from each other, and
`pmemobj_reserve` finds room apart from all objects.  `KVSEncodeValue` then makes one object for a
value, `KVSPublish` and closing and opening the pools keep the published objects with their bytes,
and `KVSFreeValue` and `KVSDumpFromValueRef` remove one object.
-/

namespace PmemKv

open PersistentMemory

namespace Libraries

/-- What is documented of `libpmemobj` and `snappy`, for a number of pools. -/
structure Lawful (L : Libraries) (count : ℕ) : Prop where
  /-- The pools are mapped into the address space of a process. -/
  addr_le : ∀ e, ∀ i < count, L.addr e i + L.len i ≤ 2 ^ 47
  /-- A pool has at least the minimal size. -/
  len_ge : ∀ i < count, 2 ^ 23 ≤ L.len i
  /-- The pools are mapped apart from each other. -/
  apart : ∀ e, ∀ i < count, ∀ j < count, i ≠ j →
    L.addr e i + L.len i ≤ L.addr e j ∨ L.addr e j + L.len j ≤ L.addr e i
  /-- Each pool has its own `uuid`. -/
  uuidLo_inj : ∀ i < count, ∀ j < count, L.uuidLo i = L.uuidLo j → i = j
  /-- A reserved object is inside the pool. -/
  reserve_le : ∀ t objects i n off, L.reserve t objects i n = some off → off + n ≤ L.len i
  /-- Reserved or live objects never overlap. -/
  reserve_apart : ∀ t objects i n off, L.reserve t objects i n = some off →
    ∀ o ∈ objects, o.pool = i → off + n ≤ o.off ∨ o.off + o.size ≤ off
  /-- Published contents survive closing and opening. -/
  mapped_published : ∀ e objects mem, ∀ o ∈ objects, o.published = true → o.pool < count →
    o.off + o.size ≤ L.len o.pool → ∀ k < o.size,
      L.mapped (e + 1) objects mem (L.addr (e + 1) o.pool + o.off + k) =
        mem (L.addr e o.pool + o.off + k)
  /-- The length of the uncompressed bytes is found. -/
  length_rawCompress : ∀ v, L.getUncompressedLength (L.rawCompress v) = some v.length
  /-- Uncompressing inverts compressing. -/
  rawUncompress_rawCompress : ∀ v, L.rawUncompress (L.rawCompress v) = v

variable {L : Libraries} {count i j n e : ℕ} {s s' : KVSState} {o o' : Obj} {ref : KVSRef}

/-- There are not more pools than fit the address space. -/
lemma Lawful.count_le (hL : L.Lawful count) : count ≤ 2 ^ 24 := by
  have hmaps : Set.MapsTo (fun i => L.addr 0 i / 2 ^ 23) (Finset.range count : Set ℕ)
      (Finset.range (2 ^ 24) : Set ℕ) := by
    intro i hi
    rw [Finset.mem_coe, Finset.mem_range] at hi ⊢
    have h₁ := hL.addr_le 0 i hi
    have h₂ := hL.len_ge i hi
    rw [Nat.div_lt_iff_lt_mul (Nat.two_pow_pos 23)]
    omega
  have hinj : Set.InjOn (fun i => L.addr 0 i / 2 ^ 23) (Finset.range count : Set ℕ) := by
    intro i hi j hj heq
    rw [Finset.mem_coe, Finset.mem_range] at hi hj
    by_contra hne
    have h₁ := hL.len_ge i hi
    have h₂ := hL.len_ge j hj
    simp only at heq
    rcases hL.apart 0 i hi j hj hne with h | h <;> omega
  have hcard := Finset.card_le_card_of_injOn _ hmaps hinj
  rwa [Finset.card_range, Finset.card_range] at hcard

lemma Lawful.toUInt32_of_lt (hL : L.Lawful count) (hi : i < count) : toUInt32 i = i := by
  have := hL.count_le
  exact PmemKv.toUInt32_of_lt (by omega)

/-! ## Objects -/

/-- Two objects do not overlap. -/
def Apart (o o' : Obj) : Prop :=
  o.pool = o'.pool → o.off + o.size ≤ o'.off ∨ o'.off + o'.size ≤ o.off

lemma Apart.symm (h : Apart o o') : Apart o' o := fun hp => (h hp.symm).symm

instance : Std.Symm Apart := ⟨fun _ _ h => h.symm⟩

/-- An object is inside its pool, and is not empty. -/
structure Inside (L : Libraries) (count : ℕ) (o : Obj) : Prop where
  /-- The pool is there. -/
  pool_lt : o.pool < count
  /-- The object is inside. -/
  le : o.off + o.size ≤ L.len o.pool
  /-- It has a header. -/
  pos : 0 < o.size

/-- The objects in the pools do not overlap. -/
structure Objects (L : Libraries) (count : ℕ) (objects : List Obj) : Prop where
  /-- Every object is inside its pool. -/
  inside : ∀ o ∈ objects, Inside L count o
  /-- Any two are apart. -/
  apart : objects.Pairwise Apart

/-- The address of an object, when the pools are open for the `e`-th time. -/
def objAddr (L : Libraries) (e : ℕ) (o : Obj) : ℕ := L.addr e o.pool + o.off

/-- Objects that do not overlap are apart in memory. -/
lemma Lawful.objAddr_apart (hL : L.Lawful count) (e : ℕ) (ho : Inside L count o)
    (ho' : Inside L count o') (h : Apart o o') :
    objAddr L e o + o.size ≤ objAddr L e o' ∨ objAddr L e o' + o'.size ≤ objAddr L e o := by
  unfold objAddr
  by_cases hp : o.pool = o'.pool
  · rcases h hp with h | h
    · left
      rw [hp]
      omega
    · right
      rw [hp]
      omega
  · have h₁ := ho.le
    have h₂ := ho'.le
    rcases hL.apart e o.pool ho.pool_lt o'.pool ho'.pool_lt hp with h | h
    · left
      omega
    · right
      omega

/-- An object is determined by its pool and its offset. -/
lemma Objects.eq_of_off {objects : List Obj} (h : Objects L count objects) (ho : o ∈ objects)
    (ho' : o' ∈ objects) (hp : o.pool = o'.pool) (hoff : o.off = o'.off) : o = o' := by
  by_contra hne
  have hapart : Apart o o' := h.apart.forall ho ho' hne
  have h₁ := (h.inside o ho).pos
  have h₂ := (h.inside o' ho').pos
  rcases hapart hp with h | h <;> omega

/-! ## Reserving -/

/-- `ReservePmem` takes the first pool that finds room. -/
lemma reserveLoop_some {size : ℕ} (hi : i < count) (hs : s.poolCount = count) {off : ℕ}
    (h : L.reserveLoop size n i s = (some (j, off), s')) :
    j < count ∧ ∃ t, L.reserve t s.objects j size = some off ∧
      s' = { s with objects := ⟨j, off, size, false⟩ :: s.objects, reserves := t + 1 } := by
  induction n generalizing i s with
  | zero => cases h
  | succ n ih =>
    unfold reserveLoop at h
    cases hres : L.reserve s.reserves s.objects i size with
    | some o =>
      rw [hres] at h
      cases h
      exact ⟨hi, s.reserves, hres, rfl⟩
    | none =>
      rw [hres] at h
      have hnext : (if s.poolCount ≤ i + 1 then 0 else i + 1) < count := by
        split <;> omega
      exact ih (s := { s with reserves := s.reserves + 1 }) hnext hs h

/-- When no pool finds room, the flag is cleared. -/
lemma reserveLoop_none {size : ℕ} (h : L.reserveLoop size n i s = (none, s')) :
    ∃ t, s' = { s with dcpmmIsAvail := false, reserves := t } := by
  induction n generalizing i s with
  | zero =>
    cases h
    exact ⟨s.reserves, rfl⟩
  | succ n ih =>
    unfold reserveLoop at h
    cases hres : L.reserve s.reserves s.objects i size with
    | some o =>
      rw [hres] at h
      cases h
    | none =>
      rw [hres] at h
      exact ih (s := { s with reserves := s.reserves + 1 }) h

/-- The loop finds a pool exactly if one of the next `n` pools finds room. -/
lemma reserveLoop_isSome_iff (size : ℕ) (hi : i < s.poolCount) :
    (L.reserveLoop size n i s).1.isSome = true ↔
      ∃ k < n, (L.reserve (s.reserves + k) s.objects ((i + k) % s.poolCount) size).isSome =
        true := by
  induction n generalizing i s with
  | zero =>
    constructor
    · intro h
      cases h
    · rintro ⟨k, hk, -⟩
      exact absurd hk (Nat.not_lt_zero k)
  | succ n ih =>
    have hmod : (i + 0) % s.poolCount = i := Nat.mod_eq_of_lt hi
    unfold reserveLoop
    cases hres : L.reserve s.reserves s.objects i size with
    | some off =>
      refine ⟨fun _ => ⟨0, Nat.succ_pos n, ?_⟩, fun _ => rfl⟩
      rw [hmod, Nat.add_zero, hres]
      rfl
    | none =>
      have hnext : (if s.poolCount ≤ i + 1 then 0 else i + 1) < s.poolCount := by
        split <;> omega
      -- the pool after `i`, counted from `i` and from its successor
      have hshift : ∀ k, ((if s.poolCount ≤ i + 1 then 0 else i + 1) + k) % s.poolCount =
          (i + (k + 1)) % s.poolCount := by
        intro k
        split
        · have heq : i + (k + 1) = s.poolCount + k := by omega
          rw [heq, Nat.add_mod_left, Nat.zero_add]
        · rw [Nat.add_right_comm, Nat.add_assoc]
      simp only
      rw [ih (s := { s with reserves := s.reserves + 1 }) hnext]
      simp only [hshift]
      constructor
      · rintro ⟨k, hk, hsome⟩
        refine ⟨k + 1, Nat.succ_lt_succ hk, ?_⟩
        rwa [Nat.add_right_comm] at hsome
      · rintro ⟨_ | k, hk, hsome⟩
        · rw [hmod, Nat.add_zero, hres] at hsome
          cases hsome
        · refine ⟨k, Nat.lt_of_succ_lt_succ hk, ?_⟩
          rwa [Nat.add_right_comm]

/-- `ReservePmem` succeeds exactly if some pool finds room when it comes to it. -/
lemma reservePmem_isSome_iff (size : ℕ) (hpos : 0 < s.poolCount) :
    (L.reservePmem size s).1.isSome = true ↔ ∃ k < s.poolCount,
      (L.reserve (s.reserves + k) s.objects ((s.nextPoolIndex + k) % s.poolCount) size).isSome =
        true := by
  have hiff := reserveLoop_isSome_iff (L := L) (n := s.poolCount)
    (s := { s with nextPoolIndex := toUInt64 (s.nextPoolIndex + 1) }) size
    (Nat.mod_lt s.nextPoolIndex hpos)
  simp only [Nat.mod_add_mod] at hiff
  exact hiff

/-- The objects with a new one. -/
lemma Objects.cons {objects : List Obj} (hL : L.Lawful count) (h : Objects L count objects)
    (hj : j < count) {t size off : ℕ} (hsize : 0 < size)
    (hres : L.reserve t objects j size = some off) :
    Objects L count (⟨j, off, size, false⟩ :: objects) := by
  constructor
  · intro o ho
    rcases List.mem_cons.mp ho with rfl | ho
    · exact ⟨hj, hL.reserve_le t objects j size off hres, hsize⟩
    · exact h.inside o ho
  · refine List.Pairwise.cons (fun o ho hp => ?_) h.apart
    exact hL.reserve_apart t objects j size off hres o ho hp.symm

/-! ## Opening -/

/-- The pools that `KVSOpen` finds. -/
lemma openLoop_some {t poolSize : ℕ} {pools pools' : ℕ → Pool}
    (h : L.openLoop t e poolSize n i pools = some pools') :
    ∀ j, pools' j = if i ≤ j ∧ j < i + n then ⟨L.uuidLo j, L.addr e j⟩ else pools j := by
  induction n generalizing i pools with
  | zero =>
    cases h
    intro j
    rw [if_neg (by omega)]
  | succ n ih =>
    unfold openLoop at h
    split at h
    · intro j
      rw [ih h j]
      by_cases hj : i + 1 ≤ j ∧ j < i + 1 + n
      · rw [if_pos hj, if_pos (by omega)]
      · rw [if_neg hj, Function.update_apply]
        by_cases hij : j = i
        · rw [if_pos hij, if_pos (by omega), hij]
        · rw [if_neg hij, if_neg (by omega)]
    · cases h

/-! ## Publishing -/

/-- An object that is published if the condition holds. -/
def publishIf (c : Prop) [Decidable c] (o : Obj) : Obj :=
  if c then { o with published := true } else o

section publishIf

variable (c c' : Prop) [Decidable c] [Decidable c'] (o : Obj)

@[simp] lemma publishIf_pool : (publishIf c o).pool = o.pool := by
  unfold publishIf
  split <;> rfl

@[simp] lemma publishIf_off : (publishIf c o).off = o.off := by
  unfold publishIf
  split <;> rfl

@[simp] lemma publishIf_size : (publishIf c o).size = o.size := by
  unfold publishIf
  split <;> rfl

/-- Publishing twice. -/
lemma publishIf_publishIf : publishIf c' (publishIf c o) = publishIf (c ∨ c') o := by
  unfold publishIf
  by_cases hc : c
  · by_cases hc' : c'
    · simp [hc, hc']
    · simp [hc, hc']
  · simp [hc]

end publishIf

lemma publishIf_congr {c c' : Prop} [Decidable c] [Decidable c'] (h : c ↔ c') (o : Obj) :
    publishIf c o = publishIf c' o := by
  unfold publishIf
  by_cases hc : c
  · rw [if_pos hc, if_pos (h.mp hc)]
  · rw [if_neg hc, if_neg fun hc' => hc (h.mpr hc')]

lemma publishIf_of_not {c : Prop} [Decidable c] (h : ¬c) (o : Obj) : publishIf c o = o := if_neg h

/-- The pool `i` and the `n` pools behind it. -/
lemma or_range_iff {P : ℕ → Prop} {k : ℕ} :
    (k = i ∧ P i ∨ (i + 1 ≤ k ∧ k < i + 1 + n) ∧ P k) ↔ (i ≤ k ∧ k < i + (n + 1)) ∧ P k := by
  constructor
  · rintro (⟨rfl, h⟩ | ⟨h₁, h₂⟩)
    · exact ⟨by omega, h⟩
    · exact ⟨by omega, h₂⟩
  · rintro ⟨h₁, h₂⟩
    by_cases hk : k = i
    · exact Or.inl ⟨hk, hk ▸ h₂⟩
    · exact Or.inr ⟨by omega, h₂⟩

lemma pmemobjPublish_eq (i : ℕ) (offs : List ℕ) (objects : List Obj) :
    pmemobjPublish i offs objects = objects.map fun o => publishIf (o.pool = i ∧ o.off ∈ offs) o :=
  rfl

/-- Publishing in two steps. -/
lemma pmemobjPublish_append (i : ℕ) (offs offs' : List ℕ) (objects : List Obj) :
    pmemobjPublish i offs' (pmemobjPublish i offs objects) =
      pmemobjPublish i (offs ++ offs') objects := by
  rw [pmemobjPublish_eq, pmemobjPublish_eq, pmemobjPublish_eq, List.map_map]
  apply List.map_congr_left
  intro o _
  simp only [Function.comp_apply, publishIf_publishIf, publishIf_pool, publishIf_off]
  apply publishIf_congr
  rw [List.mem_append, ← and_or_left]

/-- Publishing some of the reservations at a time publishes all. -/
lemma publishLoop_eq (i : ℕ) (offs : List ℕ) (fuel : ℕ) (hfuel : offs.length < fuel)
    (objects : List Obj) :
    publishLoop i fuel offs objects = .ok (pmemobjPublish i offs objects) := by
  induction fuel generalizing offs objects with
  | zero => exact absurd hfuel (Nat.not_lt_zero _)
  | succ fuel ih =>
    unfold publishLoop
    split
    · next hnil =>
      rw [List.length_eq_zero_iff.mp hnil]
      unfold pmemobjPublish
      simp
    · next hne =>
      simp only
      rw [ih _ (by rw [List.length_drop]; omega), pmemobjPublish_append, List.take_append_drop]

/-- The loop over the pools publishes the reservations in these pools. -/
lemma publishPools_eq (pacts : List PobjAction) (n i : ℕ) (objects : List Obj) :
    publishPools pacts n i objects = .ok (objects.map fun o =>
      publishIf ((i ≤ o.pool ∧ o.pool < i + n) ∧ ⟨o.off, o.pool⟩ ∈ pacts) o) := by
  induction n generalizing i objects with
  | zero =>
    have hid : (objects.map fun o =>
        publishIf ((i ≤ o.pool ∧ o.pool < i + 0) ∧ ⟨o.off, o.pool⟩ ∈ pacts) o) =
          objects.map id := by
      apply List.map_congr_left
      intro o _
      exact publishIf_of_not (by omega) o
    rw [hid, List.map_id]
    rfl
  | succ n ih =>
    have hmem : ∀ off, off ∈ (pacts.filter fun pact => pact.poolIndex = i).map
        (fun pact => pact.off) ↔
        ⟨off, i⟩ ∈ pacts := by
      intro off
      rw [List.mem_map]
      constructor
      · rintro ⟨pact, hpact, rfl⟩
        obtain ⟨hpact, hi⟩ := List.mem_filter.mp hpact
        rwa [← of_decide_eq_true hi]
      · intro h
        exact ⟨⟨off, i⟩, List.mem_filter.mpr ⟨h, decide_eq_true rfl⟩, rfl⟩
    unfold publishPools
    simp only [bind, Except.bind]
    rw [publishLoop_eq _ _ _ (Nat.lt_succ_self _)]
    simp only
    rw [ih, pmemobjPublish_eq, List.map_map]
    congr 1
    apply List.map_congr_left
    intro o _
    simp only [Function.comp_apply, publishIf_publishIf, publishIf_pool, publishIf_off, hmem]
    exact publishIf_congr (or_range_iff (P := fun k => (⟨o.off, k⟩ : PobjAction) ∈ pacts)) o

end Libraries

end PmemKv
