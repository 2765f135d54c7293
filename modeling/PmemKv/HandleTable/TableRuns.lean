import PmemKv.HandleTable.TableSpec

/-!
# Runs of the handle table

A table is constructed and then used by any sequence of calls.  An inserted handle is filled in
first; between two calls the list of the LRU cache that a handle is on may store other handles in
its field `next`.  The calls return what the operations of a finite map from pairs of hash and key
to handles return, and every state that is reached is well formed.
-/

namespace PmemKv

open LinkedChain Buckets

/-- A call of the table, or a change of a handle that the table takes no notice of. -/
inductive TableOp (H : Type) : Type
  /-- `Insert(h)`, after the fields of `h` were filled in. -/
  | insert (h : H) (record : LRUHandle H)
  /-- `Lookup(key, hash)`. -/
  | lookup (key : Bytes) (hash : UInt32)
  /-- `Remove(key, hash)`. -/
  | remove (key : Bytes) (hash : UInt32)
  /-- `h->next = next`. -/
  | relink (h : H) (next : Option H)

namespace TableState

variable {H : Type} [DecidableEq H]

/-- The table after the handle `h` was filled in. -/
def fill (s : TableState H) (h : H) (record : LRUHandle H) : TableState H :=
  { s with handles := Function.update s.handles h record }

/-- One step, with the handle that is returned. -/
def runOp (fuel : ℕ) (op : TableOp H) (s : TableState H) :
    Except Stop (Option H × TableState H) :=
  match op with
  | .insert h record => (s.fill h record).insert fuel h
  | .lookup key hash => do
    let r ← s.lookup fuel key hash
    pure (r, s)
  | .remove key hash => s.remove fuel key hash
  | .relink h next => pure (none, s.fill h { s.handles h with next := next })

/-- A sequence of steps, with the handles that are returned. -/
def runOps (fuel : ℕ) : List (TableOp H) → TableState H →
    Except Stop (List (Option H) × TableState H)
  | [], s => .ok ([], s)
  | op :: ops, s => do
    let (r, s) ← s.runOp fuel op
    let (rs, s) ← runOps fuel ops s
    pure (r :: rs, s)

/-! ## The finite map -/

/-- What a step does to the map, and what it returns. -/
def specOp (op : TableOp H) (m : HandleMap H) : Option H × HandleMap H :=
  match op with
  | .insert h record =>
    (m.lookup (record.hash, record.keyData), m.insert (record.hash, record.keyData) h)
  | .lookup key hash => (m.lookup (hash, key), m)
  | .remove key hash => (m.lookup (hash, key), m.erase (hash, key))
  | .relink _ _ => (none, m)

/-- What a sequence of steps does to the map, and what it returns. -/
def specOps : List (TableOp H) → HandleMap H → List (Option H) × HandleMap H
  | [], m => ([], m)
  | op :: ops, m =>
    let (r, m) := specOp op m
    let (rs, m) := specOps ops m
    (r :: rs, m)

/-- An inserted handle is not in the table, and there is room for it; no handle is its own `next`,
which only the dummy of an empty LRU list is. -/
def Admits (m : HandleMap H) : TableOp H → Prop
  | .insert h record => (∀ p ∈ m.keys, m.lookup p ≠ some h) ∧ record.next ≠ some h ∧
      (m.insert (record.hash, record.keyData) h).keys.card ≤ 2 ^ 31
  | .relink h next => next ≠ some h
  | _ => True

/-- Every step is admissible when it is taken. -/
def Admissible : HandleMap H → List (TableOp H) → Prop
  | _, [] => True
  | m, op :: ops => Admits m op ∧ Admissible (specOp op m).2 ops

instance (m : HandleMap H) (op : TableOp H) : Decidable (Admits m op) := by
  cases op <;> unfold Admits <;> infer_instance

instance decidableAdmissible :
    (m : HandleMap H) → (ops : List (TableOp H)) → Decidable (Admissible m ops)
  | _, [] => instDecidableTrue
  | m, op :: ops => @instDecidableAnd _ _ _ (decidableAdmissible (specOp op m).2 ops)

/-- A table that is in order and stands for the map. -/
structure WellFormed (s : TableState H) (m : HandleMap H) : Prop where
  /-- `length_` is a power of two and at least `4`. -/
  length_eq : ∃ k, 2 ≤ k ∧ s.length = 2 ^ k
  /-- `elems_` is the number of stored pairs. -/
  elems_eq : s.elems = m.keys.card
  /-- There are at least as many buckets as handles. -/
  elems_le : s.elems ≤ s.length
  /-- The chains end and have no cycles; the handle of a pair is once in the bucket of its hash and
  in no other, and there are no other handles. -/
  chains : ∃ chain : ℕ → List H,
    (∀ i < s.length, s.Chain i (chain i) ∧ (chain i).Nodup) ∧
    (∀ p h, m.lookup p = some h → s.pair h = p ∧ ∀ i < s.length,
      (chain i).count h = if i = bucketIndex (s.handles h).hash s.length then 1 else 0) ∧
    ∀ i < s.length, ∀ h ∈ chain i, m.lookup (s.pair h) = some h

variable {s : TableState H} {m : HandleMap H} {h : H}

theorem Represents.wellFormed (hm : s.Represents m) : s.WellFormed m := by
  obtain ⟨chain, hI, hle, hmap⟩ := hm
  constructor
  · obtain ⟨k, hk, -, hlen⟩ := hI.length_eq
    exact ⟨k, hk, hlen⟩
  · exact (card_keys hI hmap).symm
  · exact hle
  · refine ⟨chain, fun i hi => ⟨hI.layout.linked i hi, hI.layout.chain_nodup hi⟩, ?_, ?_⟩
    · intro p h hlook
      obtain ⟨hflat, hpair⟩ := (hmap p h).mp hlook
      refine ⟨hpair, fun i hi => ?_⟩
      obtain ⟨j, hj, hmem⟩ := mem_flat.mp hflat
      rw [hI.layout.index j hj h hmem]
      split
      · next heq =>
        subst heq
        exact List.count_eq_one_of_mem (hI.layout.chain_nodup hi) hmem
      · next hne =>
        apply List.count_eq_zero_of_not_mem
        intro hmem'
        exact hne (hI.layout.index_unique hi hj hmem' hmem)
    · intro i hi h hmem
      exact (hmap _ h).mpr ⟨mem_flat.mpr ⟨i, hi, hmem⟩, rfl⟩

/-! ## One step -/

omit [DecidableEq H] in
/-- The table stands for the same map when handles change that it does not hold, or fields that it
does not use. -/
lemma Represents.congr {s' : TableState H} (hm : s.Represents m) (hlist : s'.list = s.list)
    (hlength : s'.length = s.length) (helems : s'.elems = s.elems)
    (hnext : ∀ p h, m.lookup p = some h → (s'.handles h).next ≠ some h)
    (hsame : ∀ p h, m.lookup p = some h →
      s'.pair h = s.pair h ∧ (s'.handles h).nextHash = (s.handles h).nextHash) :
    s'.Represents m := by
  obtain ⟨chain, hI, hle, hmap⟩ := hm
  have hlook : ∀ h ∈ flat chain s.length, m.lookup (s.pair h) = some h :=
    fun h hh => (hmap _ h).mpr ⟨hh, rfl⟩
  have hpair : ∀ h ∈ flat chain s.length, s'.pair h = s.pair h :=
    fun h hh => (hsame _ h (hlook h hh)).1
  refine ⟨chain, ?_, by rw [helems, hlength]; exact hle, ?_⟩
  · constructor
    · rw [hlength]
      exact hI.length_eq
    · rw [hlength]
      constructor
      · intro i hi
        refine (hI.layout.linked i hi).congr fun c hc => ?_
        cases c with
        | bucket j =>
          unfold nextCell get
          rw [hlist]
        | nextHash g =>
          have hg : g ∈ chain i := by simpa using hc
          exact congrArg _ (hsame _ g (hlook g (mem_flat.mpr ⟨i, hi, hg⟩))).2
      · intro i hi h hh
        have hp := hpair h (mem_flat.mpr ⟨i, hi, hh⟩)
        rw [show (s'.handles h).hash = (s.handles h).hash from (Prod.mk.inj hp).1]
        exact hI.layout.index i hi h hh
      · exact hI.layout.nodup
    · intro g hg h hh he
      rw [hlength] at hg hh
      rw [hpair g hg, hpair h hh] at he
      exact hI.distinct g hg h hh he
    · intro h hh
      rw [hlength] at hh
      exact hnext _ h (hlook h hh)
    · rw [helems, hlength]
      exact hI.elems_eq
  · intro p h
    rw [hmap p h, hlength]
    constructor
    · rintro ⟨hh, hp⟩
      exact ⟨hh, (hpair h hh).trans hp⟩
    · rintro ⟨hh, hp⟩
      exact ⟨hh, (hpair h hh).symm.trans hp⟩

/-- A handle that is not in the table may be filled in. -/
lemma Represents.fill_new (hm : s.Represents m) (hh : ∀ p, m.lookup p ≠ some h)
    (record : LRUHandle H) : (s.fill h record).Represents m := by
  have hne : ∀ p g, m.lookup p = some g → (s.fill h record).handles g = s.handles g := by
    intro p g hg
    apply Function.update_of_ne
    rintro rfl
    exact hh p hg
  refine hm.congr rfl rfl rfl ?_ ?_
  · intro p g hg
    rw [hne p g hg]
    obtain ⟨chain, hI, -, hmap⟩ := hm
    exact hI.next_ne g ((hmap p g).mp hg).1
  · intro p g hg
    rw [pair, pair, hne p g hg]
    exact ⟨rfl, rfl⟩

/-- The field `next` may change. -/
lemma Represents.fill_next (hm : s.Represents m) {next : Option H} (hnext : next ≠ some h) :
    (s.fill h { s.handles h with next := next }).Represents m := by
  refine hm.congr rfl rfl rfl ?_ ?_
  · intro p g hg
    by_cases hgh : g = h
    · subst hgh
      simpa [fill] using hnext
    · obtain ⟨chain, hI, -, hmap⟩ := hm
      simpa [fill, hgh] using hI.next_ne g ((hmap p g).mp hg).1
  · intro p g hg
    by_cases hgh : g = h
    · subst hgh
      simp [fill, pair]
    · simp [fill, pair, hgh]

omit [DecidableEq H] in
/-- A step adds at most one pair, and admissible steps keep the bound. -/
lemma card_specOp (op : TableOp H) (hop : Admits m op) (hm : m.keys.card ≤ 2 ^ 31) :
    (specOp op m).2.keys.card ≤ m.keys.card + 1 ∧ (specOp op m).2.keys.card ≤ 2 ^ 31 := by
  cases op with
  | insert h record =>
    have := card_insert m (record.hash, record.keyData) h
    exact ⟨by change (m.insert _ h).keys.card ≤ _; omega, hop.2.2⟩
  | lookup key hash => exact ⟨Nat.le_succ _, hm⟩
  | remove key hash =>
    have hsub : (m.erase (hash, key)).keys ⊆ m.keys := by
      intro p hp
      rw [Finmap.mem_keys, Finmap.mem_erase] at hp
      exact Finmap.mem_keys.mpr hp.2
    have hle := Finset.card_le_card hsub
    exact ⟨le_trans hle (Nat.le_succ _), le_trans hle hm⟩
  | relink h next => exact ⟨Nat.le_succ _, hm⟩

/-- **One step** returns what the map returns, and the table stands for the new map. -/
theorem runOp_spec {op : TableOp H} (hm : s.Represents m) (hop : Admits m op)
    (hcard : m.keys.card ≤ 2 ^ 31) (fuel : ℕ) (hfuel : m.keys.card + 33 < fuel) :
    ∃ s', s.runOp fuel op = .ok ((specOp op m).1, s') ∧ s'.Represents (specOp op m).2 := by
  have helems : s.elems = m.keys.card := hm.wellFormed.elems_eq
  cases op with
  | insert h record =>
    obtain ⟨hnew, hnext, hroom⟩ := hop
    have hh : ∀ p, m.lookup p ≠ some h := by
      intro p hp
      exact hnew p (Finmap.mem_keys.mpr (Finmap.mem_of_lookup_eq_some hp)) hp
    have hrecord : (s.fill h record).handles h = record := Function.update_self _ _ _
    have hpair : (s.fill h record).pair h = (record.hash, record.keyData) := by
      rw [pair, hrecord]
    have hspec := insert_spec (hm.fill_new hh record) hh (by rwa [hrecord])
      (by rwa [hpair]) (by rw [← helems] at hfuel; exact hfuel)
    rwa [hpair] at hspec
  | lookup key hash =>
    refine ⟨s, ?_, hm⟩
    rw [runOp, lookup_spec hm key hash (by omega)]
    rfl
  | remove key hash => exact remove_spec hm key hash hcard (by omega)
  | relink h next => exact ⟨_, rfl, hm.fill_next hop⟩

/-! ## Runs -/

/-- A run from a table that stands for `m`. -/
theorem runOps_spec {ops : List (TableOp H)} (hm : s.Represents m) (hops : Admissible m ops)
    (hcard : m.keys.card ≤ 2 ^ 31) (fuel : ℕ) (hfuel : m.keys.card + ops.length + 33 < fuel) :
    ∃ s', runOps fuel ops s = .ok ((specOps ops m).1, s') ∧ s'.Represents (specOps ops m).2 := by
  induction ops generalizing s m with
  | nil => exact ⟨s, rfl, hm⟩
  | cons op ops ih =>
    obtain ⟨hop, hops⟩ := hops
    rw [List.length_cons] at hfuel
    obtain ⟨s₁, hrun₁, hm₁⟩ := runOp_spec hm hop hcard fuel (by omega)
    obtain ⟨hcard₁, hcard₂⟩ := card_specOp op hop hcard
    obtain ⟨s₂, hrun₂, hm₂⟩ := ih hm₁ hops hcard₂ (by omega)
    refine ⟨s₂, ?_, hm₂⟩
    rw [runOps, hrun₁]
    simp only [bind, Except.bind]
    rw [hrun₂]
    rfl

/-- **The handle table is a finite map.**  Whatever sequence of admissible calls is made on a new
table, no assertion fails and no loop runs on forever, the calls return what the operations of the
map return, and the table that is reached is well formed. -/
theorem table_is_map (handles : H → LRUHandle H) (ops : List (TableOp H))
    (hops : Admissible ∅ ops) (fuel : ℕ) (hfuel : ops.length + 33 < fuel) :
    ∃ s₀ s, construct fuel handles = .ok s₀ ∧ s₀.WellFormed ∅ ∧
      runOps fuel ops s₀ = .ok ((specOps ops ∅).1, s) ∧ s.WellFormed (specOps ops ∅).2 := by
  obtain ⟨s₀, hconstruct, hm₀⟩ := construct_spec handles fuel (by omega)
  have hcard : (∅ : HandleMap H).keys.card = 0 := rfl
  obtain ⟨s, hrun, hm⟩ := runOps_spec hm₀ hops (by rw [hcard]; omega) fuel
    (by rw [hcard]; omega)
  exact ⟨s₀, s, hconstruct, hm₀.wellFormed, hrun, hm.wellFormed⟩

/-- Two keys with the same hash, a handle that is displaced and used again, and enough handles for
the table to grow. -/
def sampleOps : List (TableOp ℕ) :=
  [.insert 0 ⟨[1], 5, some 7, none⟩, .insert 1 ⟨[2], 5, none, some 0⟩, .lookup [1] 5,
    .insert 2 ⟨[1], 5, none, none⟩, .insert 0 ⟨[3], 1, some 1, none⟩, .relink 2 (some 1),
    .insert 3 ⟨[], 9, none, none⟩, .insert 4 ⟨[4], 5, none, none⟩, .lookup [1] 5, .remove [2] 5,
    .lookup [2] 5, .remove [2] 5]

theorem sampleOps_table_is_map :
    ∃ s₀ s, construct 50 (fun _ : ℕ => ⟨[], 0, none, none⟩) = .ok s₀ ∧ s₀.WellFormed ∅ ∧
      runOps 50 sampleOps s₀ = .ok
        ([none, none, some 0, some 0, none, none, none, none, some 2, some 1, none, none], s) ∧
      s.WellFormed (specOps sampleOps ∅).2 :=
  table_is_map (fun _ => ⟨[], 0, none, none⟩) sampleOps (by decide) 50 (by decide)

end TableState

end PmemKv
