import PmemKv.HandleTable.Resizing
import PmemKv.HandleTable.TableRuns
import Mathlib.Data.Nat.Log

/-!
# The growth of the handle table

`Insert` calls `Resize` when there are more handles than buckets, and `Resize` links every handle
again.  Here a run is written with the list of the handles that are linked so.

A table that grows doubles its length, and no call makes it shorter.  So the length is determined by
the largest number of handles that the table has held, and so is the number of handles that all the
calls of `Resize` together have linked: it is less than three times that number, however long the
run.
-/

namespace PmemKv

open LinkedChain Buckets

namespace TableState

variable {H : Type} [DecidableEq H]

/-- `Insert`, with the handles that its call of `Resize` links. -/
def insertRelinking (s : TableState H) (fuel : ℕ) (h : H) :
    Except Stop (List H × Option H × TableState H) := do
  let k ← s.key h
  let ptr ← s.findPointer fuel k (s.handles h).hash
  let old ← s.load ptr
  let s := s.set (.nextHash h) (old.bind fun o => (s.handles o).nextHash)
  let s ← s.store ptr (some h)
  if old = none then
    let s := { s with elems := toUInt32 (s.elems + 1) }
    if s.length < s.elems then do
      let (linked, s) ← s.resizeRelinking fuel
      pure (linked, old, s)
    else pure ([], old, s)
  else pure ([], old, s)

/-- One step, with the handles that are linked again. -/
def runOpRelinking (fuel : ℕ) (op : TableOp H) (s : TableState H) :
    Except Stop (List H × Option H × TableState H) :=
  match op with
  | .insert h record => (s.fill h record).insertRelinking fuel h
  | op => do
    let (r, s) ← s.runOp fuel op
    pure ([], r, s)

/-- A sequence of steps, with the handles that are linked again. -/
def runOpsRelinking (fuel : ℕ) :
    List (TableOp H) → TableState H → Except Stop (List H × List (Option H) × TableState H)
  | [], s => .ok ([], [], s)
  | op :: ops, s => do
    let (linked, r, s) ← s.runOpRelinking fuel op
    let (linked', rs, s) ← runOpsRelinking fuel ops s
    pure (linked ++ linked', r :: rs, s)

/-- The largest number of pairs that the map holds along a sequence of steps. -/
def peak : List (TableOp H) → HandleMap H → ℕ
  | [], m => m.keys.card
  | op :: ops, m => max m.keys.card (peak ops (specOp op m).2)

/-- The number of calls of `Insert`. -/
def insertions : List (TableOp H) → ℕ
  | [] => 0
  | .insert _ _ :: ops => insertions ops + 1
  | _ :: ops => insertions ops

variable {s s' : TableState H} {m : HandleMap H} {h : H} {fuel k k' : ℕ} {linked : List H}
  {ops : List (TableOp H)}

/-! ## The same runs -/

/-- `Insert` is what it was. -/
lemma insertRelinking_snd : (s.insertRelinking fuel h).map Prod.snd = s.insert fuel h := by
  unfold insertRelinking insert
  cases s.key h with
  | error e => rfl
  | ok key =>
    simp only [bind, Except.bind]
    cases s.findPointer fuel key (s.handles h).hash with
    | error e => rfl
    | ok ptr =>
      simp only
      cases s.load ptr with
      | error e => rfl
      | ok old =>
        simp only
        generalize (s.set (.nextHash h) (old.bind fun o => (s.handles o).nextHash)).store ptr
          (some h) = stored
        cases stored with
        | error e => rfl
        | ok s₁ =>
          simp only
          by_cases hold : old = none
          · simp only [if_pos hold]
            by_cases hlt : s₁.length < toUInt32 (s₁.elems + 1)
            · simp only [if_pos hlt]
              rw [← resizeRelinking_snd]
              cases resizeRelinking { s₁ with elems := toUInt32 (s₁.elems + 1) } fuel <;> rfl
            · simp only [if_neg hlt]
              rfl
          · simp only [if_neg hold]
            rfl

/-- A step is what it was. -/
lemma runOpRelinking_snd (op : TableOp H) :
    (s.runOpRelinking fuel op).map Prod.snd = s.runOp fuel op := by
  cases op with
  | insert h record => exact insertRelinking_snd
  | lookup key hash =>
    unfold runOpRelinking
    simp only [bind, Except.bind]
    cases s.runOp fuel (.lookup key hash) <;> rfl
  | remove key hash =>
    unfold runOpRelinking
    simp only [bind, Except.bind]
    cases s.runOp fuel (.remove key hash) <;> rfl
  | relink g next => rfl

/-- A run is what it was. -/
lemma runOpsRelinking_snd (ops : List (TableOp H)) :
    (runOpsRelinking fuel ops s).map Prod.snd = runOps fuel ops s := by
  induction ops generalizing s with
  | nil => rfl
  | cons op ops ih =>
    unfold runOpsRelinking runOps
    rw [← runOpRelinking_snd]
    cases s.runOpRelinking fuel op with
    | error e => rfl
    | ok out =>
      simp only [bind, Except.bind, Except.map]
      rw [← ih]
      cases runOpsRelinking fuel ops out.2.2 <;> rfl

/-! ## One call of `Resize` -/

/-- One handle more than a power of two is room for the next one. -/
lemma newLength_succ {j : ℕ} (hj : j ≤ k + 1) (hk : k ≤ 30) (hfuel : k + 1 - j < fuel) :
    newLength (2 ^ k + 1) fuel (2 ^ j) = .ok (2 ^ (k + 1)) := by
  induction fuel generalizing j with
  | zero => exact absurd hfuel (Nat.not_lt_zero _)
  | succ fuel ih =>
    have hpos : 0 < 2 ^ k := Nat.two_pow_pos k
    have hdouble : 2 ^ (k + 1) = 2 ^ k * 2 := Nat.pow_succ _ _
    rw [newLength]
    rcases Nat.lt_or_eq_of_le hj with hlt | rfl
    · have hle : 2 ^ j ≤ 2 ^ k := Nat.pow_le_pow_right (by decide) (by omega)
      have hmax : 2 ^ (j + 1) ≤ 2 ^ 31 := Nat.pow_le_pow_right (by decide) (by omega)
      have hnext : toUInt32 (2 ^ j * 2) = 2 ^ (j + 1) := by
        rw [← Nat.pow_succ, toUInt32, Nat.mod_eq_of_lt (by omega)]
      rw [if_pos (by omega), hnext]
      exact ih (by omega) (by omega)
    · rw [if_neg (by omega)]

/-- The length that `Resize` leaves. -/
lemma length_of_resizeRelinking (hrun : s.resizeRelinking fuel = .ok (linked, s')) :
    newLength s.elems fuel 4 = .ok s'.length := by
  obtain ⟨n, hn, hrun⟩ := bind_eq_ok.mp hrun
  obtain ⟨⟨linked', r⟩, -, hrun⟩ := bind_eq_ok.mp hrun
  by_cases hcount : s.elems = r.count
  · simp only [if_pos hcount] at hrun
    cases hrun
    exact hn
  · simp only [if_neg hcount] at hrun
    cases hrun

/-- The run of `Insert`, statement by statement. -/
lemma of_insertRelinking {r : Option H} (hrun : s.insertRelinking fuel h = .ok (linked, r, s')) :
    ∃ key ptr s₁, s.key h = .ok key ∧ s.findPointer fuel key (s.handles h).hash = .ok ptr ∧
      s.load ptr = .ok r ∧
      (s.set (.nextHash h) (r.bind fun o => (s.handles o).nextHash)).store ptr (some h) = .ok s₁ ∧
      (linked = [] ∧ s'.length = s₁.length ∨ r = none ∧ s₁.length < toUInt32 (s₁.elems + 1) ∧
        resizeRelinking { s₁ with elems := toUInt32 (s₁.elems + 1) } fuel = .ok (linked, s')) := by
  obtain ⟨key, hkey, hrun⟩ := bind_eq_ok.mp hrun
  obtain ⟨ptr, hptr, hrun⟩ := bind_eq_ok.mp hrun
  obtain ⟨old, hload, hrun⟩ := bind_eq_ok.mp hrun
  obtain ⟨s₁, hstore, hrun⟩ := bind_eq_ok.mp hrun
  by_cases hold : old = none
  · simp only [if_pos hold] at hrun
    by_cases hlt : s₁.length < toUInt32 (s₁.elems + 1)
    · simp only [if_pos hlt] at hrun
      obtain ⟨⟨linked', s₂⟩, hresize, hrun⟩ := bind_eq_ok.mp hrun
      cases hrun
      exact ⟨key, ptr, s₁, hkey, hptr, hload, hstore, Or.inr ⟨hold, hlt, hresize⟩⟩
    · simp only [if_neg hlt] at hrun
      cases hrun
      exact ⟨key, ptr, s₁, hkey, hptr, hload, hstore, Or.inl ⟨rfl, rfl⟩⟩
  · simp only [if_neg hold] at hrun
    cases hrun
    exact ⟨key, ptr, _, hkey, hptr, hload, hstore, Or.inl ⟨rfl, rfl⟩⟩

/-- What a call of `Insert` does to the length: it stays, and nothing is linked again, or it
doubles, and the handles are linked again, one more than there were buckets. -/
inductive Grows (s s' : TableState H) (linked : List H) : Prop
  /-- There is room. -/
  | stays (hlength : s'.length = s.length) (hlinked : linked = [])
  /-- There is none. -/
  | doubles (hlength : s'.length = 2 * s.length) (helems : s'.elems = s.length + 1)
    (hlinked : linked.length = s.length + 1) (hnodup : linked.Nodup)

/-- A call of `Insert` that calls `Resize` finds as many handles as buckets. -/
lemma grows_of_resizeRelinking {s₁ : TableState H} {chain : ℕ → List H} {e : ℕ}
    {chain' : ℕ → List H} (hI : s.TableInv chain) (hle : s.elems ≤ s.length) (he : e = s.elems + 1)
    (hmax : e ≤ 2 ^ 31)
    (hI' : TableInv { s₁ with elems := e } chain') (hlt : s.length < e) (hfuel : 33 < fuel)
    (hresize : resizeRelinking { s₁ with elems := e } fuel = .ok (linked, s'))
    (helems : s'.elems = e) : Grows s s' linked := by
  obtain ⟨k, hk₂, hk, hlength⟩ := hI.length_eq
  have helength : e = 2 ^ k + 1 := by omega
  have hk30 : k ≤ 30 := by
    by_contra hgt
    obtain rfl : k = 31 := by omega
    omega
  have hnew := length_of_resizeRelinking hresize
  rw [show (4 : ℕ) = 2 ^ 2 from rfl] at hnew
  simp only [helength] at hnew
  rw [newLength_succ (by omega) hk30 (by omega)] at hnew
  have hlinked := linked_of_resizeRelinking hI'.layout hresize
  refine .doubles ?_ ?_ ?_ ?_
  · rw [← Except.ok.inj hnew, hlength, Nat.pow_succ, Nat.mul_comm]
  · omega
  · have hcount : e = (flat chain' s₁.length).length := hI'.elems_eq
    rw [hlinked, ← hcount]
    omega
  · rw [hlinked]
    exact hI'.layout.nodup

/-- `Insert`, and what it links again. -/
theorem insertRelinking_spec (hm : s.Represents m) (hh : ∀ p, m.lookup p ≠ some h)
    (hnext : (s.handles h).next ≠ some h) (hcard : (m.insert (s.pair h) h).keys.card ≤ 2 ^ 31)
    (hfuel : s.elems + 33 < fuel) : ∃ linked s',
      s.insertRelinking fuel h = .ok (linked, m.lookup (s.pair h), s') ∧
      s'.Represents (m.insert (s.pair h) h) ∧ Grows s s' linked := by
  obtain ⟨s', hinsert, hm'⟩ := insert_spec hm hh hnext hcard hfuel
  rw [← insertRelinking_snd] at hinsert
  cases hrun : s.insertRelinking fuel h with
  | error e =>
    rw [hrun] at hinsert
    cases hinsert
  | ok out =>
    obtain ⟨linked, r, s''⟩ := out
    rw [hrun] at hinsert
    cases hinsert
    refine ⟨linked, s', rfl, hm', ?_⟩
    obtain ⟨chain, hI, hle, hmap⟩ := hm
    have hb := hI.bucketIndex_lt (s.handles h).hash
    obtain ⟨l₁, l₂, hc, hfind, hl₂⟩ := findPointer_split hI hmap (s.handles h).keyData
      (s.handles h).hash (lt_trans (by omega) hfuel)
    obtain ⟨key, ptr, s₁, hkey, hptr, -, hstore, hcases⟩ := of_insertRelinking hrun
    rw [TableState.key, if_neg hnext] at hkey
    cases hkey
    rw [hfind] at hptr
    cases hptr
    have hset : (s.set (.nextHash h) ((m.lookup (s.pair h)).bind fun o =>
        (s.handles o).nextHash)).length = s.length := (set_length _ _ _).1
    rw [store_lastCell (hset ▸ hb)] at hstore
    cases hstore
    rcases hcases with ⟨rfl, hlength⟩ | ⟨hnone, hlt, hresize⟩
    · exact .stays (hlength.trans ((set_length _ _ _).1.trans hset)) rfl
    · have hnew : h ∉ flat chain s.length := fun hf => hh (s.pair h) ((hmap _ h).mpr ⟨hf, rfl⟩)
      have hcards := card_insert m (s.pair h) h
      rw [card_keys hI hmap] at hcards
      obtain rfl := hl₂ hnone
      obtain ⟨hI', -⟩ := link_spec hI hmap hb hc hnew rfl hnext hcards rfl
      have hlast : ((m.lookup (s.pair h)).bind fun o => (s.handles o).nextHash) =
          ([] : List H).head? := by
        rw [hnone]
        rfl
      have hlen₁ (v : Option H) : ((s.set (.nextHash h) v).set (lastCell
          (bucketIndex (s.handles h).hash s.length) l₁) (some h)).length = s.length :=
        (set_length _ _ _).1.trans (set_length _ _ _).1
      have helems₁ (v : Option H) : ((s.set (.nextHash h) v).set (lastCell
          (bucketIndex (s.handles h).hash s.length) l₁) (some h)).elems = s.elems :=
        (set_length _ _ _).2.trans (set_length _ _ _).2
      have hadd : (m.insert (s.pair h) h).keys.card = s.elems + 1 := by
        rw [hnone] at hcards
        exact hcards
      have hword : toUInt32 (s.elems + 1) = (m.insert (s.pair h) h).keys.card := by
        rw [hadd, toUInt32, Nat.mod_eq_of_lt (by omega)]
      rw [hlast, helems₁, hword] at hresize
      rw [hlen₁, helems₁, hword] at hlt
      exact grows_of_resizeRelinking hI hle hadd hcard hI' hlt (by omega) hresize
        hm'.wellFormed.elems_eq

/-- A store leaves the length. -/
lemma length_of_store {ptr : Cell H} {v : Option H} (hrun : s.store ptr v = .ok s') :
    s'.length = s.length := by
  cases ptr with
  | bucket i =>
    unfold store at hrun
    by_cases hi : i < s.length
    · simp only [if_pos hi] at hrun
      cases hrun
      exact (set_length s (.bucket i) v).1
    · simp only [if_neg hi] at hrun
      cases hrun
  | nextHash g =>
    cases hrun
    exact (set_length s (.nextHash g) v).1

/-- `Remove` leaves the length. -/
lemma length_of_remove {key : Bytes} {hash : UInt32} {r : Option H}
    (hrun : s.remove fuel key hash = .ok (r, s')) : s'.length = s.length := by
  obtain ⟨ptr, -, hrun⟩ := bind_eq_ok.mp hrun
  obtain ⟨o, -, hrun⟩ := bind_eq_ok.mp hrun
  cases o with
  | none =>
    cases hrun
    rfl
  | some g =>
    obtain ⟨s₁, hstore, hrun⟩ := bind_eq_ok.mp hrun
    have hlength : s₁.length = s.length := length_of_store hstore
    cases hrun
    exact hlength

/-- **One step**, and what it links again. -/
theorem runOpRelinking_spec {op : TableOp H} (hm : s.Represents m) (hop : Admits m op)
    (hcard : m.keys.card ≤ 2 ^ 31) (hfuel : m.keys.card + 33 < fuel) : ∃ linked s',
      s.runOpRelinking fuel op = .ok (linked, (specOp op m).1, s') ∧
      s'.Represents (specOp op m).2 ∧ Grows s s' linked := by
  have helems : s.elems = m.keys.card := hm.wellFormed.elems_eq
  cases op with
  | insert h record =>
    obtain ⟨hnew, hnext, hroom⟩ := hop
    have hh : ∀ p, m.lookup p ≠ some h := by
      intro p hp
      exact hnew p (Finmap.mem_keys.mpr (Finmap.mem_of_lookup_eq_some hp)) hp
    have hrecord : (s.fill h record).handles h = record := Function.update_self _ _ _
    have hpair : (s.fill h record).pair h = (record.hash, record.keyData) := by
      rw [pair, hrecord]
    have hspec := insertRelinking_spec (hm.fill_new hh record) hh (by rwa [hrecord])
      (by rwa [hpair]) (by rw [← helems] at hfuel; exact hfuel)
    rw [hpair] at hspec
    obtain ⟨linked, s', hrun, hm', hgrows⟩ := hspec
    refine ⟨linked, s', hrun, hm', ?_⟩
    cases hgrows with
    | stays hlength hlinked => exact .stays hlength hlinked
    | doubles hlength helems hlinked hnodup => exact .doubles hlength helems hlinked hnodup
  | lookup key hash =>
    have hrun : s.runOp fuel (.lookup key hash) = .ok (m.lookup (hash, key), s) := by
      rw [runOp, lookup_spec hm key hash (by omega : s.elems < fuel)]
      rfl
    refine ⟨[], s, ?_, hm, .stays rfl rfl⟩
    unfold runOpRelinking
    simp only [hrun]
    rfl
  | remove key hash =>
    obtain ⟨s', hrun, hm'⟩ := remove_spec hm key hash hcard (by omega : s.elems < fuel)
    refine ⟨[], s', ?_, hm', .stays (length_of_remove hrun) rfl⟩
    unfold runOpRelinking
    simp only [runOp, hrun]
    rfl
  | relink h next => exact ⟨[], _, rfl, hm.fill_next hop, .stays rfl rfl⟩

/-! ## Runs -/

omit [DecidableEq H] in
lemma le_peak (ops : List (TableOp H)) (m : HandleMap H) : m.keys.card ≤ peak ops m := by
  cases ops with
  | nil => exact le_rfl
  | cons op ops => exact le_max_left _ _

/-- How a table grows in a run that starts with `2 ^ k` buckets, ends with `2 ^ k'` of them and
holds up to `p` handles. -/
structure GrowsTo (k k' p : ℕ) (linked : List H) : Prop where
  /-- The table does not shrink. -/
  le : k ≤ k'
  /-- There are at least as many buckets as handles. -/
  le_pow : p ≤ 2 ^ k'
  /-- The table has grown only as far as the handles made it. -/
  pow_lt : k' = k ∨ 2 ^ (k' - 1) < p
  /-- The handles that were linked again. -/
  length_linked : linked.length + 2 ^ k + k = 2 ^ k' + k'
  /-- A handle is linked again when the table grows, and only once. -/
  count_linked : ∀ h, linked.count h + k ≤ k'

/-- Fewer handles before the run do not matter. -/
lemma GrowsTo.max_left {n p : ℕ} (h : GrowsTo k k' p linked) (hn : n ≤ 2 ^ k) :
    GrowsTo k k' (max n p) linked := by
  have hpow : 2 ^ k ≤ 2 ^ k' := Nat.pow_le_pow_right (by decide) h.le
  refine ⟨h.le, max_le (hn.trans hpow) h.le_pow, ?_, h.length_linked, h.count_linked⟩
  exact h.pow_lt.imp_right fun hlt => hlt.trans_le (le_max_right n p)

/-- The table grows before the run. -/
lemma GrowsTo.doubles {linked₁ : List H} {p : ℕ} (h : GrowsTo (k + 1) k' p linked)
    (hp : 2 ^ k < p) (hlinked₁ : linked₁.length = 2 ^ k + 1) (hnodup : linked₁.Nodup) :
    GrowsTo k k' p (linked₁ ++ linked) := by
  refine ⟨Nat.le_of_succ_le h.le, h.le_pow, Or.inr ?_, ?_, fun g => ?_⟩
  · rcases h.pow_lt with rfl | hlt
    · exact hp
    · exact hlt
  · have hlength := h.length_linked
    rw [Nat.pow_succ] at hlength
    rw [List.length_append, hlinked₁]
    omega
  · have hone : linked₁.count g ≤ 1 := List.nodup_iff_count_le_one.mp hnodup g
    have hcount := h.count_linked g
    rw [List.count_append]
    omega

/-- A run from a table that stands for `m`. -/
theorem runOpsRelinking_spec (hm : s.Represents m) (hops : Admissible m ops)
    (hcard : m.keys.card ≤ 2 ^ 31) (hfuel : m.keys.card + ops.length + 33 < fuel)
    (hlength : s.length = 2 ^ k) : ∃ linked s' k',
      runOpsRelinking fuel ops s = .ok (linked, (specOps ops m).1, s') ∧
      s'.Represents (specOps ops m).2 ∧ s'.length = 2 ^ k' ∧ GrowsTo k k' (peak ops m) linked := by
  have hle : m.keys.card ≤ 2 ^ k := by
    rw [← hlength, ← hm.wellFormed.elems_eq]
    exact hm.wellFormed.elems_le
  induction ops generalizing s m k with
  | nil =>
    exact ⟨[], s, k, rfl, hm, hlength, le_rfl, hle, Or.inl rfl, by simp, by simp⟩
  | cons op ops ih =>
    obtain ⟨hop, hops⟩ := hops
    rw [List.length_cons] at hfuel
    obtain ⟨linked₁, s₁, hrun₁, hm₁, hgrows⟩ := runOpRelinking_spec hm hop hcard
      (by omega : m.keys.card + 33 < fuel)
    obtain ⟨hcard₁, hcard₂⟩ := card_specOp op hop hcard
    have helems₁ : s₁.elems = (specOp op m).2.keys.card := hm₁.wellFormed.elems_eq
    have hle₁ := hm₁.wellFormed.elems_le
    have hrunOps : ∀ {linked₂ s₂}, runOpsRelinking fuel ops s₁ =
        .ok (linked₂, (specOps ops (specOp op m).2).1, s₂) →
        runOpsRelinking fuel (op :: ops) s =
          .ok (linked₁ ++ linked₂, (specOps (op :: ops) m).1, s₂) := by
      intro linked₂ s₂ hrun₂
      rw [runOpsRelinking, hrun₁]
      simp only [bind, Except.bind]
      rw [hrun₂]
      rfl
    have hpeak := le_peak ops (specOp op m).2
    cases hgrows with
    | stays hlength₁ hlinked₁ =>
      rw [hlength] at hlength₁
      obtain ⟨linked₂, s₂, k', hrun₂, hm₂, hlength₂, hto⟩ := ih hm₁ hops hcard₂ (by omega) hlength₁
        (by omega)
      subst hlinked₁
      exact ⟨_, s₂, k', hrunOps hrun₂, hm₂, hlength₂, hto.max_left hle⟩
    | doubles hlength₁ hgrown hlinked₁ hnodup =>
      rw [hlength, Nat.mul_comm, ← Nat.pow_succ] at hlength₁
      obtain ⟨linked₂, s₂, k', hrun₂, hm₂, hlength₂, hto⟩ := ih hm₁ hops hcard₂ (by omega) hlength₁
        (by omega)
      have hmore := hto.doubles (by omega) (by omega : linked₁.length = 2 ^ k + 1) hnodup
      exact ⟨_, s₂, k', hrunOps hrun₂, hm₂, hlength₂, hmore.max_left hle⟩

/-! ## The peak -/

/-- The table of the constructor grows to the least power of two that has room for the peak. -/
lemma GrowsTo.eq_clog {p : ℕ} (h : GrowsTo 2 k p linked) : k = Nat.clog 2 (max 4 p) := by
  apply le_antisymm
  · by_contra hlt
    have hle : max 4 p ≤ 2 ^ (k - 1) := (Nat.clog_le_iff_le_pow Nat.one_lt_two).mp (by omega)
    rcases h.pow_lt with rfl | hp
    · exact absurd ((le_max_left 4 p).trans hle) (by decide)
    · exact absurd ((le_max_right 4 p).trans hle) (not_le.mpr hp)
  · rw [Nat.clog_le_iff_le_pow Nat.one_lt_two]
    exact max_le (Nat.pow_le_pow_right Nat.two_pos h.le) h.le_pow

/-- What is linked again is less than three times the peak. -/
lemma GrowsTo.length_linked_le {p : ℕ} (h : GrowsTo 2 k p linked) : linked.length ≤ 3 * p := by
  have hlength := h.length_linked
  rcases h.pow_lt with rfl | hp
  · omega
  · obtain ⟨j, rfl⟩ : ∃ j, k = j + 1 := ⟨k - 1, by have := h.le; omega⟩
    rw [Nat.add_sub_cancel] at hp
    have hj : j < 2 ^ j := Nat.lt_two_pow_self
    rw [Nat.pow_succ] at hlength
    omega

omit [DecidableEq H] in
/-- There are no more handles than calls of `Insert`. -/
lemma peak_le_insertions (ops : List (TableOp H)) (m : HandleMap H) :
    peak ops m ≤ m.keys.card + insertions ops := by
  induction ops generalizing m with
  | nil => exact le_rfl
  | cons op ops ih =>
    refine max_le (Nat.le_add_right _ _) ((ih _).trans ?_)
    cases op with
    | insert h record =>
      have hadd := card_insert m (record.hash, record.keyData) h
      simp only [specOp, insertions]
      omega
    | lookup key hash => exact le_rfl
    | remove key hash =>
      have hsub : (m.erase (hash, key)).keys ⊆ m.keys := fun p hp => by
        rw [Finmap.mem_keys, Finmap.mem_erase] at hp
        exact Finmap.mem_keys.mpr hp.2
      exact Nat.add_le_add_right (Finset.card_le_card hsub) _
    | relink h next => exact le_rfl

/-- **The growth of a table.**  In every sequence of admissible calls that is made on a new table,
the table grows to the least power of two that has room for the largest number of handles that it
holds at any time, and stays there.  This number, the peak, also determines how many handles are
linked again while it grows: fewer than three times as many, each at most once for every
doubling. -/
theorem relinked_by_peak (handles : H → LRUHandle H) (ops : List (TableOp H))
    (hops : Admissible ∅ ops) (fuel : ℕ) (hfuel : ops.length + 33 < fuel) :
    ∃ s₀ linked s, construct fuel handles = .ok s₀ ∧
      runOps fuel ops s₀ = .ok ((specOps ops ∅).1, s) ∧
      runOpsRelinking fuel ops s₀ = .ok (linked, (specOps ops ∅).1, s) ∧
      s.length = 2 ^ Nat.clog 2 (max 4 (peak ops ∅)) ∧
      linked.length + 6 = s.length + Nat.clog 2 (max 4 (peak ops ∅)) ∧
      linked.length ≤ 3 * peak ops ∅ ∧ peak ops ∅ ≤ insertions ops ∧
      ∀ h, linked.count h + 2 ≤ Nat.clog 2 (max 4 (peak ops ∅)) := by
  obtain ⟨s₀, hconstruct, hm₀⟩ := construct_spec handles fuel (by omega)
  have hlength₀ : s₀.length = 2 ^ 2 := by
    obtain ⟨f, rfl⟩ : ∃ f, fuel = f + 1 := ⟨fuel - 1, by omega⟩
    cases hconstruct
    rfl
  have hcard : (∅ : HandleMap H).keys.card = 0 := rfl
  obtain ⟨linked, s, k, hrun, -, hlength, hto⟩ := runOpsRelinking_spec hm₀ hops
    (by rw [hcard]; omega) (by rw [hcard]; omega : _ < fuel) hlength₀
  have hpeak := peak_le_insertions ops (∅ : HandleMap H)
  rw [hcard, Nat.zero_add] at hpeak
  obtain rfl := hto.eq_clog
  have hlinked := hto.length_linked
  refine ⟨s₀, linked, s, hconstruct, ?_, hrun, hlength, by omega, hto.length_linked_le, hpeak,
    hto.count_linked⟩
  rw [← runOpsRelinking_snd, hrun]
  rfl

/-- The table grows once, when it holds five handles. -/
theorem sampleOps_relinked_by_peak : ∃ s₀ linked s,
    construct 50 (fun _ : ℕ => ⟨[], 0, none, none⟩) = .ok s₀ ∧
      runOps 50 sampleOps s₀ = .ok ((specOps sampleOps ∅).1, s) ∧
      runOpsRelinking 50 sampleOps s₀ = .ok (linked, (specOps sampleOps ∅).1, s) ∧
      s.length = 2 ^ Nat.clog 2 (max 4 (peak sampleOps ∅)) ∧
      linked.length + 6 = s.length + Nat.clog 2 (max 4 (peak sampleOps ∅)) ∧
      linked.length ≤ 3 * peak sampleOps ∅ ∧ peak sampleOps ∅ ≤ insertions sampleOps ∧
      ∀ h, linked.count h + 2 ≤ Nat.clog 2 (max 4 (peak sampleOps ∅)) :=
  relinked_by_peak (fun _ => ⟨[], 0, none, none⟩) sampleOps (by decide) 50 (by decide)

end TableState

end PmemKv
