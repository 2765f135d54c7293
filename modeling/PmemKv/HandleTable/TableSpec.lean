import PmemKv.HandleTable.Layout
import Mathlib.Data.Finmap
import Mathlib.Data.Finset.Dedup

/-!
# The handle table is a finite map

The table is compared with a finite map from pairs of hash and key bytes to handles.  `Represents`
relates a state of the table to such a map; the constructor represents the empty map, and `Lookup`,
`Insert` and `Remove` return what the operations of the map return and represent its result.  The
bound of `2^31` handles keeps the 32-bit arithmetic of `elems_` and of `Resize` from wrapping.
-/

namespace PmemKv

open LinkedChain Buckets

namespace TableState

variable {H : Type} [DecidableEq H]

/-- What the table stands for. -/
abbrev HandleMap (H : Type) : Type := Finmap fun _ : UInt32 × Bytes => H

/-- The invariant of the table between two calls. -/
structure TableInv (s : TableState H) (chain : ℕ → List H) : Prop where
  /-- `length_` is a power of two, from `4` to `2^31`. -/
  length_eq : ∃ k, 2 ≤ k ∧ k ≤ 31 ∧ s.length = 2 ^ k
  /-- The chains are in order. -/
  layout : s.Layout s.length chain
  /-- No two stored handles have the same pair. -/
  distinct : ∀ g ∈ flat chain s.length, ∀ h ∈ flat chain s.length, s.pair g = s.pair h → g = h
  /-- No stored handle is the dummy of an empty LRU list. -/
  next_ne : ∀ h ∈ flat chain s.length, (s.handles h).next ≠ some h
  /-- `elems_` is the number of stored handles. -/
  elems_eq : s.elems = (flat chain s.length).length

/-- The stored handles are those of the map, each under its own pair. -/
def Holds (s : TableState H) (chain : ℕ → List H) (m : HandleMap H) : Prop :=
  ∀ p h, m.lookup p = some h ↔ h ∈ flat chain s.length ∧ s.pair h = p

/-- The table stands for the map, and it has at least as many buckets as handles. -/
def Represents (s : TableState H) (m : HandleMap H) : Prop :=
  ∃ chain, s.TableInv chain ∧ s.elems ≤ s.length ∧ s.Holds chain m

variable {s : TableState H} {n b : ℕ} {chain : ℕ → List H} {h : H} {l l₁ l₂ d : List H}
  {key : Bytes} {hash : UInt32} {fuel : ℕ} {m : HandleMap H}

/-! ## The bucket of a hash -/

lemma bucketIndex_eq {k : ℕ} (hk : k ≤ 31) (hash : UInt32) :
    bucketIndex hash (2 ^ k) = hash.toNat % 2 ^ k := by
  have hpos : 0 < 2 ^ k := Nat.two_pow_pos k
  have hle : 2 ^ k ≤ 2 ^ 31 := Nat.pow_le_pow_right (by decide) hk
  have hsub : toUInt32 (2 ^ k + 2 ^ 32 - 1) = 2 ^ k - 1 := by
    rw [toUInt32, show 2 ^ k + 2 ^ 32 - 1 = 2 ^ k - 1 + 2 ^ 32 by omega, Nat.add_mod_right]
    exact Nat.mod_eq_of_lt (by omega)
  rw [bucketIndex, hsub, Nat.and_two_pow_sub_one_eq_mod]

lemma bucketIndex_lt {k : ℕ} (hk : k ≤ 31) (hash : UInt32) : bucketIndex hash (2 ^ k) < 2 ^ k := by
  rw [bucketIndex_eq hk]
  exact Nat.mod_lt _ (Nat.two_pow_pos k)

omit [DecidableEq H] in
lemma TableInv.bucketIndex_lt (hI : s.TableInv chain) (hash : UInt32) :
    bucketIndex hash s.length < s.length := by
  obtain ⟨k, -, hk, hlen⟩ := hI.length_eq
  rw [hlen]
  exact TableState.bucketIndex_lt hk hash

/-! ## `FindPointer` -/

omit [DecidableEq H] in
/-- The cell behind an initial part of a chain can be read. -/
lemma load_lastCell (hb : b < s.length) (hc : s.Chain b (l₁ ++ l₂)) :
    s.load (lastCell b l₁) = .ok l₂.head? := by
  rw [← hc.get_lastCell]
  rcases lastCell_eq_or_mem b l₁ with he | ⟨g, -, he⟩
  · rw [he, load, if_pos hb]
    rfl
  · rw [he]
    rfl

/-- The cell behind an initial part of a chain can be written. -/
lemma store_lastCell (hb : b < s.length) (l : List H) (v : Option H) :
    s.store (lastCell b l) v = .ok (s.set (lastCell b l) v) := by
  rcases lastCell_eq_or_mem b l with he | ⟨g, -, he⟩
  · rw [he, store, if_pos hb]
  · rw [he, store]

/-- `FindPointer` stops at the first handle of the rest of a chain that has the pair, or at its
end. -/
theorem findLoop_spec (hb : b < s.length) (l₁ l : List H) (hc : s.Chain b (l₁ ++ l))
    (hnext : ∀ h ∈ l, (s.handles h).next ≠ some h) (hfuel : l.length < fuel) :
    ∃ d l₂, l = d ++ l₂ ∧ s.findLoop key hash fuel (lastCell b l₁) = .ok (lastCell b (l₁ ++ d)) ∧
      (∀ h ∈ d, s.pair h ≠ (hash, key)) ∧ ∀ h, l₂.head? = some h → s.pair h = (hash, key) := by
  induction fuel generalizing l₁ l with
  | zero => exact absurd hfuel (Nat.not_lt_zero _)
  | succ fuel ih =>
    have hload := load_lastCell hb hc
    cases l with
    | nil =>
      refine ⟨[], [], rfl, ?_, by simp, by simp⟩
      rw [findLoop, hload, List.append_nil]
      rfl
    | cons h l =>
      by_cases hp : s.pair h = (hash, key)
      · -- the loop stops at `h`
        obtain ⟨hhash, hkey⟩ := Prod.mk.inj hp
        refine ⟨[], h :: l, rfl, ?_, by simp, fun g hg => Option.some.inj hg ▸ hp⟩
        have hk : s.key h = .ok key := by
          rw [TableState.key, if_neg (hnext h List.mem_cons_self), hkey]
        have heq : sliceEq key key = true := sliceEq_iff.mpr rfl
        rw [findLoop, hload, List.append_nil]
        simp only [List.head?_cons, bind, Except.bind, hhash, ne_eq, not_true_eq_false, if_false,
          hk, heq, Bool.not_true, Bool.false_eq_true]
        rfl
      · have hc' : s.Chain b ((l₁ ++ [h]) ++ l) := by simpa using hc
        obtain ⟨d, l₂, hl, hfind, hd, hhead⟩ :=
          ih (l₁ ++ [h]) l hc' (fun g hg => hnext g (List.mem_cons_of_mem h hg))
            (Nat.lt_of_succ_lt_succ hfuel)
        rw [lastCell_concat] at hfind
        refine ⟨h :: d, l₂, by rw [hl, List.cons_append], ?_, ?_, hhead⟩
        · have hstep : s.findLoop key hash (fuel + 1) (lastCell b l₁) =
              s.findLoop key hash fuel (.nextHash h) := by
            rw [findLoop, hload]
            simp only [List.head?_cons, bind, Except.bind]
            by_cases hhash : (s.handles h).hash = hash
            · have hk : s.key h = .ok (s.handles h).keyData := by
                rw [TableState.key, if_neg (hnext h List.mem_cons_self)]
              have hne : sliceEq key (s.handles h).keyData = false := by
                rw [Bool.eq_false_iff, ne_eq, sliceEq_iff]
                exact fun he => hp (by rw [TableState.pair, hhash, he])
              simp [hhash, hk, hne]
            · simp [hhash]
          rw [hstep, hfind]
          simp
        · intro g hg
          rcases List.mem_cons.mp hg with rfl | hg
          · exact hp
          · exact hd g hg

/-- `FindPointer` splits the chain of the bucket at the handle with the pair, if there is one. -/
theorem findPointer_spec (hI : s.TableInv chain) (key : Bytes) (hash : UInt32)
    (hfuel : s.elems < fuel) : ∃ l₁ l₂, chain (bucketIndex hash s.length) = l₁ ++ l₂ ∧
      s.findPointer fuel key hash = .ok (lastCell (bucketIndex hash s.length) l₁) ∧
      (∀ h ∈ l₁, s.pair h ≠ (hash, key)) ∧ ∀ h, l₂.head? = some h → s.pair h = (hash, key) := by
  have hb := hI.bucketIndex_lt hash
  have hsub : ∀ h ∈ chain (bucketIndex hash s.length), h ∈ flat chain s.length :=
    fun h hh => mem_flat.mpr ⟨_, hb, hh⟩
  have hlen : (chain (bucketIndex hash s.length)).length < fuel := by
    refine lt_of_le_of_lt ?_ hfuel
    rw [hI.elems_eq]
    exact ((hI.layout.chain_nodup hb).subperm hsub).length_le
  obtain ⟨d, l₂, hl, hfind, hd, hhead⟩ := findLoop_spec hb [] _ (hI.layout.linked _ hb)
    (fun h hh => hI.next_ne h (hsub h hh)) hlen
  exact ⟨d, l₂, hl, hfind, hd, hhead⟩

omit [DecidableEq H] in
/-- `FindPointer` stopped at the stored handle with the pair, if there is one. -/
lemma head?_eq_some_iff (hI : s.TableInv chain)
    (hc : chain (bucketIndex hash s.length) = l₁ ++ l₂)
    (h₁ : ∀ h ∈ l₁, s.pair h ≠ (hash, key))
    (h₂ : ∀ h, l₂.head? = some h → s.pair h = (hash, key)) (h : H) :
    l₂.head? = some h ↔ h ∈ flat chain s.length ∧ s.pair h = (hash, key) := by
  have hb := hI.bucketIndex_lt hash
  have hflat : ∀ g, l₂.head? = some g → g ∈ flat chain s.length := by
    intro g hg
    refine mem_flat.mpr ⟨_, hb, ?_⟩
    rw [hc]
    exact List.mem_append_right _ (List.mem_of_head? hg)
  constructor
  · exact fun hh => ⟨hflat h hh, h₂ h hh⟩
  · rintro ⟨hh, hpair⟩
    obtain ⟨i, hi, hhi⟩ := mem_flat.mp hh
    have hidx := hI.layout.index i hi h hhi
    rw [(Prod.mk.inj hpair).1] at hidx
    rw [← hidx, hc] at hhi
    -- no handle before the one that was found has the pair
    have hmem : h ∈ l₂ := (List.mem_append.mp hhi).resolve_left fun hm => h₁ h hm hpair
    cases hl₂ : l₂.head? with
    | none =>
      rw [List.head?_eq_none_iff.mp hl₂] at hmem
      exact absurd hmem List.not_mem_nil
    | some g => rw [hI.distinct g (hflat g hl₂) h hh ((h₂ g hl₂).trans hpair.symm)]

omit [DecidableEq H] in
/-- A handle of the bucket with the pair is where `FindPointer` stopped. -/
lemma lookup_eq_head (hI : s.TableInv chain) (hm : s.Holds chain m)
    (hc : chain (bucketIndex hash s.length) = l₁ ++ l₂)
    (h₁ : ∀ h ∈ l₁, s.pair h ≠ (hash, key))
    (h₂ : ∀ h, l₂.head? = some h → s.pair h = (hash, key)) :
    m.lookup (hash, key) = l₂.head? :=
  Option.ext fun h => (hm _ h).trans (head?_eq_some_iff hI hc h₁ h₂ h).symm

/-- `Lookup` finds the handle that is stored under a pair. -/
lemma lookup_iff (hI : s.TableInv chain) (key : Bytes) (hash : UInt32) (hfuel : s.elems < fuel) :
    ∃ o, s.lookup fuel key hash = .ok o ∧
      ∀ h, o = some h ↔ h ∈ flat chain s.length ∧ s.pair h = (hash, key) := by
  obtain ⟨l₁, l₂, hc, hfind, h₁, h₂⟩ := findPointer_spec hI key hash hfuel
  have hb := hI.bucketIndex_lt hash
  refine ⟨l₂.head?, ?_, head?_eq_some_iff hI hc h₁ h₂⟩
  rw [lookup, hfind]
  exact load_lastCell hb (hc ▸ hI.layout.linked _ hb)

/-- **`Lookup`** returns what the map holds. -/
theorem lookup_spec (hm : s.Represents m) (key : Bytes) (hash : UInt32) (hfuel : s.elems < fuel) :
    s.lookup fuel key hash = .ok (m.lookup (hash, key)) := by
  obtain ⟨chain, hI, -, hmap⟩ := hm
  obtain ⟨o, hlook, hiff⟩ := lookup_iff hI key hash hfuel
  have ho : o = m.lookup (hash, key) := Option.ext fun h => (hiff h).trans (hmap _ h).symm
  rw [hlook, ho]

/-! ## `Resize` -/

/-- The new length is a power of two, at least the number of handles. -/
lemma newLength_spec {elems k : ℕ} (he : elems ≤ 2 ^ 31) (hk : k ≤ 31) (fuel : ℕ)
    (hfuel : 31 - k < fuel) :
    ∃ k', k ≤ k' ∧ k' ≤ 31 ∧ elems ≤ 2 ^ k' ∧ newLength elems fuel (2 ^ k) = .ok (2 ^ k') := by
  induction fuel generalizing k with
  | zero => exact absurd hfuel (Nat.not_lt_zero _)
  | succ fuel ih =>
    rw [newLength]
    split
    · next hlt =>
      have hk31 : k < 31 := by
        rcases Nat.lt_or_eq_of_le hk with h | rfl
        · exact h
        · omega
      have hpow : 2 ^ (k + 1) ≤ 2 ^ 31 := Nat.pow_le_pow_right (by decide) hk31
      have hdouble : toUInt32 (2 ^ k * 2) = 2 ^ (k + 1) := by
        rw [← Nat.pow_succ, toUInt32, Nat.mod_eq_of_lt (by omega)]
      obtain ⟨k', hkk', h₁, h₂, h₃⟩ := ih hk31 (by omega)
      exact ⟨k', by omega, h₁, h₂, by rw [hdouble, h₃]⟩
    · next hge => exact ⟨k, le_rfl, hk, not_lt.mp hge, rfl⟩

/-- The handles reached from the pointer `o` through `next_hash` are those of the list. -/
def Follows (handles : H → LRUHandle H) : Option H → List H → Prop
  | o, [] => o = none
  | o, h :: l => o = some h ∧ Follows handles (handles h).nextHash l

omit [DecidableEq H] in
/-- A chain is followed from its slot. -/
lemma follows_of_linked {c : Cell H} (hc : Linked s.nextCell c (l.map .nextHash)) :
    Follows s.handles (s.get c) l := by
  induction l generalizing c with
  | nil => exact Option.map_eq_none_iff.mp hc
  | cons h l ih =>
    refine ⟨?_, ih hc.2⟩
    exact Option.map_injective (fun _ _ he => Cell.nextHash.inj he) (hc.1 : _ = (some h).map _)

omit [DecidableEq H] in
lemma Follows.congr {handles handles' : H → LRUHandle H} {o : Option H}
    (hF : Follows handles o l) (heq : ∀ h ∈ l, (handles' h).nextHash = (handles h).nextHash) :
    Follows handles' o l := by
  induction l generalizing o with
  | nil => exact hF
  | cons h l ih =>
    refine ⟨hF.1, ?_⟩
    rw [heq h List.mem_cons_self]
    exact ih hF.2 fun g hg => heq g (List.mem_cons_of_mem h hg)

/-- The table that `Resize` is building. -/
def Rehash.state (r : Rehash H) (n : ℕ) : TableState H := ⟨r.handles, r.newList, n, 0⟩

/-- What `Resize` keeps: the new chains are in order and `count` is the number of handles in
them. -/
structure Rehashed (r : Rehash H) (n : ℕ) (chain : ℕ → List H) : Prop where
  /-- The new chains are in order. -/
  layout : (r.state n).Layout n chain
  /-- The counter counts them. -/
  count_eq : r.count = (flat chain n).length

/-- The handles of `r'` are those of `r` up to their field `next_hash`, which has changed for
handles of `l` only. -/
def SameHandles (r r' : Rehash H) (l : List H) : Prop :=
  ∀ h, (r'.handles h).hash = (r.handles h).hash ∧ (r'.handles h).keyData = (r.handles h).keyData ∧
    (r'.handles h).next = (r.handles h).next ∧
    (h ∉ l → (r'.handles h).nextHash = (r.handles h).nextHash)

omit [DecidableEq H] in
lemma SameHandles.trans {r r' r'' : Rehash H} {l' : List H} (h₁ : SameHandles r r' l)
    (h₂ : SameHandles r' r'' l') : SameHandles r r'' (l ++ l') := by
  intro h
  obtain ⟨a₁, a₂, a₃, a₄⟩ := h₁ h
  obtain ⟨b₁, b₂, b₃, b₄⟩ := h₂ h
  refine ⟨b₁.trans a₁, b₂.trans a₂, b₃.trans a₃, fun hn => ?_⟩
  rw [List.mem_append, not_or] at hn
  exact (b₄ hn.2).trans (a₄ hn.1)

/-- Moving one old chain: all its handles come in front of their new chains. -/
theorem moveChain_spec {k : ℕ} (hk : k ≤ 31) {r : Rehash H} {o : Option H}
    (hr : Rehashed r (2 ^ k) chain) (hF : Follows r.handles o l) (hnd : l.Nodup)
    (hdisj : ∀ h ∈ l, h ∉ flat chain (2 ^ k))
    (hbound : l.length + (flat chain (2 ^ k)).length ≤ 2 ^ 31) (fuel : ℕ)
    (hfuel : l.length < fuel) :
    ∃ r' chain', moveChain (2 ^ k) fuel o r = .ok r' ∧ Rehashed r' (2 ^ k) chain' ∧
      (flat chain' (2 ^ k)).Perm (l ++ flat chain (2 ^ k)) ∧ SameHandles r r' l := by
  induction l generalizing r o chain fuel with
  | nil =>
    obtain ⟨fuel, rfl⟩ : ∃ f, fuel = f + 1 := ⟨fuel - 1, by simp at hfuel; omega⟩
    obtain rfl : o = none := hF
    exact ⟨r, chain, rfl, hr, List.Perm.refl _, fun h => ⟨rfl, rfl, rfl, fun _ => rfl⟩⟩
  | cons h l ih =>
    obtain ⟨fuel, rfl⟩ : ∃ f, fuel = f + 1 := ⟨fuel - 1, by simp at hfuel; omega⟩
    obtain ⟨rfl, hF⟩ := hF
    obtain ⟨hhl, hnd⟩ := List.nodup_cons.mp hnd
    have hb : bucketIndex (r.handles h).hash (2 ^ k) < 2 ^ k := bucketIndex_lt hk _
    generalize hbdef : bucketIndex (r.handles h).hash (2 ^ k) = b at hb
    have hnew : h ∉ flat chain (2 ^ k) := hdisj h List.mem_cons_self
    have hchain : (r.state (2 ^ k)).Chain b ([] ++ chain b) := hr.layout.linked b hb
    have hhead : r.newList b = (chain b).head? := hchain.get_lastCell
    have hlayout := hr.layout.link hb [] [] (chain b) rfl hnew hbdef
    obtain ⟨rest, hp₁, hp₂⟩ := exists_flat_update chain hb
    have hperm : (flat (Function.update chain b (h :: chain b)) (2 ^ k)).Perm
        (h :: flat chain (2 ^ k)) := (hp₂ _).trans (hp₁.symm.cons h)
    simp only [List.length_cons] at hbound hfuel
    have hcount : toUInt32 (r.count + 1) =
        (flat (Function.update chain b (h :: chain b)) (2 ^ k)).length := by
      rw [hperm.length_eq, List.length_cons, hr.count_eq, toUInt32, Nat.mod_eq_of_lt (by omega)]
    have hr₁ : Rehashed
        { handles := Function.update r.handles h { r.handles h with nextHash := r.newList b }
          newList := Function.update r.newList b (some h)
          count := toUInt32 (r.count + 1) } (2 ^ k)
        (Function.update chain b (h :: chain b)) := by
      refine ⟨?_, hcount⟩
      rw [hhead]
      exact hlayout
    have hsame : ∀ g ∈ l, (Function.update r.handles h
        { r.handles h with nextHash := r.newList b } g).nextHash = (r.handles g).nextHash := by
      intro g hg
      rw [Function.update_of_ne]
      rintro rfl
      exact hhl hg
    obtain ⟨r', chain', hmove, hr', hp', hs'⟩ := ih hr₁ (hF.congr hsame) hnd (fun g hg hm => by
        rcases List.mem_cons.mp (hperm.mem_iff.mp hm) with rfl | hm
        · exact hhl hg
        · exact hdisj g (List.mem_cons_of_mem h hg) hm)
      (by rw [hperm.length_eq, List.length_cons]; omega) fuel (Nat.lt_of_succ_lt_succ hfuel)
    refine ⟨r', chain', ?_, hr', ?_, fun g => ?_⟩
    · rw [moveChain]
      simp only [hbdef]
      rw [if_pos hb, hmove]
    · exact hp'.trans ((hperm.append_left l).trans List.perm_middle)
    · obtain ⟨h₁, h₂, h₃, h₄⟩ := hs' g
      by_cases hgh : g = h
      · subst hgh
        simp only [Function.update_self] at h₁ h₂ h₃
        exact ⟨h₁, h₂, h₃, fun hn => absurd List.mem_cons_self hn⟩
      · simp only [Function.update_of_ne hgh] at h₁ h₂ h₃ h₄
        exact ⟨h₁, h₂, h₃, fun hn => h₄ fun hm => hn (List.mem_cons_of_mem h hm)⟩

/-- Moving the old chains from the slot `i` on. -/
theorem moveBuckets_spec {k : ℕ} (hk : k ≤ 31) (list : ℕ → Option H) (old : ℕ → List H) (i n : ℕ)
    {r : Rehash H} (hr : Rehashed r (2 ^ k) chain)
    (hF : ∀ j, i ≤ j → j < i + n → Follows r.handles (list j) (old j))
    (hnd : ((List.range' i n).flatMap old).Nodup)
    (hdisj : ∀ h ∈ (List.range' i n).flatMap old, h ∉ flat chain (2 ^ k))
    (hbound : ((List.range' i n).flatMap old).length + (flat chain (2 ^ k)).length ≤ 2 ^ 31)
    (fuel : ℕ) (hfuel : ((List.range' i n).flatMap old).length < fuel) :
    ∃ r' chain', moveBuckets list (2 ^ k) fuel n i r = .ok r' ∧ Rehashed r' (2 ^ k) chain' ∧
      (flat chain' (2 ^ k)).Perm ((List.range' i n).flatMap old ++ flat chain (2 ^ k)) ∧
      SameHandles r r' ((List.range' i n).flatMap old) := by
  induction n generalizing i r chain with
  | zero => exact ⟨r, chain, rfl, hr, List.Perm.refl _, fun h => ⟨rfl, rfl, rfl, fun _ => rfl⟩⟩
  | succ n ih =>
    rw [List.range'_succ, List.flatMap_cons] at hnd hdisj hbound hfuel ⊢
    obtain ⟨hnd₁, hnd₂, hnd₃⟩ := List.nodup_append'.mp hnd
    simp only [List.length_append] at hbound hfuel
    obtain ⟨r₁, chain₁, hmove₁, hr₁, hp₁, hs₁⟩ := moveChain_spec hk hr
      (hF i le_rfl (by omega)) hnd₁ (fun h hh => hdisj h (List.mem_append_left _ hh))
      (by omega) fuel
      (by omega)
    -- the chains behind are untouched
    have hF₁ : ∀ j, i + 1 ≤ j → j < i + 1 + n → Follows r₁.handles (list j) (old j) := by
      intro j hij hj
      refine (hF j (by omega) (by omega)).congr fun h hh => (hs₁ h).2.2.2 fun hm => ?_
      exact hnd₃ hm (List.mem_flatMap.mpr ⟨j, List.mem_range'_1.mpr ⟨hij, by omega⟩, hh⟩)
    have hdisj₁ : ∀ h ∈ (List.range' (i + 1) n).flatMap old, h ∉ flat chain₁ (2 ^ k) := by
      intro h hh hm
      rcases List.mem_append.mp (hp₁.mem_iff.mp hm) with hm | hm
      · exact hnd₃ hm hh
      · exact hdisj h (List.mem_append_right _ hh) hm
    obtain ⟨r₂, chain₂, hmove₂, hr₂, hp₂, hs₂⟩ := ih (i + 1) hr₁ hF₁ hnd₂ hdisj₁
      (by rw [hp₁.length_eq, List.length_append]; omega) (by omega)
    refine ⟨r₂, chain₂, ?_, hr₂, ?_, hs₁.trans hs₂⟩
    · rw [moveBuckets, hmove₁]
      exact hmove₂
    · refine hp₂.trans ((hp₁.append_left _).trans ?_)
      rw [← List.append_assoc]
      exact List.perm_append_comm.append_right _

/-- **`Resize`** keeps the stored handles and makes room for them; its assertion holds. -/
theorem resize_spec (hI : s.TableInv chain) (he : s.elems ≤ 2 ^ 31) (fuel : ℕ)
    (hfuel : s.elems + 32 < fuel) : ∃ s' chain', s.resize fuel = .ok s' ∧ s'.TableInv chain' ∧
      s'.elems ≤ s'.length ∧ (∀ h, s'.pair h = s.pair h) ∧
      ∀ h, h ∈ flat chain' s'.length ↔ h ∈ flat chain s.length := by
  obtain ⟨k, hk₂, hk, hle, hlen⟩ := newLength_spec (k := 2) he (by decide) fuel (by omega)
  have hempty : Rehashed ⟨s.handles, fun _ => none, 0⟩ (2 ^ k) fun _ => [] := by
    refine ⟨⟨fun i _ => rfl, fun i _ h hh => absurd hh List.not_mem_nil, ?_⟩, ?_⟩
    · rw [flat_nil]
      exact List.nodup_nil
    · rw [flat_nil]
      rfl
  have hflat : (List.range' 0 s.length).flatMap chain = flat chain s.length := by
    rw [flat, List.range_eq_range']
  obtain ⟨r, chain', hmove, hr, hp, hs⟩ := moveBuckets_spec hk s.list chain 0 s.length hempty
    (fun j _ hj => follows_of_linked (hI.layout.linked j (by omega))) (hflat ▸ hI.layout.nodup)
    (fun h _ => by simp [flat_nil]) (by rw [hflat, flat_nil, ← hI.elems_eq]; exact he) fuel
    (by rw [hflat, ← hI.elems_eq]; omega)
  rw [hflat, flat_nil, List.append_nil] at hp
  have hcount : s.elems = r.count := by rw [hr.count_eq, hp.length_eq, hI.elems_eq]
  have hpair : ∀ h, (TableState.mk r.handles r.newList (2 ^ k) s.elems).pair h = s.pair h := by
    intro h
    obtain ⟨h₁, h₂, -⟩ := hs h
    rw [pair, pair]
    exact Prod.ext h₁ h₂
  refine ⟨⟨r.handles, r.newList, 2 ^ k, s.elems⟩, chain', ?_, ?_, hle, hpair, fun h => hp.mem_iff⟩
  · rw [resize, show (4 : ℕ) = 2 ^ 2 from rfl, hlen]
    simp only [bind, Except.bind]
    rw [hmove]
    simp only [if_pos hcount]
    rfl
  · refine ⟨⟨k, hk₂, hk, rfl⟩, ⟨hr.layout.linked, hr.layout.index, hr.layout.nodup⟩,
      fun g hg h hh he => ?_, fun h hh => ?_, ?_⟩
    · rw [hpair, hpair] at he
      exact hI.distinct g (hp.mem_iff.mp hg) h (hp.mem_iff.mp hh) he
    · have := hI.next_ne h (hp.mem_iff.mp hh)
      rwa [← (hs h).2.2.1] at this
    · change s.elems = (flat chain' (2 ^ k)).length
      rw [hp.length_eq, hI.elems_eq]

/-! ## `Insert` and `Remove` -/

/-- `FindPointer` splits the chain of the bucket around the handle that the map holds. -/
lemma findPointer_split (hI : s.TableInv chain) (hm : s.Holds chain m) (key : Bytes)
    (hash : UInt32) (hfuel : s.elems < fuel) : ∃ l₁ l₂,
      chain (bucketIndex hash s.length) = l₁ ++ ((m.lookup (hash, key)).toList ++ l₂) ∧
      s.findPointer fuel key hash = .ok (lastCell (bucketIndex hash s.length) l₁) ∧
      (m.lookup (hash, key) = none → l₂ = []) := by
  obtain ⟨l₁, l, hc, hfind, h₁, h₂⟩ := findPointer_spec hI key hash hfuel
  have hlook := lookup_eq_head hI hm hc h₁ h₂
  cases l with
  | nil => exact ⟨l₁, [], by rw [hlook]; exact hc, hfind, fun _ => rfl⟩
  | cons h l => exact ⟨l₁, l, by rw [hlook]; exact hc, hfind, fun he => by simp [hlook] at he⟩

omit [DecidableEq H] in
/-- The handle that the map holds for a pair is the only stored one with it. -/
lemma mem_lookup_toList (hm : s.Holds chain m) (p : UInt32 × Bytes) (g : H) :
    g ∈ (m.lookup p).toList ↔ g ∈ flat chain s.length ∧ s.pair g = p := by
  rw [Option.mem_toList]
  exact hm p g

omit [DecidableEq H] in
/-- A table with other chains, where only fields `next_hash` have changed. -/
lemma TableInv.of_layout {s₁ : TableState H} {chain' : ℕ → List H} {e : ℕ} (hI : s.TableInv chain)
    (hlength : s₁.length = s.length) (hlayout : s₁.Layout s.length chain')
    (hpair : ∀ g, s₁.pair g = s.pair g)
    (hnext : ∀ g ∈ flat chain' s.length, (s₁.handles g).next ≠ some g)
    (hdist : ∀ g ∈ flat chain' s.length, ∀ h ∈ flat chain' s.length, s.pair g = s.pair h → g = h)
    (helems : e = (flat chain' s.length).length) : TableInv { s₁ with elems := e } chain' := by
  rw [← hlength] at hlayout hnext hdist helems
  constructor
  · have := hI.length_eq
    rwa [← hlength] at this
  · exact ⟨hlayout.linked, hlayout.index, hlayout.nodup⟩
  · intro g hg h hh he
    apply hdist g hg h hh
    rw [← hpair, ← hpair]
    exact he
  · exact hnext
  · exact helems

/-- The table after a handle was linked in, in place of the one with the same pair. -/
lemma link_spec (hI : s.TableInv chain) (hm : s.Holds chain m) (hb : b < s.length)
    (hc : chain b = l₁ ++ ((m.lookup (s.pair h)).toList ++ l₂)) (hh : h ∉ flat chain s.length)
    (hidx : bucketIndex (s.handles h).hash s.length = b) (hnext : (s.handles h).next ≠ some h)
    {e : ℕ} (he : e + (m.lookup (s.pair h)).toList.length = s.elems + 1) {s₁ : TableState H}
    (hs₁ : s₁ = (s.set (.nextHash h) l₂.head?).set (lastCell b l₁) (some h)) :
    TableInv { s₁ with elems := e } (Function.update chain b (l₁ ++ h :: l₂)) ∧
      Holds { s₁ with elems := e } (Function.update chain b (l₁ ++ h :: l₂))
        (m.insert (s.pair h) h) := by
  have hlayout := hI.layout.link hb l₁ _ l₂ hc hh hidx
  obtain ⟨hmem, hlen⟩ := flat_exchange (e := [h]) hb hI.layout.nodup hc
  have hlength : s₁.length = s.length := by
    rw [hs₁, (set_length _ _ _).1, (set_length _ _ _).1]
  have hpair : ∀ g, s₁.pair g = s.pair g := by
    intro g
    rw [hs₁, pair_set, pair_set]
  have hnext₁ : ∀ g, (s₁.handles g).next = (s.handles g).next := by
    intro g
    rw [hs₁, (handles_set _ _ _ _).2.2, (handles_set _ _ _ _).2.2]
  have hmem' : ∀ g, g ∈ flat (Function.update chain b (l₁ ++ h :: l₂)) s.length ↔
      g = h ∨ (g ∈ flat chain s.length ∧ s.pair g ≠ s.pair h) := by
    intro g
    refine (hmem g).trans ?_
    rw [List.mem_singleton, mem_lookup_toList hm]
    tauto
  rw [← hs₁] at hlayout
  constructor
  · apply hI.of_layout hlength hlayout hpair
    · intro g hg
      rw [hnext₁ g]
      rcases (hmem' g).mp hg with rfl | ⟨hg, -⟩
      · exact hnext
      · exact hI.next_ne g hg
    · intro g hg g' hg' heq
      rcases (hmem' g).mp hg with rfl | ⟨hg, hne⟩
      · rcases (hmem' g').mp hg' with rfl | ⟨-, hne'⟩
        · rfl
        · exact absurd heq.symm hne'
      · rcases (hmem' g').mp hg' with rfl | ⟨hg', -⟩
        · exact absurd heq hne
        · exact hI.distinct g hg g' hg' heq
    · rw [List.length_singleton, ← hI.elems_eq] at hlen
      simp only [List.singleton_append] at hlen
      omega
  · intro p g
    change _ ↔ g ∈ flat _ s₁.length ∧ s₁.pair g = p
    rw [hlength, hmem', hpair]
    by_cases hp : p = s.pair h
    · subst hp
      rw [Finmap.lookup_insert, Option.some.injEq]
      constructor
      · rintro rfl
        exact ⟨Or.inl rfl, rfl⟩
      · rintro ⟨rfl | ⟨-, hne⟩, heq⟩
        · rfl
        · exact absurd heq hne
    · rw [Finmap.lookup_insert_of_ne _ hp, hm p g]
      constructor
      · rintro ⟨hg, rfl⟩
        exact ⟨Or.inr ⟨hg, hp⟩, rfl⟩
      · rintro ⟨rfl | ⟨hg, -⟩, heq⟩
        · exact absurd heq.symm hp
        · exact ⟨hg, heq⟩

/-- The table after the handle of a pair was taken out. -/
lemma unlink_spec (hI : s.TableInv chain) (hm : s.Holds chain m) (hb : b < s.length)
    {p : UInt32 × Bytes} (hc : chain b = l₁ ++ ((m.lookup p).toList ++ l₂)) {e : ℕ}
    (he : e + (m.lookup p).toList.length = s.elems) {s₁ : TableState H}
    (hs₁ : s₁ = s.set (lastCell b l₁) l₂.head?) :
    TableInv { s₁ with elems := e } (Function.update chain b (l₁ ++ l₂)) ∧
      Holds { s₁ with elems := e } (Function.update chain b (l₁ ++ l₂)) (m.erase p) := by
  have hlayout := hI.layout.unlink hb l₁ _ l₂ hc
  obtain ⟨hmem, hlen⟩ := flat_exchange (e := []) hb hI.layout.nodup hc
  have hlength : s₁.length = s.length := by rw [hs₁, (set_length _ _ _).1]
  have hpair : ∀ g, s₁.pair g = s.pair g := by
    intro g
    rw [hs₁, pair_set]
  have hmem' : ∀ g, g ∈ flat (Function.update chain b (l₁ ++ l₂)) s.length ↔
      g ∈ flat chain s.length ∧ s.pair g ≠ p := by
    intro g
    refine (hmem g).trans ?_
    rw [mem_lookup_toList hm]
    simp only [List.not_mem_nil, false_or]
    tauto
  rw [← hs₁] at hlayout
  constructor
  · apply hI.of_layout hlength hlayout hpair
    · intro g hg
      have hnext : (s₁.handles g).next = (s.handles g).next := by
        rw [hs₁, (handles_set _ _ _ _).2.2]
      rw [hnext]
      exact hI.next_ne g ((hmem' g).mp hg).1
    · intro g hg g' hg' heq
      exact hI.distinct g ((hmem' g).mp hg).1 g' ((hmem' g').mp hg').1 heq
    · rw [List.length_nil, ← hI.elems_eq] at hlen
      simp only [List.nil_append] at hlen
      omega
  · intro q g
    change _ ↔ g ∈ flat _ s₁.length ∧ s₁.pair g = q
    rw [hlength, hmem', hpair]
    by_cases hp : q = p
    · subst hp
      rw [Finmap.lookup_erase]
      constructor
      · intro hnone
        cases hnone
      · rintro ⟨⟨-, hne⟩, heq⟩
        exact absurd heq hne
    · rw [Finmap.lookup_erase_ne hp, hm q g]
      constructor
      · rintro ⟨hg, rfl⟩
        exact ⟨⟨hg, hp⟩, rfl⟩
      · rintro ⟨⟨hg, -⟩, heq⟩
        exact ⟨hg, heq⟩

omit [DecidableEq H] in
/-- `elems_` is the number of pairs in the map. -/
theorem card_keys (hI : s.TableInv chain) (hm : s.Holds chain m) : m.keys.card = s.elems := by
  have hkeys : m.keys = ((flat chain s.length).map s.pair).toFinset := by
    ext p
    rw [Finmap.mem_keys, Finmap.mem_iff, List.mem_toFinset, List.mem_map]
    exact exists_congr fun h => hm p h
  have hnd : ((flat chain s.length).map s.pair).Nodup :=
    List.Nodup.map_on (fun g hg h hh he => hI.distinct g hg h hh he) hI.layout.nodup
  rw [hkeys, List.toFinset_card_of_nodup hnd, List.length_map, hI.elems_eq]

omit [DecidableEq H] in
/-- Putting a pair into the map adds one, unless it is there. -/
lemma card_insert (m : HandleMap H) (p : UInt32 × Bytes) (h : H) :
    (m.insert p h).keys.card + (m.lookup p).toList.length = m.keys.card + 1 := by
  have hkeys : (m.insert p h).keys = Insert.insert p m.keys := by
    ext q
    rw [Finmap.mem_keys, Finmap.mem_insert, Finset.mem_insert, Finmap.mem_keys]
  rw [hkeys]
  cases hlook : m.lookup p with
  | none =>
    have hp : p ∉ m.keys := by rwa [Finmap.mem_keys, ← Finmap.lookup_eq_none]
    rw [Finset.card_insert_of_notMem hp]
    rfl
  | some g =>
    have hp : p ∈ m.keys := Finmap.mem_keys.mpr (Finmap.mem_of_lookup_eq_some hlook)
    rw [Finset.insert_eq_of_mem hp]
    rfl

/-- **`Insert`** returns the handle it displaces and puts the new one under its pair. -/
theorem insert_spec (hm : s.Represents m) (hh : ∀ p, m.lookup p ≠ some h)
    (hnext : (s.handles h).next ≠ some h) (hcard : (m.insert (s.pair h) h).keys.card ≤ 2 ^ 31)
    (hfuel : s.elems + 33 < fuel) : ∃ s', s.insert fuel h = .ok (m.lookup (s.pair h), s') ∧
      s'.Represents (m.insert (s.pair h) h) := by
  obtain ⟨chain, hI, hle, hmap⟩ := hm
  have hnew : h ∉ flat chain s.length := fun hf => hh (s.pair h) ((hmap _ h).mpr ⟨hf, rfl⟩)
  have hb := hI.bucketIndex_lt (s.handles h).hash
  obtain ⟨l₁, l₂, hc, hfind, hl₂⟩ :=
    findPointer_split hI hmap (s.handles h).keyData (s.handles h).hash (lt_trans (by omega) hfuel)
  change chain _ = l₁ ++ ((m.lookup (s.pair h)).toList ++ l₂) at hc
  change m.lookup (s.pair h) = none → l₂ = [] at hl₂
  generalize hbdef : bucketIndex (s.handles h).hash s.length = b at hb hc hfind
  have hlinked := hI.layout.linked b hb
  rw [hc] at hlinked
  have hkey : s.key h = .ok (s.handles h).keyData := if_neg hnext
  have hload : s.load (lastCell b l₁) = .ok (m.lookup (s.pair h)) := by
    rw [load_lastCell hb hlinked]
    cases hlook : m.lookup (s.pair h) with
    | none => rw [hl₂ hlook]; rfl
    | some o => rfl
  -- the new handle continues with what followed the old one
  have hold : ((m.lookup (s.pair h)).bind fun o => (s.handles o).nextHash) = l₂.head? := by
    cases hlook : m.lookup (s.pair h) with
    | none => rw [hl₂ hlook]; rfl
    | some o =>
      rw [hlook] at hlinked
      exact hlinked.nextHash_eq
  have hset : (s.set (.nextHash h) l₂.head?).length = s.length := (set_length _ _ _).1
  have hstore : (s.set (.nextHash h) l₂.head?).store (lastCell b l₁) (some h) =
      .ok ((s.set (.nextHash h) l₂.head?).set (lastCell b l₁) (some h)) :=
    store_lastCell (hset ▸ hb) _ _
  have hcards := card_insert m (s.pair h) h
  rw [card_keys hI hmap] at hcards
  generalize hs₁ : (s.set (.nextHash h) l₂.head?).set (lastCell b l₁) (some h) = s₁ at hstore
  obtain ⟨hI', hmap'⟩ := link_spec hI hmap hb hc hnew hbdef hnext hcards hs₁.symm
  have hlen₁ : s₁.length = s.length := by rw [← hs₁, (set_length _ _ _).1, hset]
  have helems₁ : s₁.elems = s.elems := by rw [← hs₁, (set_length _ _ _).2, (set_length _ _ _).2]
  rw [insert, hkey]
  simp only [bind, Except.bind]
  rw [hfind]
  simp only [hload, hold]
  rw [hstore]
  simp only
  generalize (m.insert (s.pair h) h).keys.card = e at *
  cases hlook : m.lookup (s.pair h) with
  | some o =>
    -- the number of handles has not changed
    have he : e = s₁.elems := by
      rw [hlook, Option.toList_some, List.length_singleton] at hcards
      omega
    subst he
    exact ⟨s₁, rfl, _, hI', by omega, hmap'⟩
  | none =>
    rw [hlook, Option.toList_none, List.length_nil] at hcards
    have he : toUInt32 (s₁.elems + 1) = e := by
      rw [toUInt32, Nat.mod_eq_of_lt (by omega)]
      omega
    simp only [if_true, he]
    by_cases hresize : s₁.length < e
    · obtain ⟨s', chain', hres, hI'', hle', hpair, hmem⟩ := resize_spec hI' hcard fuel
        (by change e + 32 < fuel; omega)
      rw [if_pos hresize, hres]
      refine ⟨s', rfl, chain', hI'', hle', fun p g => ?_⟩
      rw [hmap' p g, hmem, hpair]
    · rw [if_neg hresize]
      exact ⟨_, rfl, _, hI', not_lt.mp hresize, hmap'⟩

/-- **`Remove`** returns the handle of the pair and takes it out. -/
theorem remove_spec (hm : s.Represents m) (key : Bytes) (hash : UInt32)
    (hcard : m.keys.card ≤ 2 ^ 31) (hfuel : s.elems < fuel) :
    ∃ s', s.remove fuel key hash = .ok (m.lookup (hash, key), s') ∧
      s'.Represents (m.erase (hash, key)) := by
  obtain ⟨chain, hI, hle, hmap⟩ := hm
  have hb := hI.bucketIndex_lt hash
  obtain ⟨l₁, l₂, hc, hfind, hl₂⟩ := findPointer_split hI hmap key hash hfuel
  generalize bucketIndex hash s.length = b at hb hc hfind
  have hlinked := hI.layout.linked b hb
  rw [hc] at hlinked
  rw [card_keys hI hmap] at hcard
  rw [remove, hfind]
  simp only [bind, Except.bind]
  rw [load_lastCell hb hlinked]
  cases hlook : m.lookup (hash, key) with
  | none =>
    have herase : m.erase (hash, key) = m := by
      apply Finmap.ext_lookup
      intro p
      by_cases hp : p = (hash, key)
      · rw [hp, Finmap.lookup_erase, hlook]
      · rw [Finmap.lookup_erase_ne hp]
    rw [hl₂ hlook, herase]
    exact ⟨s, rfl, chain, hI, hle, hmap⟩
  | some o =>
    have hmem : o ∈ flat chain s.length := ((hmap _ o).mp hlook).1
    have hpos : 0 < s.elems := by
      rw [hI.elems_eq]
      exact List.length_pos_of_mem hmem
    have he : toUInt32 (s.elems + 2 ^ 32 - 1) + (m.lookup (hash, key)).toList.length = s.elems := by
      rw [hlook, toUInt32, show s.elems + 2 ^ 32 - 1 = s.elems - 1 + 2 ^ 32 by omega,
        Nat.add_mod_right, Nat.mod_eq_of_lt (by omega), Option.toList_some, List.length_singleton]
      omega
    obtain ⟨hI', hmap'⟩ := unlink_spec hI hmap hb hc he rfl
    have hnext : (s.handles o).nextHash = l₂.head? := by
      rw [hlook] at hlinked
      exact hlinked.nextHash_eq
    simp only [Option.toList_some, List.singleton_append, List.head?_cons, hnext,
      store_lastCell hb]
    refine ⟨_, ?_, _, hI', ?_, hmap'⟩
    · rw [(set_length _ _ _).2]
      rfl
    · have hlength : (s.set (lastCell b l₁) l₂.head?).length = s.length := (set_length _ _ _).1
      rw [hlook, Option.toList_some, List.length_singleton] at he
      simp only
      omega

omit [DecidableEq H] in
/-- The table of the constructor is in order. -/
lemma tableInv_nil (handles : H → LRUHandle H) :
    TableInv ⟨handles, fun _ => none, 4, 0⟩ fun _ => [] := by
  constructor
  · exact ⟨2, le_rfl, by decide, rfl⟩
  · refine ⟨fun i _ => rfl, fun i _ h hh => absurd hh List.not_mem_nil, ?_⟩
    rw [flat_nil]
    exact List.nodup_nil
  · intro g hg
    rw [flat_nil] at hg
    exact absurd hg List.not_mem_nil
  · intro h hh
    rw [flat_nil] at hh
    exact absurd hh List.not_mem_nil
  · rw [flat_nil]
    rfl

/-- **The constructor** makes a table that stands for the empty map. -/
theorem construct_spec (handles : H → LRUHandle H) (fuel : ℕ) (hfuel : 32 < fuel) :
    ∃ s : TableState H, construct fuel handles = .ok s ∧ s.Represents ∅ := by
  obtain ⟨fuel, rfl⟩ : ∃ f, fuel = f + 1 := ⟨fuel - 1, by omega⟩
  refine ⟨⟨handles, fun _ => none, 4, 0⟩, rfl, fun _ => [], tableInv_nil handles, Nat.zero_le _,
    fun p h => ?_⟩
  rw [flat_nil, Finmap.lookup_empty]
  simp

end TableState

end PmemKv
