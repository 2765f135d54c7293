import PmemKv.HandleTable.TableSpec

/-!
# `Resize` over the whole range of `elems_`

`new_length` and `elems_` are 32-bit words.  Up to `2 ^ 31` handles the doubling of `new_length`
ends at a power of two, and every handle of the old table is linked once into the new one.  With
more handles `new_length` goes from `2 ^ 31` to `0`, where it stays: the loop does not end.

To tell which handles are linked, the loops are also written with a list of them.
-/

namespace PmemKv

open LinkedChain Buckets

namespace TableState

variable {H : Type} [DecidableEq H]

/-- The inner loop of `Resize`, with the handles that it links. -/
def relinkChain (newLength : ℕ) :
    ℕ → Option H → List H → Rehash H → Except Stop (List H × Rehash H)
  | 0, _, _, _ => .error .exhausted
  | _ + 1, none, linked, r => .ok (linked, r)
  | fuel + 1, some h, linked, r =>
    let next := (r.handles h).nextHash
    let i := bucketIndex (r.handles h).hash newLength
    if i < newLength then
      relinkChain newLength fuel next (linked ++ [h])
        { handles := Function.update r.handles h { r.handles h with nextHash := r.newList i }
          newList := Function.update r.newList i (some h)
          count := toUInt32 (r.count + 1) }
    else .error .fault

/-- The outer loop of `Resize`, with the handles that are linked. -/
def relinkBuckets (list : ℕ → Option H) (newLength fuel : ℕ) :
    ℕ → ℕ → List H → Rehash H → Except Stop (List H × Rehash H)
  | 0, _, linked, r => .ok (linked, r)
  | n + 1, i, linked, r => do
    let (linked, r) ← relinkChain newLength fuel (list i) linked r
    relinkBuckets list newLength fuel n (i + 1) linked r

/-- `Resize`, with the handles that are linked. -/
def resizeRelinking (s : TableState H) (fuel : ℕ) : Except Stop (List H × TableState H) := do
  let n ← newLength s.elems fuel 4
  let (linked, r) ← relinkBuckets s.list n fuel s.length 0 [] ⟨s.handles, fun _ => none, 0⟩
  if s.elems = r.count then pure (linked, ⟨r.handles, r.newList, n, s.elems⟩) else .error .fault

variable {s s' : TableState H} {n i m fuel : ℕ} {chain old : ℕ → List H} {l linked linked' : List H}
  {o : Option H} {r r' : Rehash H} {list : ℕ → Option H}

/-! ## The handles that are linked -/

lemma relinkChain_snd (linked : List H) :
    (relinkChain n fuel o linked r).map Prod.snd = moveChain n fuel o r := by
  induction fuel generalizing o linked r with
  | zero => rfl
  | succ fuel ih =>
    cases o with
    | none => rfl
    | some h =>
      unfold relinkChain moveChain
      by_cases hi : bucketIndex (r.handles h).hash n < n
      · simp only [if_pos hi]
        exact ih _
      · simp only [if_neg hi]
        rfl

lemma relinkBuckets_snd (linked : List H) :
    (relinkBuckets list n fuel m i linked r).map Prod.snd = moveBuckets list n fuel m i r := by
  induction m generalizing i linked r with
  | zero => rfl
  | succ m ih =>
    unfold relinkBuckets moveBuckets
    rw [← relinkChain_snd linked]
    cases relinkChain n fuel (list i) linked r with
    | error e => rfl
    | ok x => exact ih _

/-- `Resize` is what it was. -/
lemma resizeRelinking_snd : (s.resizeRelinking fuel).map Prod.snd = s.resize fuel := by
  unfold resizeRelinking resize
  cases newLength s.elems fuel 4 with
  | error e => rfl
  | ok n =>
    simp only [bind, Except.bind]
    rw [← relinkBuckets_snd []]
    cases relinkBuckets s.list n fuel s.length 0 [] ⟨s.handles, fun _ => none, 0⟩ with
    | error e => rfl
    | ok x =>
      simp only [Except.map]
      by_cases hcount : s.elems = x.2.count
      · rw [if_pos hcount, if_pos hcount]
        rfl
      · rw [if_neg hcount, if_neg hcount]

/-- The inner loop links the handles of its chain, one after the other, and writes no other
handle. -/
lemma relinkChain_spec (hrun : relinkChain n fuel o linked r = .ok (linked', r'))
    (hF : Follows r.handles o l) (hnd : l.Nodup) :
    linked' = linked ++ l ∧ ∀ g ∉ l, r'.handles g = r.handles g := by
  induction l generalizing fuel o linked r with
  | nil =>
    obtain rfl : o = none := hF
    cases fuel with
    | zero => cases hrun
    | succ fuel =>
      cases hrun
      exact ⟨(List.append_nil _).symm, fun _ _ => rfl⟩
  | cons h l ih =>
    obtain ⟨rfl, hF⟩ := hF
    obtain ⟨hhl, hnd⟩ := List.nodup_cons.mp hnd
    cases fuel with
    | zero => cases hrun
    | succ fuel =>
      by_cases hi : bucketIndex (r.handles h).hash n < n
      · simp only [relinkChain, if_pos hi] at hrun
        -- the handles behind `h` are still those of the chain
        have hsame' : ∀ g ∈ l, (Function.update r.handles h { r.handles h with
            nextHash := r.newList (bucketIndex (r.handles h).hash n) } g).nextHash =
              (r.handles g).nextHash := by
          intro g hg
          rw [Function.update_of_ne]
          rintro rfl
          exact hhl hg
        obtain ⟨hlinked, hsame⟩ := ih hrun (hF.congr hsame') hnd
        refine ⟨by rw [hlinked, List.append_assoc, List.singleton_append], fun g hg => ?_⟩
        obtain ⟨hgh, hgl⟩ := List.ne_and_not_mem_of_not_mem_cons hg
        rw [hsame g hgl]
        exact Function.update_of_ne hgh _ _
      · simp only [relinkChain, if_neg hi] at hrun
        cases hrun

/-- The outer loop links the handles of all chains. -/
lemma relinkBuckets_spec (hrun : relinkBuckets list n fuel m i linked r = .ok (linked', r'))
    (hF : ∀ j, i ≤ j → j < i + m → Follows r.handles (list j) (old j))
    (hnd : ((List.range' i m).flatMap old).Nodup) :
    linked' = linked ++ (List.range' i m).flatMap old := by
  induction m generalizing i linked r with
  | zero =>
    cases hrun
    exact (List.append_nil _).symm
  | succ m ih =>
    rw [List.range'_succ, List.flatMap_cons] at hnd ⊢
    obtain ⟨hnd₁, hnd₂, hdisj⟩ := List.nodup_append'.mp hnd
    unfold relinkBuckets at hrun
    obtain ⟨⟨linked₁, r₁⟩, hchain, hrun⟩ := bind_eq_ok.mp hrun
    obtain ⟨rfl, hsame⟩ := relinkChain_spec hchain (hF i le_rfl (by omega)) hnd₁
    rw [ih hrun (fun j hij hj => ?_) hnd₂, List.append_assoc]
    -- the chains behind are untouched
    refine (hF j (by omega) (by omega)).congr fun h hh => ?_
    rw [hsame h fun hm => ?_]
    exact hdisj hm (List.mem_flatMap.mpr ⟨j, List.mem_range'_1.mpr ⟨hij, by omega⟩, hh⟩)

/-- `Resize` links each handle of the table once. -/
lemma linked_of_resizeRelinking (hlayout : s.Layout s.length chain)
    (hrun : s.resizeRelinking fuel = .ok (linked, s')) : linked = flat chain s.length := by
  have hflat : (List.range' 0 s.length).flatMap chain = flat chain s.length := by
    rw [flat, List.range_eq_range']
  obtain ⟨n, -, hrun⟩ := bind_eq_ok.mp hrun
  obtain ⟨⟨linked', r⟩, hmove, hrun⟩ := bind_eq_ok.mp hrun
  have hspec := relinkBuckets_spec hmove
    (fun j _ hj => follows_of_linked (hlayout.linked j (by omega))) (hflat ▸ hlayout.nodup)
  rw [hflat, List.nil_append] at hspec
  by_cases hcount : s.elems = r.count
  · simp only [if_pos hcount] at hrun
    cases hrun
    exact hspec
  · simp only [if_neg hcount] at hrun
    cases hrun

/-! ## Lookups -/

/-- Two tables with the same handles under the same pairs answer alike. -/
lemma lookup_congr {chain' : ℕ → List H} (hI : s.TableInv chain) (hI' : s'.TableInv chain')
    (hpair : ∀ h, s'.pair h = s.pair h)
    (hmem : ∀ h, h ∈ flat chain' s'.length ↔ h ∈ flat chain s.length) (key : Bytes) (hash : UInt32)
    (hfuel : s.elems < fuel) (hfuel' : s'.elems < fuel) :
    s'.lookup fuel key hash = s.lookup fuel key hash := by
  obtain ⟨o, hlook, hiff⟩ := lookup_iff hI key hash hfuel
  obtain ⟨o', hlook', hiff'⟩ := lookup_iff hI' key hash hfuel'
  rw [hlook, hlook']
  congr 1
  refine Option.ext fun h => ?_
  rw [hiff, hiff', hmem, hpair]

/-! ## The length -/

/-- Once `new_length` is `0`, it stays so. -/
lemma newLength_zero {elems : ℕ} (hpos : 0 < elems) (fuel : ℕ) :
    newLength elems fuel 0 = .error .exhausted := by
  induction fuel with
  | zero => rfl
  | succ fuel ih =>
    rw [newLength, if_pos hpos]
    exact ih

/-- With too many handles, the doubling loop does not end. -/
lemma newLength_exhausted {elems k : ℕ} (helems : 2 ^ 31 < elems) (hk : k ≤ 31) (fuel : ℕ) :
    newLength elems fuel (2 ^ k) = .error .exhausted := by
  induction fuel generalizing k with
  | zero => rfl
  | succ fuel ih =>
    have hpow : 2 ^ k ≤ 2 ^ 31 := Nat.pow_le_pow_right (by decide) hk
    rw [newLength, if_pos (by omega)]
    rcases Nat.lt_or_eq_of_le hk with hlt | rfl
    · have hpow' : 2 ^ (k + 1) ≤ 2 ^ 31 := Nat.pow_le_pow_right (by decide) hlt
      rw [← Nat.pow_succ, toUInt32, Nat.mod_eq_of_lt (by omega)]
      exact ih hlt
    · -- the length wraps
      exact newLength_zero (by omega) fuel

/-- `Resize` does not return then. -/
lemma resize_exhausted (helems : 2 ^ 31 < s.elems) (fuel : ℕ) :
    s.resize fuel = .error .exhausted := by
  rw [resize, show (4 : ℕ) = 2 ^ 2 from rfl, newLength_exhausted helems (by decide)]
  rfl

/-! ## `Resize` -/

/-- The tables for which `Resize` is called: that of the constructor, which is empty, and those that
calls leave behind. -/
def Resizable (s : TableState H) (chain : ℕ → List H) : Prop :=
  s.length = 0 ∧ s.elems = 0 ∨ s.TableInv chain

/-- What `Resize` is for: `s'` is the new table, and the handles of `linked` were linked into it. -/
structure ResizedTo (s : TableState H) (chain : ℕ → List H) (linked : List H) (s' : TableState H) :
    Prop where
  /-- The new length is a power of two. -/
  length_eq : ∃ k, s'.length = 2 ^ k
  /-- There are at least four buckets, and as many as handles. -/
  length_ge : max 4 s.elems ≤ s'.length
  /-- The counter stays. -/
  elems_eq : s'.elems = s.elems
  /-- Every handle of the old table is linked. -/
  linked_perm : linked.Perm (flat chain s.length)
  /-- No handle is linked twice. -/
  linked_nodup : linked.Nodup
  /-- The chains of the new table are in order, and hold these handles. -/
  layout : ∃ chain', s'.Layout s'.length chain' ∧ (flat chain' s'.length).Perm linked
  /-- A `Lookup` in the old table gives the same result in the new one. -/
  lookup_eq : 0 < s.length → ∀ key hash fuel, s.elems < fuel →
    s'.lookup fuel key hash = s.lookup fuel key hash
  /-- Every `Lookup` in the new table returns. -/
  lookup_ok : ∀ key hash fuel, s.elems < fuel → ∃ o, s'.lookup fuel key hash = .ok o

/-- `Resize` returns, and does what it is for. -/
def ResizesWell (s : TableState H) (chain : ℕ → List H) : Prop :=
  ∃ N, ∀ fuel, N ≤ fuel → ∃ linked s', s.resizeRelinking fuel = .ok (linked, s') ∧
    ResizedTo s chain linked s'

/-- The call in the constructor. -/
lemma resizesWell_of_empty (hlength : s.length = 0) (helems : s.elems = 0) :
    s.ResizesWell chain := by
  refine ⟨1, fun fuel hfuel => ⟨[], ⟨s.handles, fun _ => none, 4, 0⟩, ?_, ?_⟩⟩
  · obtain ⟨fuel, rfl⟩ : ∃ f, fuel = f + 1 := ⟨fuel - 1, by omega⟩
    rw [resizeRelinking, hlength, helems]
    rfl
  · have hI := tableInv_nil s.handles
    have hperm : ([] : List H).Perm (flat chain s.length) := by
      rw [hlength]
      exact List.Perm.refl _
    refine ⟨⟨2, rfl⟩, ?_, helems.symm, hperm, List.nodup_nil, ⟨fun _ => [], hI.layout, ?_⟩,
      fun hpos => ?_, fun key hash fuel hfuel => ?_⟩
    · rw [helems]
      exact le_rfl
    · rw [flat_nil]
    · rw [hlength] at hpos
      exact absurd hpos (lt_irrefl 0)
    · obtain ⟨o, hlook, -⟩ := lookup_iff hI key hash (Nat.zero_lt_of_lt hfuel)
      exact ⟨o, hlook⟩

/-- A call for a table with handles. -/
lemma resizesWell_of_le (hI : s.TableInv chain) (helems : s.elems ≤ 2 ^ 31) :
    s.ResizesWell chain := by
  refine ⟨s.elems + 33, fun fuel hfuel => ?_⟩
  obtain ⟨s', chain', hresize, hI', hle, hpair, hmem⟩ := resize_spec hI helems fuel (by omega)
  have hperm : (flat chain' s'.length).Perm (flat chain s.length) :=
    (List.perm_ext_iff_of_nodup hI'.layout.nodup hI.layout.nodup).mpr hmem
  have hcount : s'.elems = s.elems := by
    rw [hI'.elems_eq, hI.elems_eq, hperm.length_eq]
  rcases hrelink : s.resizeRelinking fuel with e | ⟨linked, s''⟩
  · rw [← resizeRelinking_snd, hrelink] at hresize
    cases hresize
  · have hs' : s'' = s' := by
      rw [← resizeRelinking_snd, hrelink] at hresize
      exact Except.ok.inj hresize
    subst hs'
    have hlinked := linked_of_resizeRelinking hI.layout hrelink
    obtain ⟨k, hk₂, hk, hlength⟩ := hI'.length_eq
    refine ⟨linked, s'', rfl, ⟨k, hlength⟩, ?_, hcount, ?_, ?_, ⟨chain', hI'.layout, ?_⟩,
      fun _ key hash fuel hfuel => ?_, fun key hash fuel hfuel => ?_⟩
    · have hfour : 2 ^ 2 ≤ 2 ^ k := Nat.pow_le_pow_right (by decide) hk₂
      omega
    · rw [hlinked]
    · rw [hlinked]
      exact hI.layout.nodup
    · rw [hlinked]
      exact hperm
    · exact lookup_congr hI hI' hpair hmem key hash hfuel (by omega)
    · obtain ⟨o, hlook, -⟩ := lookup_iff hI' key hash (by omega : s''.elems < fuel)
      exact ⟨o, hlook⟩

/-- **When `Resize` terminates.**  For a table with any number of handles, `Resize` ends with a
fitting length and every handle in its place exactly if there are at most `2 ^ 31` of them. -/
theorem resize_iff (s : TableState H) (chain : ℕ → List H) (hs : s.Resizable chain) :
    s.ResizesWell chain ↔ s.elems ≤ 2 ^ 31 := by
  constructor
  · rintro ⟨N, hwell⟩
    by_contra hgt
    obtain ⟨linked, s', hrun, -⟩ := hwell N le_rfl
    have hresize := resize_exhausted (not_le.mp hgt) N
    rw [← resizeRelinking_snd, hrun] at hresize
    cases hresize
  · intro hle
    rcases hs with ⟨hlength, helems⟩ | hI
    · exact resizesWell_of_empty hlength helems
    · exact resizesWell_of_le hI hle

/-! ## A long chain -/

/-- The handles `0, …, n - 1` in one bucket. -/
def longChain (n i : ℕ) : List ℕ := if i = 0 then List.range n else []

/-- A table with these handles. -/
def longTable (n : ℕ) : TableState ℕ where
  handles h := ⟨le64 h, 0, if h + 1 < n then some (h + 1) else none, none⟩
  list i := if i = 0 then some 0 else none
  length := 2 ^ 31
  elems := n

lemma flat_longChain {k : ℕ} (hk : 0 < k) : flat (longChain n) k = List.range n := by
  induction k, hk using Nat.le_induction with
  | base => simp [flat, longChain]
  | succ k hk ih => rw [flat_succ, ih, longChain, if_neg (Nat.ne_of_gt hk), List.append_nil]

/-- From each handle the chain goes on to the last one. -/
lemma linked_longTable (m a : ℕ) {c : Cell ℕ} (ham : a + m = n)
    (hc : (longTable n).get c = if 0 < m then some a else none) :
    Linked (longTable n).nextCell c ((List.range' a m).map .nextHash) := by
  induction m generalizing a c with
  | zero =>
    rw [if_neg (lt_irrefl 0)] at hc
    exact Option.map_eq_none_iff.mpr hc
  | succ m ih =>
    rw [if_pos m.succ_pos] at hc
    rw [List.range'_succ, List.map_cons]
    refine ⟨by rw [nextCell, hc]; rfl, ih (a + 1) (by omega) ?_⟩
    change (if a + 1 < n then some (a + 1) else none) = _
    congr 1
    exact propext ⟨fun h => by omega, fun h => by omega⟩

/-- The table is as calls leave it behind. -/
lemma longTable_inv (hpos : 0 < n) (hn : n ≤ 2 ^ 64) : (longTable n).TableInv (longChain n) := by
  have hflat : flat (longChain n) (longTable n).length = List.range n :=
    flat_longChain (Nat.two_pow_pos 31)
  constructor
  · exact ⟨31, by decide, le_rfl, rfl⟩
  · refine ⟨fun i _ => ?_, fun i _ h hh => ?_, ?_⟩
    · by_cases hi : i = 0
      · subst hi
        rw [Chain, longChain, if_pos rfl, List.range_eq_range']
        refine linked_longTable n 0 (Nat.zero_add n) ?_
        rw [if_pos hpos]
        rfl
      · rw [Chain, longChain, if_neg hi]
        simp [nextCell, get, longTable, hi]
    · by_cases hi : i = 0
      · rw [hi]
        exact Nat.zero_and _
      · rw [longChain, if_neg hi] at hh
        exact absurd hh List.not_mem_nil
    · rw [hflat]
      exact List.nodup_range
  · intro g hg h hh heq
    rw [hflat, List.mem_range] at hg hh
    have hkey : le64 g = le64 h := congrArg Prod.snd heq
    have hword := congrArg leNat hkey
    rwa [leNat_le64, leNat_le64, toUInt64_of_lt (by omega), toUInt64_of_lt (by omega)] at hword
  · intro h _ hnext
    cases hnext
  · rw [hflat, List.length_range]
    rfl

/-- Five handles in one bucket. -/
theorem resize_iff_five : (longTable 5).ResizesWell (longChain 5) ↔ 5 ≤ 2 ^ 31 :=
  resize_iff (longTable 5) (longChain 5) (Or.inr (longTable_inv (by decide) (by decide)))

/-- One handle more than `2 ^ 31`: `Resize` never returns. -/
theorem resize_overflow :
    (longTable (2 ^ 31 + 1)).Resizable (longChain (2 ^ 31 + 1)) ∧
      (∀ fuel, (longTable (2 ^ 31 + 1)).resize fuel = .error .exhausted) ∧
      ¬(longTable (2 ^ 31 + 1)).ResizesWell (longChain (2 ^ 31 + 1)) := by
  have hexhausted : ∀ fuel, (longTable (2 ^ 31 + 1)).resize fuel = .error .exhausted :=
    resize_exhausted (Nat.lt_succ_self (2 ^ 31))
  refine ⟨Or.inr (longTable_inv (Nat.succ_pos _) (by decide)), hexhausted, ?_⟩
  rintro ⟨N, hwell⟩
  obtain ⟨linked, s', hrun, -⟩ := hwell N le_rfl
  have hresize := hexhausted N
  rw [← resizeRelinking_snd, hrun] at hresize
  cases hresize

end TableState

end PmemKv
