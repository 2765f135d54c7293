import PmemKv.Library.AtomicProg
import PmemKv.ValueStore.PoolSpec

/-!
# Opening the pools

`KVSOpen` makes or opens one file after the other.  The first file that can be neither made nor
opened ends it, and `delete[]` then closes the pools that are open.  Here the calls of `libpmemobj`
are the operations of a program, so that the pools that were opened and closed on the way can be
told: either all pools are open when `KVSOpen` returns, or each pool that was opened is closed
again.

The results are those of the model in which `KVSOpen` asks for each file once
(`openPools_agrees`).
-/

namespace PmemKv

open AtomicProg Prog

/-- `EIO`. -/
def eio : ℤ := 5

/-- `sizeof(struct KVSRoot)`. -/
def sizeofKVSRoot : ℕ := 8

/-- The layout of the pools. -/
def poolLayout : String := "store_value"

/-- `pool_path`: the path of the `i`-th file. -/
def poolPath (path : String) (i : ℕ) : String := path ++ "." ++ toString i

/-- The pools are in different files. -/
lemma poolPath_injective (path : String) : Function.Injective (poolPath path) := by
  intro i j h
  have hrepr : i.repr = j.repr := (String.append_right_inj _).mp h
  have hdigits : Nat.toDigits 10 i = Nat.toDigits 10 j := by
    rw [← Nat.toList_repr, ← Nat.toList_repr, hrepr]
  rw [← Nat.ofDigitChars_toDigits (n := i) (by decide : 1 < 10) le_rfl, hdigits,
    Nat.ofDigitChars_toDigits (by decide) le_rfl]

/-- A `PMEMobjpool*`.  Each call that opens a pool gives it a number; the pools that are open at one
time have different addresses, so that the code cannot tell more. -/
structure PMEMobjpool where
  /-- How many pools were opened before. -/
  serial : ℕ
  /-- The address at which it is mapped. -/
  addr : ℕ
  deriving DecidableEq

/-- A `Pool`, with its pointer, which may be `nullptr`. -/
structure PoolSlot where
  /-- `pool`. -/
  pool : Option PMEMobjpool
  /-- `uuid_lo`. -/
  uuidLo : ℕ
  /-- `base_addr`. -/
  baseAddr : ℕ
  deriving DecidableEq

/-- The static variables that `KVSOpen` writes. -/
structure PoolVars where
  /-- `pools_`, which may be `nullptr`. -/
  pools : Option (List PoolSlot)
  /-- `pool_count_`. -/
  poolCount : ℕ
  /-- `dcpmm_avail_size_min_`. -/
  dcpmmAvailSizeMin : ℕ
  deriving DecidableEq

/-- The calls of `libpmemobj` in `KVSOpen` and `~Pool`. -/
inductive PoolOp : Type
  /-- `pmemobj_create`. -/
  | create (path layout : String) (size mode : ℕ)
  /-- `pmemobj_open`. -/
  | openPool (path layout : String)
  /-- `pmemobj_root`. -/
  | root (pool : PMEMobjpool) (size : ℕ)
  /-- The store to `rootPtr->size`, and `pmemobj_persist`. -/
  | persistSize (pool : PMEMobjpool) (size : ℕ)
  /-- `pmemobj_close`. -/
  | close (pool : PMEMobjpool)

/-- What a call answers; for `pmemobj_root` this is the `pool_uuid_lo`. -/
def PoolOp.Ret : PoolOp → Type
  | create .. => Option PMEMobjpool
  | openPool .. => Option PMEMobjpool
  | root .. => ℕ
  | persistSize .. => Unit
  | close .. => Unit

/-- A program that calls `libpmemobj`. -/
abbrev PoolProg := Prog PoolOp PoolOp.Ret

/-- `pmemobj_create`. -/
def pmemobjCreate (path layout : String) (size mode : ℕ) : PoolProg (Option PMEMobjpool) :=
  perform (PoolOp.create path layout size mode)

/-- `pmemobj_open`. -/
def pmemobjOpen (path layout : String) : PoolProg (Option PMEMobjpool) :=
  perform (PoolOp.openPool path layout)

/-- `pmemobj_root`. -/
def pmemobjRoot (pool : PMEMobjpool) (size : ℕ) : PoolProg ℕ := perform (PoolOp.root pool size)

/-- `rootPtr->size = pool_size` and `pmemobj_persist`. -/
def persistSize (pool : PMEMobjpool) (size : ℕ) : PoolProg Unit :=
  perform (PoolOp.persistSize pool size)

/-- `pmemobj_close`. -/
def pmemobjClose (pool : PMEMobjpool) : PoolProg Unit := perform (PoolOp.close pool)

/-! ## The source -/

/-- `~Pool`. -/
def PoolSlot.destroy (slot : PoolSlot) : PoolProg Unit :=
  match slot.pool with
  | some pool => pmemobjClose pool
  | none => pure ()

/-- `delete[]`, which destroys the last element first. -/
def deletePools : List PoolSlot → PoolProg Unit
  | [] => pure ()
  | slot :: slots => do
    deletePools slots
    slot.destroy

/-- The loop body of `KVSOpen` before `pools_[i]` is written: the pool, if there is one, and the
`pool_uuid_lo` of its root. -/
def openFile (path : String) (poolSize : ℕ) : PoolProg (Option (PMEMobjpool × ℕ)) := do
  match ← pmemobjCreate path poolLayout poolSize 0o666 with
  | some pool =>
    let root ← pmemobjRoot pool sizeofKVSRoot
    persistSize pool poolSize
    pure (some (pool, root))
  | none =>
    match ← pmemobjOpen path poolLayout with
    | some pool =>
      let root ← pmemobjRoot pool sizeofKVSRoot
      pure (some (pool, root))
    | none => pure none

/-- The loop of `KVSOpen`, with `n` rounds left from the file `i` on. -/
def openFiles (path : String) (poolSize : ℕ) : ℕ → ℕ → List PoolSlot →
    PoolProg (Option (List PoolSlot))
  | 0, _, pools => pure (some pools)
  | n + 1, i, pools => do
    match ← openFile (poolPath path i) poolSize with
    | some (pool, root) =>
      openFiles path poolSize n (i + 1) (pools.set i ⟨some pool, root, pool.addr⟩)
    | none =>
      deletePools pools
      pure none

/-- `Pool()`; the other fields are written before they are read. -/
def PoolSlot.null : PoolSlot := ⟨none, 0, 0⟩

/-- `KVSOpen`. -/
def openPools (path : String) (size poolCount : ℕ) (v : PoolVars) : PoolProg (ℤ × PoolVars) := do
  check v.pools.isNone
  let pools := List.replicate poolCount PoolSlot.null
  let v := { v with pools := some pools, poolCount := poolCount }
  -- the division by `pool_count`
  check (poolCount ≠ 0)
  match ← openFiles path (size / poolCount) poolCount 0 pools with
  | some pools => pure (0, { v with pools := some pools, dcpmmAvailSizeMin := size / 10 })
  | none => pure (-eio, { v with pools := none })

/-- `KVSEnabled`. -/
def kvsEnabled (v : PoolVars) : Bool := v.pools.isSome

/-- `KVSCLose`. -/
def closePools (v : PoolVars) : PoolProg PoolVars := do
  match v.pools with
  | some pools => deletePools pools
  | none => pure ()
  pure { v with pools := none }

/-! ## The library -/

/-- Which files can be made and opened, and what the pools in them are. -/
structure PoolFiles where
  /-- `pmemobj_create` makes the file. -/
  create : (path layout : String) → (size mode : ℕ) → Bool
  /-- `pmemobj_open` opens the file. -/
  canOpen : (path layout : String) → Bool
  /-- The address at which the pool is mapped that is opened with a number. -/
  addr : (serial : ℕ) → (path : String) → ℕ
  /-- The `pool_uuid_lo` of the pool. -/
  uuidLo : (path : String) → ℕ

/-- The pools that were opened and closed. -/
structure OpenPools where
  /-- The pools that are open, and their files. -/
  live : List (PMEMobjpool × String)
  /-- The pools that were closed, the first one first. -/
  closed : List PMEMobjpool
  /-- How many pools were opened. -/
  serial : ℕ

namespace PoolFiles

variable (F : PoolFiles)

/-- The pool that is opened next, if it is that of the file. -/
def next (o : OpenPools) (path : String) : PMEMobjpool := ⟨o.serial, F.addr o.serial path⟩

/-- A pool is opened. -/
def opened (o : OpenPools) (path : String) : OpenPools :=
  { o with live := o.live ++ [(F.next o path, path)], serial := o.serial + 1 }

/-- What the calls do.  Closed pools have no root. -/
def exec : (op : PoolOp) → OpenPools → op.Ret × OpenPools
  | .create path layout size mode, o =>
    if F.create path layout size mode then (some (F.next o path), F.opened o path) else (none, o)
  | .openPool path layout, o =>
    if F.canOpen path layout then (some (F.next o path), F.opened o path) else (none, o)
  | .root pool _, o =>
    match o.live.find? fun x => x.1 = pool with
    | some x => (F.uuidLo x.2, o)
    | none => ((0 : ℕ), o)
  | .persistSize _ _, o => ((), o)
  | .close pool, o =>
    ((), { o with live := o.live.filter fun x => x.1 ≠ pool, closed := o.closed ++ [pool] })

/-- A file can be made or opened. -/
def Available (path : String) (poolSize : ℕ) : Prop :=
  F.create path poolLayout poolSize 0o666 = true ∨ F.canOpen path poolLayout = true

instance (path : String) (poolSize : ℕ) : Decidable (F.Available path poolSize) :=
  inferInstanceAs (Decidable (_ ∨ _))

/-- What `pools_[i]` holds when it describes a pool. -/
def slot (x : PMEMobjpool × String) : PoolSlot := ⟨some x.1, F.uuidLo x.2, x.1.addr⟩

variable {F} {path : String} {poolSize n i : ℕ} {o : OpenPools} {pools : List PoolSlot}

/-! ## Closing -/

/-- `delete[]` closes the pools of an array, the last one first. -/
lemma run_deletePools (l : List (PMEMobjpool × String)) (n : ℕ) :
    run F.exec (deletePools (l.map F.slot ++ List.replicate n PoolSlot.null)) o =
      .done () { o with
        live := o.live.filter fun x => x.1 ∉ l.map Prod.fst
        closed := o.closed ++ (l.map Prod.fst).reverse } := by
  induction l with
  | nil =>
    have hnull : run F.exec (deletePools (List.replicate n PoolSlot.null)) o = .done () o := by
      induction n with
      | zero => rfl
      | succ n ih =>
        rw [List.replicate_succ, deletePools, run_bind_of ih]
        rfl
    simpa using hnull
  | cons x l ih =>
    rw [List.map_cons, List.cons_append, deletePools, run_bind_of ih]
    simp only [PoolSlot.destroy, slot, pmemobjClose, perform, run, exec]
    congr 2
    · rw [List.filter_filter]
      congr 1
      funext y
      rw [List.map_cons, ← Bool.decide_and]
      exact decide_eq_decide.mpr (by rw [List.mem_cons, not_or])
    · simp

/-! ## One file -/

/-- `pmemobj_create` makes the file, or leaves everything as it was. -/
lemma run_pmemobjCreate (layout : String) (size mode : ℕ) :
    run F.exec (pmemobjCreate path layout size mode) o =
      if F.create path layout size mode = true then .done (some (F.next o path)) (F.opened o path)
      else .done none o := by
  simp only [pmemobjCreate, perform, run, exec]
  split <;> rfl

/-- `pmemobj_open` opens the file, or leaves everything as it was. -/
lemma run_pmemobjOpen (layout : String) :
    run F.exec (pmemobjOpen path layout) o =
      if F.canOpen path layout = true then .done (some (F.next o path)) (F.opened o path)
      else .done none o := by
  simp only [pmemobjOpen, perform, run, exec]
  split <;> rfl

/-- The root of the pool that was just opened. -/
lemma run_pmemobjRoot (size : ℕ) (hfresh : ∀ x ∈ o.live, x.1.serial < o.serial) :
    run F.exec (pmemobjRoot (F.next o path) size) (F.opened o path) =
      .done (F.uuidLo path) (F.opened o path) := by
  have hfind : (F.opened o path).live.find? (fun x => x.1 = F.next o path) =
      some (F.next o path, path) := by
    rw [opened, List.find?_append, List.find?_eq_none.mpr]
    · simp
    · intro x hx heq
      have hlt := hfresh x hx
      rw [of_decide_eq_true heq] at hlt
      exact lt_irrefl _ hlt
  simp only [pmemobjRoot, perform, run, exec, hfind]

/-- A file that can be made or opened is open then. -/
lemma run_openFile_of (h : F.Available path poolSize)
    (hfresh : ∀ x ∈ o.live, x.1.serial < o.serial) :
    run F.exec (openFile path poolSize) o =
      .done (some (F.next o path, F.uuidLo path)) (F.opened o path) := by
  unfold openFile
  by_cases hc : F.create path poolLayout poolSize 0o666 = true
  · rw [run_bind_of ((run_pmemobjCreate ..).trans (if_pos hc))]
    exact run_bind_of (run_pmemobjRoot _ hfresh)
  · have ho : F.canOpen path poolLayout = true := h.resolve_left hc
    rw [run_bind_of ((run_pmemobjCreate ..).trans (if_neg hc)),
      run_bind_of ((run_pmemobjOpen ..).trans (if_pos ho))]
    exact run_bind_of (run_pmemobjRoot _ hfresh)

/-- A file that can be neither made nor opened changes nothing. -/
lemma run_openFile_of_not (h : ¬F.Available path poolSize) :
    run F.exec (openFile path poolSize) o = .done none o := by
  obtain ⟨hc, ho⟩ := not_or.mp h
  unfold openFile
  rw [run_bind_of ((run_pmemobjCreate ..).trans (if_neg hc)),
    run_bind_of ((run_pmemobjOpen ..).trans (if_neg ho))]
  rfl

/-! ## All files -/

/-- What holds in the loop when `i` pools are open, `n` are not, and `first` pools were opened
before the loop. -/
structure Opening (F : PoolFiles) (path : String) (first i n : ℕ) (pools : List PoolSlot)
    (o : OpenPools) : Prop where
  /-- The array describes the pools that are open. -/
  pools_eq : pools = o.live.map F.slot ++ List.replicate n PoolSlot.null
  /-- They are those of the first files. -/
  files : o.live.map Prod.snd = (List.range i).map (poolPath path)
  /-- They were opened one after the other. -/
  serials : o.live.map (fun x => x.1.serial) = List.range' first i
  /-- They are mapped where the library says. -/
  addr_eq : ∀ x ∈ o.live, x.1.addr = F.addr x.1.serial x.2
  /-- No more pools were opened. -/
  serial_eq : o.serial = first + i

variable {first : ℕ}

lemma Opening.length_live (h : Opening F path first i n pools o) : o.live.length = i := by
  have hlen := congrArg List.length h.files
  simpa using hlen

/-- The number of the next pool is new. -/
lemma Opening.fresh (h : Opening F path first i n pools o) :
    ∀ x ∈ o.live, x.1.serial < o.serial := by
  intro x hx
  have hmem : x.1.serial ∈ List.range' first i := by
    rw [← h.serials]
    exact List.mem_map_of_mem hx
  obtain ⟨-, hlt⟩ := List.mem_range'_1.mp hmem
  rw [h.serial_eq]
  exact hlt

/-- One round of the loop opens the next pool. -/
lemma Opening.step (h : Opening F path first i (n + 1) pools o) :
    Opening F path first (i + 1) n
      (pools.set i ⟨some (F.next o (poolPath path i)), F.uuidLo (poolPath path i),
        (F.next o (poolPath path i)).addr⟩)
      (F.opened o (poolPath path i)) := by
  constructor
  · rw [h.pools_eq, List.replicate_succ, List.set_append_right _ _ (by simp [h.length_live])]
    simp [h.length_live, opened, slot]
  · simp [opened, h.files, List.range_succ]
  · simp [opened, h.serials, List.range'_concat, next, h.serial_eq]
  · intro x hx
    rcases List.mem_append.mp hx with hx | hx
    · exact h.addr_eq x hx
    · rw [List.mem_singleton.mp hx]
      rfl
  · simp [opened, h.serial_eq, Nat.add_assoc]

/-- `delete[]` closes the pools that are open. -/
lemma Opening.run_deletePools (h : Opening F path first i n pools o) :
    run F.exec (deletePools pools) o =
      .done () { o with live := [], closed := o.closed ++ (o.live.map Prod.fst).reverse } := by
  have hlive : o.live.filter (fun x => x.1 ∉ o.live.map Prod.fst) = [] := by
    rw [List.filter_eq_nil_iff]
    intro x hx hnot
    exact of_decide_eq_true hnot (List.mem_map_of_mem hx)
  rw [h.pools_eq, PoolFiles.run_deletePools, hlive]

/-- The loop opens all files if that is possible. -/
lemma run_openFiles_of (h : Opening F path first i n pools o)
    (hfiles : ∀ k < n, F.Available (poolPath path (i + k)) poolSize) :
    ∃ pools' o', run F.exec (openFiles path poolSize n i pools) o = .done (some pools') o' ∧
      Opening F path first (i + n) 0 pools' o' ∧ o'.closed = o.closed := by
  induction n generalizing i pools o with
  | zero => exact ⟨pools, o, rfl, h, rfl⟩
  | succ n ih =>
    have hfile := run_openFile_of (hfiles 0 n.succ_pos) h.fresh
    rw [Nat.add_zero] at hfile
    obtain ⟨pools', o', hrun, hopen, hclosed⟩ := ih h.step fun k hk => by
      rw [Nat.add_right_comm i 1 k]
      exact hfiles (k + 1) (by omega)
    refine ⟨pools', o', ?_, ?_, hclosed⟩
    · rw [openFiles, run_bind_of hfile]
      exact hrun
    · rw [← Nat.add_assoc, Nat.add_right_comm]
      exact hopen

/-- Otherwise it closes the pools that it opened, each of them once. -/
lemma run_openFiles_of_not (h : Opening F path first i n pools o)
    (hfile : ∃ k < n, ¬F.Available (poolPath path (i + k)) poolSize) :
    ∃ o' closed, run F.exec (openFiles path poolSize n i pools) o = .done none o' ∧ o'.live = [] ∧
      o'.closed = o.closed ++ closed ∧ first ≤ o'.serial ∧
      closed.map (fun pool => pool.serial) = (List.range' first (o'.serial - first)).reverse := by
  induction n generalizing i pools o with
  | zero =>
    obtain ⟨k, hk, -⟩ := hfile
    exact absurd hk (Nat.not_lt_zero k)
  | succ n ih =>
    by_cases havail : F.Available (poolPath path i) poolSize
    · have hrest : ∃ k < n, ¬F.Available (poolPath path (i + 1 + k)) poolSize := by
        obtain ⟨_ | k, hk, hnot⟩ := hfile
        · exact absurd havail hnot
        · refine ⟨k, Nat.lt_of_succ_lt_succ hk, ?_⟩
          rwa [Nat.add_right_comm i 1 k]
      obtain ⟨o', closed, hrun, hlive⟩ := ih h.step hrest
      refine ⟨o', closed, ?_, hlive⟩
      rw [openFiles, run_bind_of (run_openFile_of havail h.fresh)]
      exact hrun
    · refine ⟨{ o with live := [], closed := o.closed ++ (o.live.map Prod.fst).reverse },
        (o.live.map Prod.fst).reverse, ?_, rfl, rfl, ?_, ?_⟩
      · rw [openFiles, run_bind_of (run_openFile_of_not havail), run_bind_of h.run_deletePools]
        rfl
      · rw [h.serial_eq]
        exact Nat.le_add_right first i
      · rw [List.map_reverse, List.map_map, h.serial_eq, Nat.add_sub_cancel_left, ← h.serials]
        rfl

/-! ## Opening -/

/-- `KVSOpen` has opened the pools, and nothing else; `o` is what was open before. -/
structure AllOpen (F : PoolFiles) (path : String) (count : ℕ) (v : PoolVars) (o o' : OpenPools) :
    Prop where
  /-- There are that many entries. -/
  pools : ∃ pools, v.pools = some pools ∧ pools.length = count
  /-- Each entry describes its file, the pool of which is open. -/
  entry : ∀ i < count, ∃ pool, o'.live[i]? = some (pool, poolPath path i) ∧
    ∃ pools, v.pools = some pools ∧
      pools[i]? = some ⟨some pool, F.uuidLo (poolPath path i), pool.addr⟩
  /-- The pools are mapped where the library says. -/
  addr_eq : ∀ x ∈ o'.live, x.1.addr = F.addr x.1.serial x.2
  /-- `pool_count_` is their number. -/
  poolCount_eq : v.poolCount = count
  /-- No other pool is open. -/
  length_live : o'.live.length = count
  /-- No pool is open twice. -/
  nodup : (o'.live.map Prod.fst).Nodup
  /-- No pool was closed. -/
  closed_eq : o'.closed = o.closed
  /-- `KVSEnabled` returns `true`. -/
  enabled : kvsEnabled v = true

/-- `KVSOpen` has left nothing open. -/
structure NoneOpen (v : PoolVars) (o o' : OpenPools) : Prop where
  /-- No pool is open. -/
  live_eq : o'.live = []
  /-- Each pool that was opened was closed once, and no other pool was. -/
  closed_once : ∃ closed, o'.closed = o.closed ++ closed ∧
    (closed.map fun pool => pool.serial).Perm (List.range' o.serial (o'.serial - o.serial))
  /-- `KVSEnabled` returns `false`. -/
  disabled : kvsEnabled v = false

variable {v : PoolVars} {size count : ℕ}

/-- What holds before the loop. -/
lemma opening_start (hlive : o.live = []) :
    Opening F path o.serial 0 count (List.replicate count PoolSlot.null) o := by
  constructor <;> simp [hlive]

/-- What holds after the loop. -/
lemma Opening.allOpen {o' : OpenPools} (h : Opening F path first count 0 pools o')
    (hclosed : o'.closed = o.closed) (hpools : v.pools = some pools)
    (hcount : v.poolCount = count) :
    AllOpen F path count v o o' := by
  have hmap : pools = o'.live.map F.slot := by simpa using h.pools_eq
  refine ⟨⟨pools, hpools, ?_⟩, fun i hi => ?_, h.addr_eq, hcount, h.length_live, ?_, hclosed, ?_⟩
  · rw [hmap, List.length_map, h.length_live]
  · have hlt : i < o'.live.length := by rwa [h.length_live]
    have hget := List.getElem?_eq_getElem hlt
    have hfile : (o'.live[i]).2 = poolPath path i := by
      have hi' := congrArg (fun l => l[i]?) h.files
      simpa [hget, hi] using hi'
    refine ⟨(o'.live[i]).1, ?_, pools, hpools, ?_⟩
    · rw [hget, ← hfile]
    · rw [hmap, List.getElem?_map, hget, ← hfile]
      rfl
  · have hserials : ((o'.live.map Prod.fst).map fun pool => pool.serial).Nodup := by
      rw [List.map_map]
      exact h.serials ▸ List.nodup_range'
    exact hserials.of_map _
  · rw [kvsEnabled, hpools]
    rfl

/-- If each file can be made or opened, `KVSOpen` opens all pools. -/
lemma run_openPools_of (hcount : 1 ≤ count) (hnone : v.pools = none) (hlive : o.live = [])
    (hfiles : ∀ i < count, F.Available (poolPath path i) (size / count)) :
    ∃ v' o', run F.exec (openPools path size count v) o = .done (0, v') o' ∧
      AllOpen F path count v' o o' := by
  have hstart : Opening F path o.serial 0 count (List.replicate count PoolSlot.null) o :=
    opening_start hlive
  have hall : ∀ k < count, F.Available (poolPath path (0 + k)) (size / count) := by
    simpa only [Nat.zero_add] using hfiles
  obtain ⟨pools, o', hrun, hopen, hclosed⟩ := run_openFiles_of hstart hall
  rw [Nat.zero_add] at hopen
  refine ⟨⟨some pools, count, size / 10⟩, o', ?_, hopen.allOpen hclosed rfl rfl⟩
  unfold openPools
  rw [check_bind_of (by rw [hnone]; rfl), check_bind_of (decide_eq_true (by omega)),
    run_bind_of hrun]
  rfl

/-- Otherwise it leaves none open. -/
lemma run_openPools_of_not (hcount : 1 ≤ count) (hnone : v.pools = none) (hlive : o.live = [])
    (hfile : ∃ i < count, ¬F.Available (poolPath path i) (size / count)) :
    ∃ o', run F.exec (openPools path size count v) o =
        .done (-eio, { v with pools := none, poolCount := count }) o' ∧
      NoneOpen { v with pools := none, poolCount := count } o o' := by
  have hstart : Opening F path o.serial 0 count (List.replicate count PoolSlot.null) o :=
    opening_start hlive
  have hnone' : ∃ k < count, ¬F.Available (poolPath path (0 + k)) (size / count) := by
    simpa only [Nat.zero_add] using hfile
  obtain ⟨o', closed, hrun, hlive', hclosed, -, hserials⟩ := run_openFiles_of_not hstart hnone'
  refine ⟨o', ?_, hlive', ⟨closed, hclosed, ?_⟩, rfl⟩
  · unfold openPools
    rw [check_bind_of (by rw [hnone]; rfl), check_bind_of (decide_eq_true (by omega)),
      run_bind_of hrun]
    rfl
  · rw [hserials]
    exact List.reverse_perm _

/-- **`KVSOpen` opens all pools or none.**  Which of the two happens only depends on whether each
file can be made or opened.  After a failure the next call is admitted, and succeeds if each file
can then be made or opened. -/
theorem openPools_all_or_nothing (F : PoolFiles) (path : String) (size count : ℕ) (v : PoolVars)
    (o : OpenPools) (hcount : 1 ≤ count) (hnone : v.pools = none) (hlive : o.live = []) :
    ∃ ret v' o', run F.exec (openPools path size count v) o = .done (ret, v') o' ∧
      ((∀ i < count, F.Available (poolPath path i) (size / count)) ↔ ret = 0) ∧
      (ret = 0 ∧ AllOpen F path count v' o o' ∨
        ret = -eio ∧ NoneOpen v' o o' ∧
          ∀ F' : PoolFiles, (∀ i < count, F'.Available (poolPath path i) (size / count)) →
            ∃ v'' o'', run F'.exec (openPools path size count v') o' = .done (0, v'') o'' ∧
              AllOpen F' path count v'' o' o'') := by
  by_cases hfiles : ∀ i < count, F.Available (poolPath path i) (size / count)
  · obtain ⟨v', o', hrun, hopen⟩ := run_openPools_of hcount hnone hlive hfiles
    exact ⟨0, v', o', hrun, iff_of_true hfiles rfl, Or.inl ⟨rfl, hopen⟩⟩
  · have hfile : ∃ i < count, ¬F.Available (poolPath path i) (size / count) := by
      push Not at hfiles
      exact hfiles
    obtain ⟨o', hrun, hopen⟩ := run_openPools_of_not hcount hnone hlive hfile
    refine ⟨-eio, _, o', hrun, iff_of_false hfiles (by decide), Or.inr ⟨rfl, hopen, ?_⟩⟩
    exact fun F' hfiles' => run_openPools_of hcount rfl hopen.live_eq hfiles'

/-- Files of which only the first can be made, and none can be opened. -/
def oneFile : PoolFiles where
  create path _ _ _ := path == poolPath "kv" 0
  canOpen _ _ := false
  addr serial _ := 2 ^ 23 * serial
  uuidLo _ := 7

/-- The second of two pools cannot be opened, and the first is closed. -/
theorem openPools_all_or_nothing_oneFile :
    ∃ ret v' o', run oneFile.exec (openPools "kv" (2 ^ 24) 2 ⟨none, 0, 0⟩) ⟨[], [], 0⟩ =
        .done (ret, v') o' ∧
      ((∀ i < 2, oneFile.Available (poolPath "kv" i) (2 ^ 24 / 2)) ↔ ret = 0) ∧
      (ret = 0 ∧ AllOpen oneFile "kv" 2 v' ⟨[], [], 0⟩ o' ∨
        ret = -eio ∧ NoneOpen v' ⟨[], [], 0⟩ o' ∧
          ∀ F' : PoolFiles, (∀ i < 2, F'.Available (poolPath "kv" i) (2 ^ 24 / 2)) →
            ∃ v'' o'', run F'.exec (openPools "kv" (2 ^ 24) 2 v') o' = .done (0, v'') o'' ∧
              AllOpen F' "kv" 2 v'' o' o'') :=
  openPools_all_or_nothing oneFile "kv" (2 ^ 24) 2 ⟨none, 0, 0⟩ ⟨[], [], 0⟩ (by decide) rfl rfl

/-- `KVSCLose` closes the pools that `KVSOpen` opened. -/
theorem run_closePools {o' : OpenPools} (h : Opening F path first count 0 pools o')
    (hpools : v.pools = some pools) :
    run F.exec (closePools v) o' = .done { v with pools := none }
      { o' with live := [], closed := o'.closed ++ (o'.live.map Prod.fst).reverse } := by
  simp only [closePools, hpools]
  rw [run_bind_of h.run_deletePools]
  rfl

/-! ## The other model -/

/-- The files are as in a call of the other model. -/
structure Agrees (F : PoolFiles) (L : Libraries) (t e : ℕ) (path : String) : Prop where
  /-- The same files can be made. -/
  create_eq : ∀ i size, F.create (poolPath path i) poolLayout size 0o666 = L.create t i size
  /-- The same files can be opened. -/
  canOpen_eq : ∀ i, F.canOpen (poolPath path i) poolLayout = L.openPool t i
  /-- The pools have the same identifiers. -/
  uuidLo_eq : ∀ i, F.uuidLo (poolPath path i) = L.uuidLo i
  /-- They are mapped at the same addresses. -/
  addr_eq : ∀ serial i, F.addr serial (poolPath path i) = L.addr e i

/-- The two tables of the pools are the same. -/
structure SameTable (v : PoolVars) (s : KVSState) : Prop where
  /-- One is `nullptr` if the other is. -/
  isSome_eq : v.pools.isSome = s.pools.isSome
  /-- They have the same length. -/
  poolCount_eq : v.poolCount = s.poolCount
  /-- They have the same entries. -/
  entry : ∀ slots pools, v.pools = some slots → s.pools = some pools → ∀ i < s.poolCount,
    ∃ pool, slots[i]? = some ⟨some pool, (pools i).uuidLo, (pools i).baseAddr⟩

variable {L : Libraries} {t e : ℕ}

/-- Files can be chosen so that a call of the other model is followed. -/
lemma exists_agrees (L : Libraries) (t e : ℕ) (path : String) : ∃ F, Agrees F L t e path := by
  classical
  -- the number of a file
  let index : String → ℕ := Function.invFun (poolPath path)
  have hindex : ∀ i, index (poolPath path i) = i :=
    Function.leftInverse_invFun (poolPath_injective path)
  refine ⟨⟨fun p _ size _ => L.create t (index p) size, fun p _ => L.openPool t (index p),
    fun _ p => L.addr e (index p), fun p => L.uuidLo (index p)⟩, ?_⟩
  constructor <;> simp [hindex]

/-- The loop of the other model opens all pools if each file can be made or opened. -/
lemma isSome_openLoop_iff {pools : ℕ → Pool} :
    (L.openLoop t e poolSize n i pools).isSome = true ↔
      ∀ k < n, L.create t (i + k) poolSize = true ∨ L.openPool t (i + k) = true := by
  induction n generalizing i pools with
  | zero => exact iff_of_true rfl fun k hk => absurd hk (Nat.not_lt_zero k)
  | succ n ih =>
    rw [Nat.forall_lt_succ_left]
    unfold Libraries.openLoop
    split
    · next h =>
      rw [ih, Nat.add_zero]
      simp only [Nat.add_assoc, Nat.add_comm 1]
      exact (and_iff_right (by simpa using h)).symm
    · next h => exact iff_of_false (by simp) fun hall => h (by simpa using hall.1)

/-- **The two models of `KVSOpen` agree**: they return the same, with the same table of the
pools. -/
theorem openPools_agrees {s s' : KVSState} {b : Bool} {ret : ℤ} {v' : PoolVars} {o' : OpenPools}
    (h : Agrees F L (s.tries + 1) (s.opens + 1) path) (hcount : 1 ≤ count)
    (hs : s.pools.isNone = true) (hv : v.pools = none) (hlive : o.live = [])
    (hrun : run F.exec (openPools path size count v) o = .done (ret, v') o')
    (hkvs : L.kvsOpen size count s = .ok (b, s')) :
    (b = true ↔ ret = 0) ∧ SameTable v' s' := by
  have havail : ∀ i, F.Available (poolPath path i) (size / count) ↔
      L.create (s.tries + 1) i (size / count) = true ∨ L.openPool (s.tries + 1) i = true := by
    intro i
    rw [Available, h.create_eq, h.canOpen_eq]
  have hiff : (L.openLoop (s.tries + 1) (s.opens + 1) (size / count) count 0
      fun _ => ⟨0, 0⟩).isSome = true ↔
        ∀ i < count, F.Available (poolPath path i) (size / count) := by
    rw [isSome_openLoop_iff]
    simp only [Nat.zero_add, havail]
  simp only [Libraries.kvsOpen, require, hs, if_pos, bind, Except.bind] at hkvs
  rw [if_pos (by omega)] at hkvs
  cases hloop : L.openLoop (s.tries + 1) (s.opens + 1) (size / count) count 0 fun _ => ⟨0, 0⟩ with
  | none =>
    rw [hloop] at hiff hkvs
    cases hkvs
    have hfile : ∃ i < count, ¬F.Available (poolPath path i) (size / count) := by
      by_contra hall
      push Not at hall
      exact absurd (hiff.mpr hall) (by simp)
    obtain ⟨o₁, hrun₁, -⟩ := run_openPools_of_not (v := v) hcount hv hlive hfile
    rw [hrun] at hrun₁
    cases hrun₁
    refine ⟨iff_of_false (by decide) (by decide), ?_, rfl, fun slots _ hslots => ?_⟩
    · exact (Option.isNone_iff_eq_none.mp hs ▸ rfl)
    · cases hslots
  | some pools =>
    rw [hloop] at hiff hkvs
    cases hkvs
    obtain ⟨v₁, o₁, hrun₁, hopen⟩ := run_openPools_of (v := v) hcount hv hlive (hiff.mp rfl)
    rw [hrun] at hrun₁
    cases hrun₁
    refine ⟨iff_of_true rfl rfl, hopen.enabled, hopen.poolCount_eq, ?_⟩
    intro slots pools' hslots hpools i hi
    have hlt : i < 0 + count := by rwa [Nat.zero_add]
    cases hpools
    obtain ⟨pool, hlivei, slots', hslots', hslot⟩ := hopen.entry i hi
    rw [hslots] at hslots'
    cases hslots'
    have haddr : pool.addr = L.addr (s.opens + 1) i := by
      have heq := hopen.addr_eq _ (List.mem_of_getElem? hlivei)
      simp only at heq
      rw [heq, h.addr_eq]
    refine ⟨pool, ?_⟩
    rw [hslot, L.openLoop_some hloop i, if_pos ⟨Nat.zero_le i, hlt⟩, h.uuidLo_eq, haddr]

end PoolFiles

end PmemKv
