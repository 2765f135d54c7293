import PmemKv.SkipList.Memory

/-!
# Insertion into an inline skip list

The source functions `FindSpliceForLevel`, `RecomputeSpliceLevels`, `Insert<UseCAS>`, `Insert` and
`InsertConcurrently`, as programs over the link words.

A `Splice` is the caller's memory of a position: per level a node before the key and the node
behind it.  Its two arrays are read and written under a bounds check, and the entries that were
never written hold whatever the memory held.  Every loop of the source carries a fuel.
-/

namespace PmemKv

open AtomicProg AtomicProg.Prog

/-! ## Atomic accesses -/

section Accesses

variable {Node : Type}

/-- `n->Next(level)`. -/
def next (n : Node) (level : ℕ) : ListProg Node (Option Node) := .step (.next n level) .done

/-- `n->SetNext(level, x)`. -/
def setNext (n : Node) (level : ℕ) (x : Option Node) : ListProg Node Unit :=
  .step (.setNext n level x) .done

/-- `n->CASNext(level, expected, x)`. -/
def casNext (n : Node) (level : ℕ) (expected x : Option Node) : ListProg Node Bool :=
  .step (.casNext n level expected x) .done

/-- `max_height_.load()`, which is also `GetMaxHeight()`. -/
def getMaxHeight : ListProg Node ℕ := .step .loadMaxHeight .done

/-- `max_height_.compare_exchange_weak(expected, desired)`. -/
def casMaxHeight (expected desired : ℕ) : ListProg Node (Bool × ℕ) :=
  .step (.casMaxHeight expected desired) .done

end Accesses

/-! ## Splices -/

/-- A `Splice`, with the common length of its two arrays. -/
structure Splice (Node : Type) where
  /-- `height_`; `0` marks a splice that holds nothing. -/
  height : ℕ
  /-- `prev_`. -/
  prev : ℕ → Node
  /-- `next_`. -/
  next : ℕ → Option Node
  /-- The length of the arrays `prev_` and `next_`. -/
  size : ℕ

namespace Splice

variable {Node : Type}

/-- Read `prev_[i]`. -/
def readPrev (splice : Splice Node) (i : ℕ) : ListProg Node Node :=
  if i < splice.size then pure (splice.prev i) else .fault

/-- Read `next_[i]`. -/
def readNext (splice : Splice Node) (i : ℕ) : ListProg Node (Option Node) :=
  if i < splice.size then pure (splice.next i) else .fault

/-- Write `prev_[i]`. -/
def writePrev (splice : Splice Node) (i : ℕ) (p : Node) : ListProg Node (Splice Node) :=
  if i < splice.size then pure { splice with prev := Function.update splice.prev i p } else .fault

/-- Write `next_[i]`. -/
def writeNext (splice : Splice Node) (i : ℕ) (n : Option Node) : ListProg Node (Splice Node) :=
  if i < splice.size then pure { splice with next := Function.update splice.next i n } else .fault

/-- The splice with both entries of one level replaced. -/
def setLevel (splice : Splice Node) (i : ℕ) (p : Node) (n : Option Node) : Splice Node :=
  { splice with
    prev := Function.update splice.prev i p
    next := Function.update splice.next i n }

/-- Write `prev_[i]` and `next_[i]`. -/
def writeLevel (splice : Splice Node) (i : ℕ) (p : Node) (n : Option Node) :
    ListProg Node (Splice Node) := do
  let splice ← splice.writePrev i p
  splice.writeNext i n

variable {splice : Splice Node} {i : ℕ}

lemma readPrev_of_lt (h : i < splice.size) : splice.readPrev i = .done (splice.prev i) := if_pos h

lemma readNext_of_lt (h : i < splice.size) : splice.readNext i = .done (splice.next i) := if_pos h

lemma writePrev_of_lt (h : i < splice.size) (p : Node) :
    splice.writePrev i p = .done { splice with prev := Function.update splice.prev i p } := if_pos h

lemma writeLevel_of_lt (h : i < splice.size) (p : Node) (n : Option Node) :
    splice.writeLevel i p n = .done (splice.setLevel i p n) := by
  simp [writeLevel, writePrev_of_lt h, writeNext, h, setLevel]

@[simp] lemma setLevel_size (splice : Splice Node) (i : ℕ) (p : Node) (n : Option Node) :
    (splice.setLevel i p n).size = splice.size := rfl

@[simp] lemma setLevel_height (splice : Splice Node) (i : ℕ) (p : Node) (n : Option Node) :
    (splice.setLevel i p n).height = splice.height := rfl

lemma setLevel_prev (splice : Splice Node) (i j : ℕ) (p : Node) (n : Option Node) :
    (splice.setLevel i p n).prev j = if j = i then p else splice.prev j := by
  simp [setLevel, Function.update_apply]

lemma setLevel_next (splice : Splice Node) (i j : ℕ) (p : Node) (n : Option Node) :
    (splice.setLevel i p n).next j = if j = i then n else splice.next j := by
  simp [setLevel, Function.update_apply]

end Splice

namespace InlineSkipList

variable {Key DecodedKey Node : Type} [DecidableEq Node] (L : InlineSkipList Key DecodedKey Node)

/-- `AllocateSplice`: an empty splice whose arrays hold what the memory held. -/
def allocateSplice (prev : ℕ → Node) (next : ℕ → Option Node) : Splice Node :=
  ⟨0, prev, next, L.kMaxHeight + 1⟩

/-- The splice on the stack of `InsertConcurrently`. -/
def stackSplice (prev : ℕ → Node) (next : ℕ → Option Node) : Splice Node :=
  ⟨0, prev, next, kMaxPossibleHeight⟩

/-- The assertion that a node and the next one are in order. -/
def isSorted (x : Node) (nxt : Option Node) : Bool :=
  x = L.head || nxt.isNone || nxt.any fun n => L.keyIsAfterNodeRaw (L.key n) (some x)

/-- `FindSpliceForLevel`. -/
def findSpliceForLevel (key : DecodedKey) (after : Option Node) (level : ℕ) :
    ℕ → Node → ListProg Node (Node × Option Node)
  | 0, _ => .exhausted
  | fuel + 1, before => do
    let nxt ← next before level
    check (L.isSorted before nxt)
    check (before = L.head || L.keyIsAfterNode key (some before))
    if nxt = after || !L.keyIsAfterNode key nxt then
      pure (before, nxt)
    else
      match nxt with
      | some n => findSpliceForLevel key after level fuel n
      | none => .fault

/-- The loop of `RecomputeSpliceLevels`, from the level below `recompute_level` downwards. -/
def recomputeLoop (fuel : ℕ) (key : DecodedKey) : ℕ → Splice Node → ListProg Node (Splice Node)
  | 0, splice => pure splice
  | i + 1, splice => do
    let before ← splice.readPrev (i + 1)
    let after ← splice.readNext (i + 1)
    let r ← L.findSpliceForLevel key after i fuel before
    let splice ← splice.writeLevel i r.1 r.2
    recomputeLoop fuel key i splice

/-- `RecomputeSpliceLevels`. -/
def recomputeSpliceLevels (fuel : ℕ) (key : DecodedKey) (splice : Splice Node)
    (recomputeLevel : ℕ) : ListProg Node (Splice Node) := do
  check (0 < recomputeLevel)
  check (recomputeLevel ≤ splice.height)
  L.recomputeLoop fuel key recomputeLevel splice

/-! ## `Insert<UseCAS>` -/

/-- Raise `max_height_` to the height of the new node; the weak compare-exchange reloads the
current height when it fails. -/
def raiseMaxHeight (height : ℕ) : ℕ → ℕ → ListProg Node ℕ
  | 0, _ => .exhausted
  | fuel + 1, maxHeight =>
    if maxHeight < height then do
      let r ← casMaxHeight maxHeight height
      if r.1 then pure height else raiseMaxHeight height fuel r.2
    else pure maxHeight

/-- `while (splice->prev_[recompute_height] == bad) ++recompute_height`. -/
def skipPrev (splice : Splice Node) (bad : Node) : ℕ → ℕ → ListProg Node ℕ
  | 0, _ => .exhausted
  | fuel + 1, recomputeHeight => do
    let p ← splice.readPrev recomputeHeight
    if p = bad then skipPrev splice bad fuel (recomputeHeight + 1) else pure recomputeHeight

/-- `while (splice->next_[recompute_height] == bad) ++recompute_height`. -/
def skipNext (splice : Splice Node) (bad : Option Node) : ℕ → ℕ → ListProg Node ℕ
  | 0, _ => .exhausted
  | fuel + 1, recomputeHeight => do
    let n ← splice.readNext recomputeHeight
    if n = bad then skipNext splice bad fuel (recomputeHeight + 1) else pure recomputeHeight

/-- The validation of a splice of full height: `recompute_height` moves up until a level is tight
and brackets the key. -/
def validateSplice (key : DecodedKey) (splice : Splice Node) (maxHeight : ℕ)
    (allowPartialSpliceFix : Bool) : ℕ → ℕ → ListProg Node ℕ
  | 0, _ => .exhausted
  | fuel + 1, recomputeHeight =>
    if recomputeHeight < maxHeight then do
      let p ← splice.readPrev recomputeHeight
      let n ← splice.readNext recomputeHeight
      let nxt ← next p recomputeHeight
      if nxt ≠ n then
        validateSplice key splice maxHeight allowPartialSpliceFix fuel (recomputeHeight + 1)
      else if p ≠ L.head && !L.keyIsAfterNode key (some p) then
        -- the key is from before the splice
        if allowPartialSpliceFix then do
          let recomputeHeight ← skipPrev splice p fuel recomputeHeight
          validateSplice key splice maxHeight allowPartialSpliceFix fuel recomputeHeight
        else validateSplice key splice maxHeight allowPartialSpliceFix fuel maxHeight
      else if L.keyIsAfterNode key n then
        -- the key is from after the splice
        if allowPartialSpliceFix then do
          let recomputeHeight ← skipNext splice n fuel recomputeHeight
          validateSplice key splice maxHeight allowPartialSpliceFix fuel recomputeHeight
        else validateSplice key splice maxHeight allowPartialSpliceFix fuel maxHeight
      else pure recomputeHeight
    else pure recomputeHeight

/-- The splice as `Insert` is going to use it, and `recompute_height`: a splice that was never used
or is older than the present height is reset, any other is validated. -/
def prepareSplice (fuel : ℕ) (key : DecodedKey) (splice : Splice Node) (maxHeight : ℕ)
    (allowPartialSpliceFix : Bool) : ListProg Node (Splice Node × ℕ) :=
  if splice.height < maxHeight then do
    let splice ← splice.writeLevel maxHeight L.head none
    pure ({ splice with height := maxHeight }, maxHeight)
  else do
    let recomputeHeight ← L.validateSplice key splice maxHeight allowPartialSpliceFix fuel 0
    pure (splice, recomputeHeight)

/-- The two duplicate tests that `Insert` makes on level `0`. -/
def isDuplicate (x p : Node) (n : Option Node) : Bool :=
  (n.any fun n => 0 ≤ L.cmp.compare (L.key x) (L.key n)) ||
    (p ≠ L.head && 0 ≤ L.cmp.compare (L.key p) (L.key x))

/-- The two assertions that the new node lies strictly between its neighbours. -/
def inOrder (x p : Node) (n : Option Node) : Bool :=
  (n.all fun n => L.cmp.compare (L.key x) (L.key n) < 0) &&
    (p = L.head || L.cmp.compare (L.key p) (L.key x) < 0)

/-- What linking one level leaves behind: whether the node was linked (and not found to be a
duplicate), the splice, and `splice_is_valid`. -/
abbrev LevelResult (Node : Type) : Type := Bool × Splice Node × Bool

/-- One level of the `UseCAS` branch: retry until the compare-and-swap of the predecessor's link
succeeds. -/
def linkLevelCAS (x : Node) (key : DecodedKey) (i : ℕ) :
    ℕ → Splice Node → Bool → ListProg Node (LevelResult Node)
  | 0, _, _ => .exhausted
  | fuel + 1, splice, spliceIsValid => do
    let n ← splice.readNext i
    let p ← splice.readPrev i
    if i = 0 && L.isDuplicate x p n then
      pure (false, splice, spliceIsValid)
    else do
      check (L.inOrder x p n)
      setNext x i n
      let success ← casNext p i n (some x)
      if success then
        pure (true, splice, spliceIsValid)
      else do
        let r ← L.findSpliceForLevel key none i fuel p
        let splice ← splice.writeLevel i r.1 r.2
        linkLevelCAS x key i fuel splice (if 0 < i then false else spliceIsValid)

/-- The repair of one level in the branch without compare-and-swap. -/
def repairLevel (fuel : ℕ) (key : DecodedKey) (recomputeHeight i : ℕ) (splice : Splice Node) :
    ListProg Node (Splice Node) :=
  if recomputeHeight ≤ i then do
    let p ← splice.readPrev i
    let n ← splice.readNext i
    let nxt ← next p i
    if nxt ≠ n then do
      let r ← L.findSpliceForLevel key none i fuel p
      splice.writeLevel i r.1 r.2
    else pure splice
  else pure splice

/-- One level of the branch without compare-and-swap. -/
def linkLevel (fuel : ℕ) (x : Node) (key : DecodedKey) (recomputeHeight i : ℕ)
    (splice : Splice Node) (spliceIsValid : Bool) : ListProg Node (LevelResult Node) := do
  let splice ← L.repairLevel fuel key recomputeHeight i splice
  let n ← splice.readNext i
  let p ← splice.readPrev i
  if i = 0 && L.isDuplicate x p n then
    pure (false, splice, spliceIsValid)
  else do
    check (L.inOrder x p n)
    let nxt ← next p i
    check (nxt = n)
    setNext x i n
    setNext p i (some x)
    pure (true, splice, spliceIsValid)

/-- `for (int i = …; i < height; ++i)` over the levels to link, left at a duplicate. -/
def forLevels (body : ℕ → Splice Node → Bool → ListProg Node (LevelResult Node)) :
    ℕ → ℕ → Splice Node → Bool → ListProg Node (LevelResult Node)
  | 0, _, splice, spliceIsValid => pure (true, splice, spliceIsValid)
  | levels + 1, i, splice, spliceIsValid => do
    let r ← body i splice spliceIsValid
    if r.1 then forLevels body levels (i + 1) r.2.1 r.2.2 else pure r

/-- `for (int i = 0; i < height; ++i) splice->prev_[i] = x`. -/
def ownLevels (x : Node) : ℕ → Splice Node → ListProg Node (Splice Node)
  | 0, splice => pure splice
  | i + 1, splice => do
    let splice ← ownLevels x i splice
    splice.writePrev i x

/-- The assertions on level `i` of the splice after a successful insertion. -/
def levelInvariant (x : Node) (splice : Splice Node) (i : ℕ) : Bool :=
  (splice.next i).all (fun n => L.cmp.compare (L.key x) (L.key n) < 0) &&
  (splice.prev i = L.head || L.cmp.compare (L.key (splice.prev i)) (L.key x) ≤ 0) &&
  (splice.prev (i + 1) = splice.prev i || splice.prev (i + 1) = L.head ||
    L.cmp.compare (L.key (splice.prev (i + 1))) (L.key (splice.prev i)) < 0) &&
  (splice.next (i + 1) = splice.next i ||
    (splice.next (i + 1)).all fun b =>
      (splice.next i).any fun a => L.cmp.compare (L.key a) (L.key b) < 0)

/-- The end of a successful insertion: the new node becomes the predecessor on its own levels, or a
splice whose nesting may be broken is given up. -/
def finishSplice (x : Node) (height : ℕ) (splice : Splice Node) (spliceIsValid : Bool) :
    ListProg Node (Splice Node) :=
  if spliceIsValid then do
    let splice ← ownLevels x height splice
    let p ← splice.readPrev splice.height
    check (p = L.head)
    let n ← splice.readNext splice.height
    check (n = none)
    check ((List.range splice.height).all fun i => L.levelInvariant x splice i)
    pure splice
  else pure { splice with height := 0 }

/-- `Insert<UseCAS>(key, splice, allow_partial_splice_fix)`, where `x` is the node that `key`
belongs to.  The splice is passed by reference in the source and returned here. -/
def insertWithSplice (fuel : ℕ) (useCAS : Bool) (x : Node) (splice : Splice Node)
    (allowPartialSpliceFix : Bool) : ListProg Node (Bool × Splice Node) := do
  let key := L.cmp.decodeKey (L.key x)
  let height := L.unstashHeight x
  check (1 ≤ height && height ≤ L.kMaxHeight)
  let maxHeight ← getMaxHeight
  let maxHeight ← raiseMaxHeight height fuel maxHeight
  check (maxHeight ≤ kMaxPossibleHeight)
  let r ← L.prepareSplice fuel key splice maxHeight allowPartialSpliceFix
  check (r.2 ≤ maxHeight)
  let splice ← (if 0 < r.2 then L.recomputeSpliceLevels fuel key r.1 r.2 else pure r.1)
  let body := fun i splice valid =>
    if useCAS then L.linkLevelCAS x key i fuel splice valid
    else L.linkLevel fuel x key r.2 i splice valid
  let l ← forLevels body height 0 splice true
  if l.1 then do
    let splice ← L.finishSplice x height l.2.1 l.2.2
    pure (true, splice)
  else pure (false, l.2.1)

/-- `Insert(key)`, which uses the list's own splice. -/
def insert (fuel : ℕ) (x : Node) (seqSplice : Splice Node) : ListProg Node (Bool × Splice Node) :=
  L.insertWithSplice fuel false x seqSplice false

/-- `InsertConcurrently(key)`, whose splice lives on the stack; `prev` and `next` are what the
uninitialised arrays hold. -/
def insertConcurrently (fuel : ℕ) (x : Node) (prev : ℕ → Node) (next : ℕ → Option Node) :
    ListProg Node Bool := do
  let r ← L.insertWithSplice fuel true x (stackSplice prev next) false
  pure r.1

end InlineSkipList

end PmemKv
