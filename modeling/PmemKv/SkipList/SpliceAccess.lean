import PmemKv.Library.ArrayAccess
import PmemKv.SkipList.Reachable

/-!
# The indices of a splice

`prev_` and `next_` are bare arrays: nothing in the source keeps an index inside them.  Here the
functions that access the entries of a splice are translated once more, without the bounds checks of
`Insert.lean`, and every access leaves its index behind.  The two translations agree as long as the
indices stay below the length of the arrays.

`AllocateSplice` makes room for `kMaxHeight_ + 1` entries, which is enough.  The arrays on the stack
of `InsertConcurrently` have `kMaxPossibleHeight` entries, while the sentinels are written at the
index `max_height_`: they are too short once the list has `kMaxPossibleHeight` levels.
-/

namespace PmemKv

open AtomicProg AtomicProg.Prog

/-- The programs that access the arrays of a splice. -/
abbrev SpliceProg (Node α : Type) : Type := IndexedProg (LinkOp Node) LinkOp.Ret α

/-! ## Accesses without bounds checks -/

namespace Splice

variable {Node : Type} (splice : Splice Node)

/-- Read `prev_[i]`. -/
def loadPrev (i : ℕ) : SpliceProg Node Node := do
  access i
  pure (splice.prev i)

/-- Read `next_[i]`. -/
def loadNext (i : ℕ) : SpliceProg Node (Option Node) := do
  access i
  pure (splice.next i)

/-- Write `prev_[i]`. -/
def storePrev (i : ℕ) (p : Node) : SpliceProg Node (Splice Node) := do
  access i
  pure { splice with prev := Function.update splice.prev i p }

/-- Write `next_[i]`. -/
def storeNext (i : ℕ) (n : Option Node) : SpliceProg Node (Splice Node) := do
  access i
  pure { splice with next := Function.update splice.next i n }

/-- Write `prev_[i]` and `next_[i]`. -/
def storeLevel (i : ℕ) (p : Node) (n : Option Node) : SpliceProg Node (Splice Node) := do
  let splice ← splice.storePrev i p
  splice.storeNext i n

variable {splice} {n i : ℕ}

lemma guards_loadPrev (h : splice.size = n) :
    Guards n (fun p => i < n ∧ p = splice.prev i) (splice.loadPrev i) (splice.readPrev i) := by
  subst h
  refine Guards.access (fun hi => ?_) fun hi => if_neg (not_lt.mpr hi)
  rw [readPrev_of_lt hi]
  exact .done _ ⟨hi, rfl⟩

lemma guards_loadNext (h : splice.size = n) :
    Guards n (fun m => i < n ∧ m = splice.next i) (splice.loadNext i) (splice.readNext i) := by
  subst h
  refine Guards.access (fun hi => ?_) fun hi => if_neg (not_lt.mpr hi)
  rw [readNext_of_lt hi]
  exact .done _ ⟨hi, rfl⟩

lemma guards_storePrev (h : splice.size = n) (p : Node) :
    Guards n (fun r => r.size = n) (splice.storePrev i p) (splice.writePrev i p) := by
  subst h
  refine Guards.access (fun hi => ?_) fun hi => if_neg (not_lt.mpr hi)
  rw [writePrev_of_lt hi]
  exact .done _ rfl

lemma guards_storeNext (h : splice.size = n) (m : Option Node) :
    Guards n (fun r => r.size = n) (splice.storeNext i m) (splice.writeNext i m) := by
  subst h
  refine Guards.access (fun hi => ?_) fun hi => if_neg (not_lt.mpr hi)
  rw [writeNext, if_pos hi]
  exact .done _ rfl

lemma guards_storeLevel (h : splice.size = n) (p : Node) (m : Option Node) :
    Guards n (fun r => r.size = n) (splice.storeLevel i p m) (splice.writeLevel i p m) :=
  (guards_storePrev h p).bind fun _ hr => guards_storeNext hr m

end Splice

/-- The splice of the call is on the stack. -/
def Entry.OnStack {Node ι : Type} : Entry Node ι → Prop
  | .insertConcurrently _ _ => True
  | .insert | .insertWithSplice _ _ _ => False

namespace InlineSkipList

/-! ## The source functions without bounds checks -/

namespace Raw

variable {Key DecodedKey Node : Type} [DecidableEq Node] (L : InlineSkipList Key DecodedKey Node)

/-- The loop of `RecomputeSpliceLevels`. -/
def recomputeLoop (fuel : ℕ) (key : DecodedKey) : ℕ → Splice Node → SpliceProg Node (Splice Node)
  | 0, splice => pure splice
  | i + 1, splice => do
    let before ← splice.loadPrev (i + 1)
    let after ← splice.loadNext (i + 1)
    let r ← lift (L.findSpliceForLevel key after i fuel before)
    let splice ← splice.storeLevel i r.1 r.2
    recomputeLoop fuel key i splice

/-- `RecomputeSpliceLevels`. -/
def recomputeSpliceLevels (fuel : ℕ) (key : DecodedKey) (splice : Splice Node)
    (recomputeLevel : ℕ) : SpliceProg Node (Splice Node) := do
  check (0 < recomputeLevel)
  check (recomputeLevel ≤ splice.height)
  recomputeLoop L fuel key recomputeLevel splice

/-- `while (splice->prev_[recompute_height] == bad) ++recompute_height`. -/
def skipPrev (splice : Splice Node) (bad : Node) : ℕ → ℕ → SpliceProg Node ℕ
  | 0, _ => .exhausted
  | fuel + 1, recomputeHeight => do
    let p ← splice.loadPrev recomputeHeight
    if p = bad then skipPrev splice bad fuel (recomputeHeight + 1) else pure recomputeHeight

/-- `while (splice->next_[recompute_height] == bad) ++recompute_height`. -/
def skipNext (splice : Splice Node) (bad : Option Node) : ℕ → ℕ → SpliceProg Node ℕ
  | 0, _ => .exhausted
  | fuel + 1, recomputeHeight => do
    let n ← splice.loadNext recomputeHeight
    if n = bad then skipNext splice bad fuel (recomputeHeight + 1) else pure recomputeHeight

/-- The validation of a splice of full height. -/
def validateSplice (key : DecodedKey) (splice : Splice Node) (maxHeight : ℕ)
    (allowPartialSpliceFix : Bool) : ℕ → ℕ → SpliceProg Node ℕ
  | 0, _ => .exhausted
  | fuel + 1, recomputeHeight =>
    if recomputeHeight < maxHeight then do
      let p ← splice.loadPrev recomputeHeight
      let n ← splice.loadNext recomputeHeight
      let nxt ← lift (next p recomputeHeight)
      if nxt ≠ n then
        validateSplice key splice maxHeight allowPartialSpliceFix fuel (recomputeHeight + 1)
      else if p ≠ L.head && !L.keyIsAfterNode key (some p) then
        if allowPartialSpliceFix then do
          let recomputeHeight ← skipPrev splice p fuel recomputeHeight
          validateSplice key splice maxHeight allowPartialSpliceFix fuel recomputeHeight
        else validateSplice key splice maxHeight allowPartialSpliceFix fuel maxHeight
      else if L.keyIsAfterNode key n then
        if allowPartialSpliceFix then do
          let recomputeHeight ← skipNext splice n fuel recomputeHeight
          validateSplice key splice maxHeight allowPartialSpliceFix fuel recomputeHeight
        else validateSplice key splice maxHeight allowPartialSpliceFix fuel maxHeight
      else pure recomputeHeight
    else pure recomputeHeight

/-- The splice as `Insert` is going to use it, and `recompute_height`. -/
def prepareSplice (fuel : ℕ) (key : DecodedKey) (splice : Splice Node) (maxHeight : ℕ)
    (allowPartialSpliceFix : Bool) : SpliceProg Node (Splice Node × ℕ) :=
  if splice.height < maxHeight then do
    let splice ← splice.storeLevel maxHeight L.head none
    pure ({ splice with height := maxHeight }, maxHeight)
  else do
    let recomputeHeight ← validateSplice L key splice maxHeight allowPartialSpliceFix fuel 0
    pure (splice, recomputeHeight)

/-- One level of the `UseCAS` branch. -/
def linkLevelCAS (x : Node) (key : DecodedKey) (i : ℕ) :
    ℕ → Splice Node → Bool → SpliceProg Node (LevelResult Node)
  | 0, _, _ => .exhausted
  | fuel + 1, splice, spliceIsValid => do
    let n ← splice.loadNext i
    let p ← splice.loadPrev i
    if i = 0 && L.isDuplicate x p n then
      pure (false, splice, spliceIsValid)
    else do
      check (L.inOrder x p n)
      lift (setNext x i n)
      let success ← lift (casNext p i n (some x))
      if success then
        pure (true, splice, spliceIsValid)
      else do
        let r ← lift (L.findSpliceForLevel key none i fuel p)
        let splice ← splice.storeLevel i r.1 r.2
        linkLevelCAS x key i fuel splice (if 0 < i then false else spliceIsValid)

/-- The repair of one level in the branch without compare-and-swap. -/
def repairLevel (fuel : ℕ) (key : DecodedKey) (recomputeHeight i : ℕ) (splice : Splice Node) :
    SpliceProg Node (Splice Node) :=
  if recomputeHeight ≤ i then do
    let p ← splice.loadPrev i
    let n ← splice.loadNext i
    let nxt ← lift (next p i)
    if nxt ≠ n then do
      let r ← lift (L.findSpliceForLevel key none i fuel p)
      splice.storeLevel i r.1 r.2
    else pure splice
  else pure splice

/-- One level of the branch without compare-and-swap. -/
def linkLevel (fuel : ℕ) (x : Node) (key : DecodedKey) (recomputeHeight i : ℕ)
    (splice : Splice Node) (spliceIsValid : Bool) : SpliceProg Node (LevelResult Node) := do
  let splice ← repairLevel L fuel key recomputeHeight i splice
  let n ← splice.loadNext i
  let p ← splice.loadPrev i
  if i = 0 && L.isDuplicate x p n then
    pure (false, splice, spliceIsValid)
  else do
    check (L.inOrder x p n)
    let nxt ← lift (next p i)
    check (nxt = n)
    lift (setNext x i n)
    lift (setNext p i (some x))
    pure (true, splice, spliceIsValid)

/-- `for (int i = …; i < height; ++i)` over the levels to link, left at a duplicate. -/
def forLevels (body : ℕ → Splice Node → Bool → SpliceProg Node (LevelResult Node)) :
    ℕ → ℕ → Splice Node → Bool → SpliceProg Node (LevelResult Node)
  | 0, _, splice, spliceIsValid => pure (true, splice, spliceIsValid)
  | levels + 1, i, splice, spliceIsValid => do
    let r ← body i splice spliceIsValid
    if r.1 then forLevels body levels (i + 1) r.2.1 r.2.2 else pure r

/-- `for (int i = 0; i < height; ++i) splice->prev_[i] = x`. -/
def ownLevels (x : Node) : ℕ → Splice Node → SpliceProg Node (Splice Node)
  | 0, splice => pure splice
  | i + 1, splice => do
    let splice ← ownLevels x i splice
    splice.storePrev i x

/-- The accesses of the assertions on the levels below the given one; on each level they read its
own entries and those of the level above. -/
def assertLevels : ℕ → SpliceProg Node Unit
  | 0 => pure ()
  | i + 1 => do
    assertLevels i
    access i
    access (i + 1)

/-- The end of a successful insertion. -/
def finishSplice (x : Node) (height : ℕ) (splice : Splice Node) (spliceIsValid : Bool) :
    SpliceProg Node (Splice Node) :=
  if spliceIsValid then do
    let splice ← ownLevels x height splice
    let p ← splice.loadPrev splice.height
    check (p = L.head)
    let n ← splice.loadNext splice.height
    check (n = none)
    assertLevels splice.height
    check ((List.range splice.height).all fun i => L.levelInvariant x splice i)
    pure splice
  else pure { splice with height := 0 }

/-- What `Insert<UseCAS>` does once the height of the list is known. -/
def insertAtHeight (fuel : ℕ) (useCAS : Bool) (x : Node) (splice : Splice Node)
    (allowPartialSpliceFix : Bool) (maxHeight : ℕ) : SpliceProg Node (Bool × Splice Node) := do
  let key := L.cmp.decodeKey (L.key x)
  check (maxHeight ≤ kMaxPossibleHeight)
  let r ← prepareSplice L fuel key splice maxHeight allowPartialSpliceFix
  check (r.2 ≤ maxHeight)
  let splice ← (if 0 < r.2 then recomputeSpliceLevels L fuel key r.1 r.2 else pure r.1)
  let body := fun i splice valid =>
    if useCAS then linkLevelCAS L x key i fuel splice valid
    else linkLevel L fuel x key r.2 i splice valid
  let l ← forLevels body (L.unstashHeight x) 0 splice true
  if l.1 then do
    let splice ← finishSplice L x (L.unstashHeight x) l.2.1 l.2.2
    pure (true, splice)
  else pure (false, l.2.1)

/-- `Insert<UseCAS>(key, splice, allow_partial_splice_fix)`. -/
def insertWithSplice (fuel : ℕ) (useCAS : Bool) (x : Node) (splice : Splice Node)
    (allowPartialSpliceFix : Bool) : SpliceProg Node (Bool × Splice Node) := do
  let height := L.unstashHeight x
  check (1 ≤ height && height ≤ L.kMaxHeight)
  let maxHeight ← lift getMaxHeight
  let maxHeight ← lift (raiseMaxHeight height fuel maxHeight)
  insertAtHeight L fuel useCAS x splice allowPartialSpliceFix maxHeight

/-- `Insert(key)`. -/
def insert (fuel : ℕ) (x : Node) (seqSplice : Splice Node) :
    SpliceProg Node (Bool × Splice Node) :=
  insertWithSplice L fuel false x seqSplice false

/-- `InsertConcurrently(key)`. -/
def insertConcurrently (fuel : ℕ) (x : Node) (prev : ℕ → Node) (next : ℕ → Option Node) :
    SpliceProg Node Bool := do
  let r ← insertWithSplice L fuel true x (stackSplice prev next) false
  pure r.1

end Raw

/-! ## The bounds checks -/

section Guards

variable {Key DecodedKey Node : Type} (L : InlineSkipList Key DecodedKey Node)

/-- The same list, configured for another number of levels. -/
def withHeight (k : ℕ) : InlineSkipList Key DecodedKey Node := { L with kMaxHeight := k }

variable [DecidableEq Node] {L} {k n fuel i : ℕ} {key : DecodedKey}
  {splice : Splice Node} {x : Node}

/-- `FindSpliceForLevel` does not depend on the configured height. -/
lemma findSpliceForLevel_withHeight (after : Option Node) (level : ℕ) (before : Node) :
    (L.withHeight k).findSpliceForLevel key after level fuel before =
      L.findSpliceForLevel key after level fuel before := by
  induction fuel generalizing before with
  | zero => rfl
  | succ fuel ih =>
    refine congrArg (Prog.step (LinkOp.next before level)) (funext fun nxt => ?_)
    refine congrArg (Prog.check (L.isSorted before nxt) >>= ·) (funext fun _ => ?_)
    refine congrArg (Prog.check (before = L.head || L.keyIsAfterNode key (some before)) >>= ·)
      (funext fun _ => ?_)
    cases nxt with
    | none => rfl
    | some m =>
      refine congrArg (ite _ _) ?_
      exact ih m

/-- The recomputation. -/
lemma guards_recomputeLoop {m : ℕ} (h : splice.size = n) :
    Guards n (fun r => r.size = n) (Raw.recomputeLoop L fuel key m splice)
      ((L.withHeight k).recomputeLoop fuel key m splice) := by
  induction m generalizing splice with
  | zero => exact .done _ h
  | succ m ih =>
    refine (Splice.guards_loadPrev h).bind fun before _ => ?_
    refine (Splice.guards_loadNext h).bind fun after _ => ?_
    rw [findSpliceForLevel_withHeight]
    refine (Guards.lift _).bind fun r _ => ?_
    exact (Splice.guards_storeLevel h r.1 r.2).bind fun splice hs => ih hs

lemma guards_recomputeSpliceLevels {m : ℕ} (h : splice.size = n) :
    Guards n (fun r => r.size = n) (Raw.recomputeSpliceLevels L fuel key splice m)
      ((L.withHeight k).recomputeSpliceLevels fuel key splice m) :=
  (Guards.check _).bind fun _ _ => (Guards.check _).bind fun _ _ => guards_recomputeLoop h

omit [DecidableEq Node] in
lemma guards_skipPrev [DecidableEq Node] (h : splice.size = n) (bad : Node) (m : ℕ) :
    Guards n (fun _ => True) (Raw.skipPrev splice bad fuel m)
      (InlineSkipList.skipPrev splice bad fuel m) := by
  induction fuel generalizing m with
  | zero => exact .exhausted
  | succ fuel ih =>
    refine (Splice.guards_loadPrev h).bind fun p _ => ?_
    split
    · exact ih (m + 1)
    · exact .done _ trivial

lemma guards_skipNext (h : splice.size = n) (bad : Option Node) (m : ℕ) :
    Guards n (fun _ => True) (Raw.skipNext splice bad fuel m)
      (InlineSkipList.skipNext splice bad fuel m) := by
  induction fuel generalizing m with
  | zero => exact .exhausted
  | succ fuel ih =>
    refine (Splice.guards_loadNext h).bind fun p _ => ?_
    split
    · exact ih (m + 1)
    · exact .done _ trivial

lemma guards_validateSplice (h : splice.size = n) (maxHeight : ℕ) (fix : Bool) (m : ℕ) :
    Guards n (fun _ => True) (Raw.validateSplice L key splice maxHeight fix fuel m)
      ((L.withHeight k).validateSplice key splice maxHeight fix fuel m) := by
  induction fuel generalizing m with
  | zero => exact .exhausted
  | succ fuel ih =>
    rw [Raw.validateSplice, validateSplice]
    split
    · refine (Splice.guards_loadPrev h).bind fun p _ => ?_
      refine (Splice.guards_loadNext h).bind fun q _ => ?_
      refine (Guards.lift _).bind fun nxt _ => ?_
      refine Guards.ite _ (fun _ => ih (m + 1)) fun _ => ?_
      refine Guards.ite _ (fun _ => ?_) fun _ => Guards.ite _ (fun _ => ?_) fun _ => .done _ trivial
      · exact Guards.ite _ (fun _ => (guards_skipPrev h p m).bind fun r _ => ih r)
          fun _ => ih maxHeight
      · exact Guards.ite _ (fun _ => (guards_skipNext h q m).bind fun r _ => ih r)
          fun _ => ih maxHeight
    · exact .done _ trivial

lemma guards_prepareSplice (h : splice.size = n) (maxHeight : ℕ) (fix : Bool) :
    Guards n (fun r => r.1.size = n) (Raw.prepareSplice L fuel key splice maxHeight fix)
      ((L.withHeight k).prepareSplice fuel key splice maxHeight fix) := by
  rw [Raw.prepareSplice, prepareSplice]
  split
  · exact (Splice.guards_storeLevel h L.head none).bind fun r hr => .done _ hr
  · exact (guards_validateSplice h maxHeight fix 0).bind fun _ _ => .done _ h

lemma guards_linkLevelCAS (h : splice.size = n) (valid : Bool) :
    Guards n (fun r => r.2.1.size = n) (Raw.linkLevelCAS L x key i fuel splice valid)
      ((L.withHeight k).linkLevelCAS x key i fuel splice valid) := by
  induction fuel generalizing splice valid with
  | zero => exact .exhausted
  | succ fuel ih =>
    rw [Raw.linkLevelCAS, linkLevelCAS]
    refine (Splice.guards_loadNext h).bind fun q _ => ?_
    refine (Splice.guards_loadPrev h).bind fun p _ => ?_
    refine Guards.ite _ (fun _ => .done _ h) fun _ => ?_
    refine (Guards.check _).bind fun _ _ => ?_
    refine (Guards.lift _).bind fun _ _ => ?_
    refine (Guards.lift _).bind fun success _ => ?_
    refine Guards.ite _ (fun _ => .done _ h) fun _ => ?_
    rw [findSpliceForLevel_withHeight]
    refine (Guards.lift _).bind fun r _ => ?_
    exact (Splice.guards_storeLevel h r.1 r.2).bind fun splice hs => ih hs _

lemma guards_repairLevel (h : splice.size = n) (m : ℕ) :
    Guards n (fun r => r.size = n) (Raw.repairLevel L fuel key m i splice)
      ((L.withHeight k).repairLevel fuel key m i splice) := by
  rw [Raw.repairLevel, repairLevel]
  split
  · refine (Splice.guards_loadPrev h).bind fun p _ => ?_
    refine (Splice.guards_loadNext h).bind fun q _ => ?_
    refine (Guards.lift _).bind fun nxt _ => ?_
    split
    · rw [findSpliceForLevel_withHeight]
      exact (Guards.lift _).bind fun r _ => Splice.guards_storeLevel h r.1 r.2
    · exact .done _ h
  · exact .done _ h

lemma guards_linkLevel (h : splice.size = n) (m : ℕ) (valid : Bool) :
    Guards n (fun r => r.2.1.size = n) (Raw.linkLevel L fuel x key m i splice valid)
      ((L.withHeight k).linkLevel fuel x key m i splice valid) := by
  refine (guards_repairLevel h m).bind fun r hr => ?_
  refine (Splice.guards_loadNext hr).bind fun q _ => ?_
  refine (Splice.guards_loadPrev hr).bind fun p _ => ?_
  refine Guards.ite _ (fun _ => .done _ hr) fun _ => ?_
  refine (Guards.check _).bind fun _ _ => ?_
  refine (Guards.lift _).bind fun nxt _ => ?_
  refine (Guards.check _).bind fun _ _ => ?_
  refine (Guards.lift _).bind fun _ _ => ?_
  exact (Guards.lift _).bind fun _ _ => .done _ hr

omit [DecidableEq Node] in
lemma guards_forLevels {body : ℕ → Splice Node → Bool → SpliceProg Node (LevelResult Node)}
    {body' : ℕ → Splice Node → Bool → ListProg Node (LevelResult Node)}
    (hbody : ∀ i splice valid, splice.size = n →
      Guards n (fun r => r.2.1.size = n) (body i splice valid) (body' i splice valid))
    (levels : ℕ) (h : splice.size = n) (valid : Bool) :
    Guards n (fun r => r.2.1.size = n) (Raw.forLevels body levels i splice valid)
      (InlineSkipList.forLevels body' levels i splice valid) := by
  induction levels generalizing i splice valid with
  | zero => exact .done _ h
  | succ levels ih =>
    refine (hbody i splice valid h).bind fun r hr => ?_
    split
    · exact ih hr r.2.2
    · exact .done _ hr

omit [DecidableEq Node] in
lemma guards_ownLevels (h : splice.size = n) (m : ℕ) :
    Guards n (fun r => r.size = n) (Raw.ownLevels x m splice)
      (InlineSkipList.ownLevels x m splice) := by
  induction m with
  | zero => exact .done _ h
  | succ m ih => exact ih.bind fun r hr => Splice.guards_storePrev hr x

omit [DecidableEq Node] in
/-- The assertions access no index above the height of the splice. -/
lemma guards_assertLevels {m : ℕ} (h : m < n) :
    Guards n (fun _ => True) (Raw.assertLevels m : SpliceProg Node Unit) (pure ()) := by
  induction m with
  | zero => exact .done _ trivial
  | succ m ih =>
    refine (ih (Nat.lt_of_succ_lt h)).skip fun _ => ?_
    exact .inside m _ _ (Nat.lt_of_succ_lt h) (.inside (m + 1) _ _ h (.done _ trivial))

lemma guards_finishSplice (h : splice.size = n) (m : ℕ) (valid : Bool) :
    Guards n (fun _ => True) (Raw.finishSplice L x m splice valid)
      ((L.withHeight k).finishSplice x m splice valid) := by
  rw [Raw.finishSplice, finishSplice]
  split
  · refine (guards_ownLevels h m).bind fun r hr => ?_
    refine (Splice.guards_loadPrev hr).bind fun p hp => ?_
    refine (Guards.check _).bind fun _ _ => ?_
    refine (Splice.guards_loadNext hr).bind fun q _ => ?_
    refine (Guards.check _).bind fun _ _ => ?_
    refine (guards_assertLevels hp.1).skip fun _ => ?_
    exact (Guards.check _).bind fun _ _ => .done _ trivial
  · exact .done _ trivial

/-- **The bounds checks.**  From the point where the height of the list is known, `Insert<UseCAS>`
is the function without bounds checks, with every index checked. -/
theorem guards_insertAtHeight (h : splice.size = n) (useCAS fix : Bool) (maxHeight : ℕ) :
    Guards n (fun _ => True) (Raw.insertAtHeight L fuel useCAS x splice fix maxHeight)
      ((L.withHeight k).insertAtHeight fuel useCAS x splice fix maxHeight) := by
  refine (Guards.check _).bind fun _ _ => ?_
  refine (guards_prepareSplice h maxHeight fix).bind fun r hr => ?_
  refine (Guards.check _).bind fun _ _ => ?_
  have hrecompute : Guards n (fun s => s.size = n)
      (if 0 < r.2 then Raw.recomputeSpliceLevels L fuel (L.cmp.decodeKey (L.key x)) r.1 r.2
        else pure r.1)
      (if 0 < r.2 then
        (L.withHeight k).recomputeSpliceLevels fuel (L.cmp.decodeKey (L.key x)) r.1 r.2
        else pure r.1) := by
    split
    · exact guards_recomputeSpliceLevels hr
    · exact .done _ hr
  refine hrecompute.bind fun splice hs => ?_
  refine (guards_forLevels (fun i splice valid h => ?_) (L.unstashHeight x) hs true).bind
    fun l hl => ?_
  · cases useCAS with
    | true => exact guards_linkLevelCAS h valid
    | false => exact guards_linkLevel h r.2 valid
  · split
    · exact (guards_finishSplice hl _ l.2.2).bind fun _ _ => .done _ trivial
    · exact .done _ trivial

/-! ## One insertion -/

variable {c : Solo Node} {chain : ℕ → List Node}

/-- With and without bounds checks, the insertion comes to the point where the list has the greater
of its own height and that of the node. -/
lemma exists_insertAtHeight (splice : Splice Node) (hpos : 1 ≤ L.unstashHeight x)
    (hle : L.unstashHeight x ≤ L.kMaxHeight) (hfuel : c.spurious + 1 < fuel) (useCAS fix : Bool) :
    ∃ c₁ : Solo Node,
      c₁.links = { c.links with maxHeight := max c.links.maxHeight (L.unstashHeight x) } ∧
      run execSolo (L.insertWithSplice fuel useCAS x splice fix) c =
        run execSolo (L.insertAtHeight fuel useCAS x splice fix c₁.links.maxHeight) c₁ ∧
      run (execIndexed execSolo) (Raw.insertWithSplice L fuel useCAS x splice fix) c =
        run (execIndexed execSolo)
          (Raw.insertAtHeight L fuel useCAS x splice fix c₁.links.maxHeight) c₁ ∧
      accesses execSolo (Raw.insertWithSplice L fuel useCAS x splice fix) c =
        accesses execSolo
          (Raw.insertAtHeight L fuel useCAS x splice fix c₁.links.maxHeight) c₁ := by
  have hreturns :
      Returns execSolo (raiseMaxHeight (L.unstashHeight x) fuel c.links.maxHeight) c _ :=
    raiseMaxHeight_returns hfuel
  obtain ⟨m, c₁, hraise, rfl, hc₁⟩ := returns_iff_run.mp hreturns
  have hcheck : (1 ≤ L.unstashHeight x && L.unstashHeight x ≤ L.kMaxHeight) = true := by
    simp [hpos, hle]
  have hload : run execSolo getMaxHeight c = .done c.links.maxHeight c := rfl
  have hm : c₁.links.maxHeight = max c.links.maxHeight (L.unstashHeight x) := by rw [hc₁]
  refine ⟨c₁, hc₁, ?_, ?_, ?_⟩
  · rw [insertWithSplice_eq, check_bind_of hcheck, run_bind_of hload, run_bind_of hraise, hm]
  · rw [Raw.insertWithSplice, check_bind_of hcheck, run_bind_of ((run_lift _ c).trans hload),
      run_bind_of ((run_lift _ c).trans hraise), hm]
  · rw [Raw.insertWithSplice, check_bind_of hcheck,
      accesses_bind_of ((run_lift _ c).trans hload), accesses_lift, List.nil_append,
      accesses_bind_of ((run_lift _ c).trans hraise), accesses_lift, List.nil_append, hm]

omit [DecidableEq Node] in
/-- The shape of a list does not depend on the levels that are not in use. -/
lemma Shape.withHeight {s : Links Node} (h : L.Shape s chain) (hk : s.maxHeight ≤ k)
    (hle : k ≤ L.kMaxHeight) : (L.withHeight k).Shape s chain where
  linked i hi := h.linked i (lt_of_lt_of_le hi hle)
  sorted := h.sorted
  head_notMem := h.head_notMem
  nested := h.nested
  height := h.height
  maxHeight_pos := h.maxHeight_pos
  maxHeight_le := hk

omit [DecidableEq Node] in
/-- A splice is nested or not regardless of the levels that are not in use. -/
lemma SpliceInv.withHeight {s : Links Node} (h : L.SpliceInv s chain splice) :
    (L.withHeight k).SpliceInv s chain splice :=
  h.imp id fun hn => ⟨hn.height_le, hn.prev_height, hn.next_height, hn.prev_mem, hn.next_mem,
    hn.lePrev, hn.leNext⟩

/-- **An insertion stays inside arrays that have an entry above the levels of the list.**  It
returns, with and without bounds checks. -/
theorem insertWithSplice_inside (hS : L.Shape c.links chain) (hx : L.Fresh chain x)
    (hi : L.SpliceInv c.links chain splice)
    (hk : max c.links.maxHeight (L.unstashHeight x) ≤ kMaxPossibleHeight)
    (hsize : max c.links.maxHeight (L.unstashHeight x) < splice.size)
    (hfuel : (chain 0).length + c.spurious + L.kMaxHeight + 1 < fuel) (useCAS fix : Bool) :
    ∃ r c', run execSolo (L.insertWithSplice fuel useCAS x splice fix) c = .done r c' ∧
      run (execIndexed execSolo) (Raw.insertWithSplice L fuel useCAS x splice fix) c = .done r c' ∧
      c'.links.maxHeight = max c.links.maxHeight (L.unstashHeight x) ∧
      ∀ i ∈ accesses execSolo (Raw.insertWithSplice L fuel useCAS x splice fix) c,
        i < splice.size := by
  obtain ⟨c₁, hc₁, hrun, hrunRaw, hacc⟩ := exists_insertAtHeight splice hx.height_pos hx.height_le
    (show c.spurious + 1 < fuel by omega) useCAS fix
  have hm : c₁.links.maxHeight = max c.links.maxHeight (L.unstashHeight x) := by rw [hc₁]
  have hmax : max c.links.maxHeight (L.unstashHeight x) ≤ L.kMaxHeight :=
    max_le hS.maxHeight_le hx.height_le
  -- the list as it would be if it were configured for the levels in use
  have hS₁ : L.Shape c₁.links chain := hc₁ ▸ hS.raise (le_max_left _ _) hmax
  have hS' := hS₁.withHeight le_rfl (hm ▸ hmax)
  have hi' : (L.withHeight c₁.links.maxHeight).SpliceInv c₁.links chain splice :=
    (hi.mono (hm ▸ le_max_left _ _) fun _ _ => id).withHeight
  have hx' : (L.withHeight c₁.links.maxHeight).Fresh chain x :=
    ⟨hx.ne_head, hx.notMem, hx.height_pos, hm ▸ le_max_right _ _⟩
  have hlen : ∀ i, (chain i).length + 1 < fuel := fun i => by
    have := hS.length_le i
    omega
  have hfuel' : c₁.links.maxHeight + 1 < fuel := by omega
  obtain ⟨r, c', hrun', -, -, -, -, hmax'⟩ := returns_iff_run.mp
    (insertAtHeight_returns hS' hx' (hm ▸ le_max_right _ _) (hm ▸ hk) hi' (hm ▸ hsize) hlen hfuel'
      useCAS fix)
  obtain ⟨hraw, hall⟩ := (guards_insertAtHeight rfl useCAS fix c₁.links.maxHeight).of_run hrun'
  have hsame := (guards_insertAtHeight (L := L) (k := L.kMaxHeight) rfl useCAS fix
    c₁.links.maxHeight).run_eq hall
  refine ⟨r, c', hrun.trans (hsame.symm.trans hraw), hrunRaw.trans hraw, hmax'.trans hm,
    fun i hi => ?_⟩
  exact hall i (hacc ▸ hi)

/-- **A new splice is accessed at the height of the list.** -/
theorem mem_accesses_insertWithSplice (hpos : 1 ≤ L.unstashHeight x)
    (hle : L.unstashHeight x ≤ L.kMaxHeight) (hfuel : c.spurious + 1 < fuel)
    (hk : max c.links.maxHeight (L.unstashHeight x) ≤ kMaxPossibleHeight)
    (hheight : splice.height = 0) (useCAS fix : Bool) :
    max c.links.maxHeight (L.unstashHeight x) ∈
      accesses execSolo (Raw.insertWithSplice L fuel useCAS x splice fix) c := by
  obtain ⟨c₁, hc₁, -, -, hacc⟩ := exists_insertAtHeight splice hpos hle hfuel useCAS fix
  have hm : c₁.links.maxHeight = max c.links.maxHeight (L.unstashHeight x) := by rw [hc₁]
  have hlt : splice.height < c₁.links.maxHeight := by omega
  rw [hacc, ← hm, Raw.insertAtHeight, check_bind_of (decide_eq_true (hm ▸ hk)), Raw.prepareSplice,
    if_pos hlt]
  exact List.mem_cons_self

end Guards

/-! ## Sequences of insertions -/

section Calls

variable {Key DecodedKey Node ι : Type} [DecidableEq Node] [DecidableEq ι]
  (L : InlineSkipList Key DecodedKey Node)

/-- The indices at which a call accesses the arrays of its splice. -/
def indices (fuel : ℕ) (call : Call Node ι) (s : ListState Node ι) : List ℕ :=
  match call.entry with
  | .insert =>
    accesses execSolo (Raw.insert L fuel call.node (s.splices none)) ⟨s.links, call.spurious⟩
  | .insertConcurrently prev next =>
    accesses execSolo (Raw.insertConcurrently L fuel call.node prev next) ⟨s.links, call.spurious⟩
  | .insertWithSplice useCAS i fix =>
    accesses execSolo (Raw.insertWithSplice L fuel useCAS call.node (s.splices i) fix)
      ⟨s.links, call.spurious⟩

/-- The length of the arrays that a call uses: those of a stack frame, or those that
`AllocateSplice` has made. -/
def arrayLength : Entry Node ι → ℕ
  | .insertConcurrently _ _ => kMaxPossibleHeight
  | .insert | .insertWithSplice _ _ _ => L.kMaxHeight + 1

/-- The call accesses no entry behind the end of its arrays. -/
def CallInBounds (fuel : ℕ) (call : Call Node ι) (s : ListState Node ι) : Prop :=
  ∀ i ∈ L.indices fuel call s, i < L.arrayLength call.entry

/-- No call of a sequence, run one after the other, accesses an entry behind the end of its
arrays. -/
def InBounds (fuel : ℕ) : List (Call Node ι) → ListState Node ι → Prop
  | [], _ => True
  | call :: calls, s => L.CallInBounds fuel call s ∧
      ∀ b s', L.runCall fuel call s = .done b s' → InBounds fuel calls s'

/-- No call of a sequence, run one after the other, brings a node that is linked already. -/
def BringsUnlinked (fuel : ℕ) : List (Call Node ι) → ListState Node ι → Prop
  | [], _ => True
  | call :: calls, s => ¬L.LinkedAt s.links 0 call.node ∧
      ∀ b s', L.runCall fuel call s = .done b s' → BringsUnlinked fuel calls s'

variable {L} {s : ListState Node ι} {chain : ℕ → List Node} {call : Call Node ι} {x : Node}
  {fuel spurious : ℕ}

/-- An insertion through a splice that was allocated stays inside its arrays, and returns. -/
lemma Consistent.runThrough_inside (h : L.Consistent s chain)
    (hk : L.kMaxHeight ≤ kMaxPossibleHeight)
    (hnode : L.Insertable x) (hnot : ¬L.LinkedAt s.links 0 x)
    (hfuel : (chain 0).length + spurious + L.kMaxHeight + 1 < fuel) (useCAS : Bool) (i : Option ι)
    (fix : Bool) :
    (∃ b s', L.runThrough fuel useCAS x i fix spurious s = .done b s' ∧
      s'.links.maxHeight = max s.links.maxHeight (L.unstashHeight x)) ∧
    ∀ j ∈ accesses execSolo (Raw.insertWithSplice L fuel useCAS x (s.splices i) fix)
      ⟨s.links, spurious⟩, j < L.kMaxHeight + 1 := by
  have hmax : max s.links.maxHeight (L.unstashHeight x) ≤ L.kMaxHeight :=
    max_le h.shape.maxHeight_le hnode.height_le
  obtain ⟨r, c, hrun, -, hheight, hall⟩ := insertWithSplice_inside (c := ⟨s.links, spurious⟩)
    h.shape ⟨hnode.ne_head, h.notMem hnot, hnode.height_pos, hnode.height_le⟩ (h.splices i)
    (hmax.trans hk) (h.size i ▸ Nat.lt_succ_of_le hmax) hfuel useCAS fix
  refine ⟨⟨r.1, _, runThrough_eq_done.mpr ⟨r.2, c, hrun, rfl⟩, hheight⟩, fun j hj => ?_⟩
  rw [← h.size i]
  exact hall j hj

omit [DecidableEq ι] in
/-- `InsertConcurrently` stays inside its arrays if and only if the list has less than
`kMaxPossibleHeight` levels then, in which case it returns. -/
lemma Consistent.insertConcurrently_inside_iff (h : L.Consistent s chain)
    (hk : L.kMaxHeight ≤ kMaxPossibleHeight) (hnode : L.Insertable x)
    (hnot : ¬L.LinkedAt s.links 0 x)
    (hfuel : (chain 0).length + spurious + L.kMaxHeight + 1 < fuel) (prev : ℕ → Node)
    (next : ℕ → Option Node) :
    ((∀ j ∈ accesses execSolo (Raw.insertConcurrently L fuel x prev next) ⟨s.links, spurious⟩,
      j < kMaxPossibleHeight) ↔
        max s.links.maxHeight (L.unstashHeight x) < kMaxPossibleHeight) ∧
    (max s.links.maxHeight (L.unstashHeight x) < kMaxPossibleHeight → ∃ b c,
      run execSolo (L.insertConcurrently fuel x prev next) ⟨s.links, spurious⟩ = .done b c ∧
      c.links.maxHeight = max s.links.maxHeight (L.unstashHeight x)) := by
  have hmax : max s.links.maxHeight (L.unstashHeight x) ≤ kMaxPossibleHeight :=
    (max_le h.shape.maxHeight_le hnode.height_le).trans hk
  have hempty : (stackSplice prev next).height = 0 := rfl
  have hinside :=
    fun hlt : max s.links.maxHeight (L.unstashHeight x) < (stackSplice prev next).size =>
    insertWithSplice_inside (c := ⟨s.links, spurious⟩) h.shape
      ⟨hnode.ne_head, h.notMem hnot, hnode.height_pos, hnode.height_le⟩ (Or.inl hempty) hmax hlt
      hfuel
      true false
  refine ⟨⟨fun hall => ?_, fun hlt => ?_⟩, fun hlt => ?_⟩
  · -- the sentinels are written at the index of the highest level
    have hmem := mem_accesses_insertWithSplice (c := ⟨s.links, spurious⟩) hnode.height_pos
      hnode.height_le (show spurious + 1 < fuel by omega) hmax hempty true false
    exact hall _ (mem_accesses_bind hmem)
  · obtain ⟨r, c, -, hraw, -, hall⟩ := hinside hlt
    rw [Raw.insertConcurrently, accesses_bind_of hraw]
    intro j hj
    exact hall j ((List.mem_append.mp hj).resolve_right List.not_mem_nil)
  · obtain ⟨r, c, hrun, -, hheight, -⟩ := hinside hlt
    exact ⟨r.1, c, run_bind_of hrun, hheight⟩

/-- **The bounds of one call.**  In a consistent state a call stays inside its arrays if and only if
they are not on the stack or the list has less than `kMaxPossibleHeight` levels then; and in this
case the call returns. -/
theorem Consistent.callInBounds_iff (h : L.Consistent s chain)
    (hk : L.kMaxHeight ≤ kMaxPossibleHeight)
    (hnode : L.Insertable call.node) (hnot : ¬L.LinkedAt s.links 0 call.node)
    (hfuel : (chain 0).length + call.spurious + L.kMaxHeight + 1 < fuel) :
    (L.CallInBounds fuel call s ↔ (call.entry.OnStack →
      max s.links.maxHeight (L.unstashHeight call.node) < kMaxPossibleHeight)) ∧
    (L.CallInBounds fuel call s → ∃ b s', L.runCall fuel call s = .done b s' ∧
      s'.links.maxHeight = max s.links.maxHeight (L.unstashHeight call.node)) := by
  obtain ⟨x, entry, spurious⟩ := call
  cases entry with
  | insert =>
    obtain ⟨hrun, hall⟩ := h.runThrough_inside hk hnode hnot hfuel false none false
    exact ⟨iff_of_true hall fun hstack => hstack.elim, fun _ => hrun⟩
  | insertConcurrently prev next =>
    obtain ⟨hiff, hrun⟩ := h.insertConcurrently_inside_iff hk hnode hnot hfuel prev next
    refine ⟨hiff.trans ⟨fun hlt _ => hlt, fun hlt => hlt trivial⟩, fun hall => ?_⟩
    obtain ⟨b, c, hr, hheight⟩ := hrun (hiff.mp hall)
    refine ⟨b, { s with links := c.links }, ?_, hheight⟩
    simp only [InlineSkipList.runCall]
    rw [hr]
  | insertWithSplice useCAS i fix =>
    obtain ⟨hrun, hall⟩ := h.runThrough_inside hk hnode hnot hfuel useCAS i fix
    exact ⟨iff_of_true hall fun hstack => hstack.elim, fun _ => hrun⟩

/-- The nodes up to each call of `InsertConcurrently`, its own included, are lower than
`kMaxPossibleHeight`. -/
def StackFits (L : InlineSkipList Key DecodedKey Node) (calls : List (Call Node ι)) : Prop :=
  ∀ earlier call later, calls = earlier ++ call :: later → call.entry.OnStack →
    ∀ c ∈ earlier ++ [call], L.unstashHeight c.node < kMaxPossibleHeight

omit [DecidableEq Node] [DecidableEq ι] in
/-- The first call and those behind it. -/
lemma stackFits_cons {calls : List (Call Node ι)} : L.StackFits (call :: calls) ↔
    L.StackFits calls ∧ ((∃ c ∈ call :: calls, c.entry.OnStack) →
      L.unstashHeight call.node < kMaxPossibleHeight) := by
  constructor
  · refine fun h => ⟨fun earlier c later he hstack d hd => ?_, fun hex => ?_⟩
    · exact h (call :: earlier) c later (by rw [he, List.cons_append]) hstack d
        (List.mem_cons_of_mem _ hd)
    · obtain ⟨c, hc, hstack⟩ := hex
      obtain ⟨earlier, later, he⟩ := List.append_of_mem hc
      refine h earlier c later he hstack call ?_
      cases earlier with
      | nil => exact (List.cons.inj he).1 ▸ List.mem_singleton_self _
      | cons d earlier => exact (List.cons.inj he).1 ▸ List.mem_cons_self
  · rintro ⟨hrest, hfirst⟩ earlier c later he hstack d hd
    have hc : c ∈ call :: calls := he ▸ List.mem_append_right _ List.mem_cons_self
    cases earlier with
    | nil =>
      obtain rfl := List.mem_singleton.mp hd
      obtain rfl := (List.cons.inj he).1
      exact hfirst ⟨_, hc, hstack⟩
    | cons e earlier =>
      obtain ⟨rfl, hrest'⟩ := List.cons.inj he
      rcases List.mem_cons.mp hd with rfl | hd
      · exact hfirst ⟨c, hc, hstack⟩
      · exact hrest earlier c later hrest' hstack d hd

/-- A run of calls from a consistent state stays inside the arrays if and only if no call of
`InsertConcurrently` meets or brings a node of the greatest possible height. -/
lemma Consistent.inBounds_iff (h : L.Consistent s chain) (hk : L.kMaxHeight ≤ kMaxPossibleHeight)
    (calls : List (Call Node ι)) (hnode : ∀ call ∈ calls, L.Insertable call.node)
    (hnot : L.BringsUnlinked fuel calls s)
    (hfuel : (chain 0).length + calls.length + spuriousFailures calls + L.kMaxHeight + 1 < fuel) :
    L.InBounds fuel calls s ↔ L.StackFits calls ∧
      ((∃ c ∈ calls, c.entry.OnStack) → s.links.maxHeight < kMaxPossibleHeight) := by
  induction calls generalizing s chain with
  | nil =>
    refine iff_of_true trivial ⟨fun earlier c later he => ?_, fun hex => ?_⟩
    · exact absurd he (by simp)
    · obtain ⟨c, hc, -⟩ := hex
      cases hc
  | cons call calls ih =>
    obtain ⟨hunlinked, hnot⟩ := hnot
    have hcall := hnode call List.mem_cons_self
    simp only [spuriousFailures, List.length_cons] at hfuel
    obtain ⟨hiff, hret⟩ := h.callInBounds_iff hk hcall hunlinked
      (show (chain 0).length + call.spurious + L.kMaxHeight + 1 < fuel by omega)
    -- behind the call the list has the greater of both heights
    have hrest : L.CallInBounds fuel call s →
        ((∀ b s', L.runCall fuel call s = .done b s' → L.InBounds fuel calls s') ↔
          L.StackFits calls ∧ ((∃ c ∈ calls, c.entry.OnStack) →
            max s.links.maxHeight (L.unstashHeight call.node) < kMaxPossibleHeight)) := by
      intro hin
      obtain ⟨b, s', hrun, hmax⟩ := hret hin
      obtain ⟨chain', hc', honly⟩ := h.runCall hcall hunlinked (by omega) hrun
      have hlen : (chain' 0).length ≤ (call.node :: chain 0).length :=
        (List.Nodup.subperm (nodup_of_pairwise_nodeLt (hc'.shape.sorted 0)) fun n hn =>
          List.mem_cons.mpr (honly 0 n hn).symm).length_le
      rw [List.length_cons] at hlen
      have hs' := ih hc' (fun c hc => hnode c (List.mem_cons_of_mem _ hc)) (hnot b s' hrun)
        (by omega)
      rw [hmax] at hs'
      rw [← hs']
      refine ⟨fun hall => hall b s' hrun, fun hin b₂ s₂ hrun₂ => ?_⟩
      cases hrun.symm.trans hrun₂
      exact hin
    have hcons : (∃ c ∈ call :: calls, c.entry.OnStack) ↔
        call.entry.OnStack ∨ ∃ c ∈ calls, c.entry.OnStack := List.exists_mem_cons_iff ..
    rw [stackFits_cons, hcons]
    constructor
    · rintro ⟨hin, hall⟩
      obtain ⟨hfits, hlater⟩ := (hrest hin).mp hall
      have hlt := fun hor : call.entry.OnStack ∨ ∃ c ∈ calls, c.entry.OnStack =>
        Nat.max_lt.mp (hor.elim (hiff.mp hin) hlater)
      exact ⟨⟨hfits, fun hor => (hlt hor).2⟩, fun hor => (hlt hor).1⟩
    · rintro ⟨⟨hfits, hheight⟩, hmax⟩
      have hlt := fun hor : call.entry.OnStack ∨ ∃ c ∈ calls, c.entry.OnStack =>
        max_lt (hmax hor) (hheight hor)
      have hin := hiff.mpr fun hstack => hlt (Or.inl hstack)
      exact ⟨hin, (hrest hin).mpr ⟨hfits, fun hex => hlt (Or.inr hex)⟩⟩

/-- **When every index of a splice is inside its array.**  For every admitted number of levels and
every sequence of insertions of nodes that are not linked yet, each with a height that the list
admits, all accesses to the entries of the splices stay inside the arrays if and only if no node of
the height `kMaxPossibleHeight` is brought by a call of `InsertConcurrently` or by a call in front
of one. -/
theorem splice_inBounds_iff (hpos : 0 < L.kMaxHeight) (hk : L.kMaxHeight ≤ kMaxPossibleHeight)
    (raw : Node → ℕ → Option Node) (prev : Option ι → ℕ → Node) (next : Option ι → ℕ → Option Node)
    (calls : List (Call Node ι)) (hnode : ∀ call ∈ calls, L.Insertable call.node) :
    ∃ N, ∀ fuel ≥ N, L.BringsUnlinked fuel calls (L.initial raw prev next) →
      (L.InBounds fuel calls (L.initial raw prev next) ↔ L.StackFits calls) := by
  have hstart : L.Consistent (L.initial raw prev next) fun _ => [] :=
    ⟨Shape.construct raw hpos, fun _ => Or.inl rfl, fun _ => rfl⟩
  refine ⟨calls.length + spuriousFailures calls + L.kMaxHeight + 2, fun fuel hfuel hnot => ?_⟩
  rw [hstart.inBounds_iff hk calls hnode hnot
    (show 0 + calls.length + spuriousFailures calls + L.kMaxHeight + 1 < fuel by omega)]
  have hone : (L.initial raw prev next).links.maxHeight < kMaxPossibleHeight :=
    show 1 < kMaxPossibleHeight by decide
  exact ⟨And.left, fun hfits => ⟨hfits, fun _ => hone⟩⟩

end Calls

/-! ## Two lists of integers -/

/-- `splice_inBounds_iff` for the three insertions into the list with three levels. -/
theorem threeCalls_inBounds : ∃ N, ∀ fuel ≥ N, integers.InBounds fuel threeCalls
    (integersAfter (threeCalls.take 0)) := by
  have hhead : ∀ call ∈ threeCalls, call.node ≠ integers.head := by decide
  have hheight : ∀ n, integers.unstashHeight n ≤ 3 := fun n => Nat.mod_lt n (by decide)
  obtain ⟨N, h⟩ := splice_inBounds_iff (L := integers) (by decide) (by decide) (fun _ _ => some 8)
    (fun _ _ => 6) (fun _ _ => some 1) threeCalls fun call hcall =>
      ⟨hhead call hcall, Nat.succ_pos _, hheight call.node⟩
  refine ⟨N + 12, fun fuel hfuel => (h fuel (by omega) ?_).mpr fun _ _ _ _ _ c _ =>
    (hheight c.node).trans_lt (by decide)⟩
  obtain ⟨k, rfl⟩ := Nat.exists_eq_add_of_le' (show 12 ≤ fuel by omega)
  obtain ⟨hl₀, hl₁, hl₂, -⟩ := threeCalls_levelChain
  refine ⟨hl₀.not_linkedAt (by decide), fun b s hs => ?_⟩
  obtain rfl : integersAfter (threeCalls.take 1) = s := by
    cases hs
    rfl
  refine ⟨hl₁.not_linkedAt (by decide), fun b s hs => ?_⟩
  obtain rfl : integersAfter (threeCalls.take 2) = s := by
    cases hs
    rfl
  exact ⟨hl₂.not_linkedAt (by decide), fun _ _ _ => trivial⟩

/-- A list with the greatest possible number of levels, all of whose nodes are that high. -/
def highest : InlineSkipList ℤ ℤ ℕ :=
  { integers with
    kMaxHeight := kMaxPossibleHeight
    unstashHeight := fun _ => kMaxPossibleHeight }

/-- On a new list with the greatest possible number of levels, `InsertConcurrently` of a node that
is that high accesses the entries with the index `32` of two arrays of `32` entries. -/
theorem insertConcurrently_outOfBounds : highest.kMaxHeight ≤ kMaxPossibleHeight ∧
    highest.Insertable 2 ∧ ∃ call : Call ℕ Unit, call.node = 2 ∧ ∃ s : ListState ℕ Unit,
      s = highest.initial (fun _ _ => none) (fun _ _ => 0) (fun _ _ => none) ∧
      ∀ fuel ≥ 2, highest.BringsUnlinked fuel [call] s ∧ 32 ∈ highest.indices fuel call s ∧
        highest.arrayLength call.entry = 32 ∧ ¬highest.InBounds fuel [call] s := by
  refine ⟨le_rfl, ⟨by decide, by decide, le_rfl⟩,
    ⟨2, .insertConcurrently (fun _ => 0) fun _ => none, 0⟩,
    rfl, _, rfl, fun fuel hfuel => ?_⟩
  have hempty : highest.LevelChain (highest.initial (ι := Unit) (fun _ _ => none) (fun _ _ => 0)
    fun _ _ => none).links 0 [] := rfl
  have hmem : 32 ∈ highest.indices fuel
      (⟨2, .insertConcurrently (fun _ => 0) fun _ => none, 0⟩ : Call ℕ Unit)
      (highest.initial (fun _ _ => none) (fun _ _ => 0) fun _ _ => none) :=
    mem_accesses_bind (mem_accesses_insertWithSplice (by decide) (by decide) hfuel (by decide) rfl
      true false)
  exact ⟨⟨hempty.not_linkedAt (by decide), fun _ _ _ => trivial⟩, hmem, rfl, fun hin =>
    absurd (hin.1 32 hmem) (by decide)⟩

end InlineSkipList

end PmemKv
