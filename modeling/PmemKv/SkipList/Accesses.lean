import PmemKv.Library.Permissions
import PmemKv.SkipList.Clients
import PmemKv.SkipList.Validation

/-!
# The links that are accessed

Which links the list's functions access does not depend on what the threads do to each other.  A
pointer on a level leads to a node whose links up to this level have been written: a node is linked
from level `0` upwards, and its own link on a level is written before the one that leads to it.  So
a function reads and exchanges written links only, and writes links that are written or belong to
the node that it inserts.

Nothing is assumed about the order of the keys, and the functions need not be used as they should
be: `Insert<false>` may run next to other insertions, and splices may be shared out in any way, as
long as every splice comes from insertions into this list.  Assertions may be violated, links are
still accessed within the nodes.
-/

namespace PmemKv

open AtomicProg AtomicProg.Prog

namespace InlineSkipList

variable {Key DecodedKey Node : Type}

/-- The links of the node up to the level have been written. -/
def WrittenUpTo (w : Node → ℕ → Prop) (n : Node) (i : ℕ) : Prop := ∀ j ≤ i, w n j

/-- A pointer on the level leads to a node whose links up to the level have been written. -/
def PointsTo (w : Node → ℕ → Prop) (i : ℕ) (p : Option Node) : Prop :=
  ∀ m, p = some m → WrittenUpTo w m i

/-- `max_height_` may be set to this. -/
def IsHeight (L : InlineSkipList Key DecodedKey Node) (h : ℕ) : Prop := 1 ≤ h ∧ h ≤ L.kMaxHeight

/-- What may be done when the links `w` have been written: read and exchange written links, and
write a link that is written or that the node has; every pointer that is stored or found points to
written links, and `max_height_` stays between `1` and `kMaxHeight_`. -/
def linkPermissions (L : InlineSkipList Key DecodedKey Node) (hasLink : Node → ℕ → Prop) :
    Permissions (LinkOp Node) LinkOp.Ret (Node → ℕ → Prop) where
  allowed w
    | .next n i => w n i
    | .setNext n i x => (hasLink n i ∨ w n i) ∧ PointsTo w i x
    | .casNext n i expected x => w n i ∧ PointsTo w i expected ∧ PointsTo w i x
    | .loadMaxHeight => True
    | .casMaxHeight _ desired => L.IsHeight desired
  answers
    | .next _ i, w, r, w' => w' = w ∧ PointsTo w i r
    | .setNext n i _, w, _, w' => w' = fun m j => w m j ∨ m = n ∧ j = i
    | .casNext _ _ _ _, w, _, w' => w' = w
    | .loadMaxHeight, w, h, w' => w' = w ∧ L.IsHeight h
    | .casMaxHeight _ _, w, r, w' => w' = w ∧ (r.1 = false → L.IsHeight r.2)
  grows o w r w' h := by
    cases o with
    | next n i => exact h.1.ge
    | setNext n i x => exact h ▸ fun m j hm => Or.inl hm
    | casNext n i expected x => exact (show w' = w from h).ge
    | loadMaxHeight => exact h.1.ge
    | casMaxHeight expected desired => exact h.1.ge

variable (L : InlineSkipList Key DecodedKey Node) {hasLink : Node → ℕ → Prop}
  {w w' : Node → ℕ → Prop} {n m x : Node} {p : Option Node} {i j : ℕ} {α : Type}
  {Q : α → (Node → ℕ → Prop) → Prop}

/-- The program accesses links as it may. -/
abbrev Accesses (hasLink : Node → ℕ → Prop) (Q : α → (Node → ℕ → Prop) → Prop) (p : ListProg Node α)
    (w : Node → ℕ → Prop) : Prop :=
  Permitted (L.linkPermissions hasLink) Q p w

lemma WrittenUpTo.later (h : WrittenUpTo w n i) (hw : w ≤ w') : WrittenUpTo w' n i :=
  fun j hj => hw n j (h j hj)

lemma WrittenUpTo.below (h : WrittenUpTo w n i) (hj : j ≤ i) : WrittenUpTo w n j :=
  fun k hk => h k (hk.trans hj)

lemma PointsTo.later (h : PointsTo w i p) (hw : w ≤ w') : PointsTo w' i p :=
  fun m hm => (h m hm).later hw

lemma PointsTo.below (h : PointsTo w i p) (hj : j ≤ i) : PointsTo w j p :=
  fun m hm => (h m hm).below hj

lemma pointsTo_none : PointsTo w i none := fun _ h => nomatch h

lemma pointsTo_some (h : WrittenUpTo w n i) : PointsTo w i (some n) :=
  fun _ hm => Option.some.inj hm ▸ h

variable {L}

/-! ## The single accesses -/

section Steps

variable {β : Type}

/-- A written link may be read, and it points to written links. -/
lemma accesses_next {f : Option Node → ListProg Node α} (h : w n i)
    (hf : ∀ r v, w ≤ v → PointsTo v i r → L.Accesses hasLink Q (f r) v) :
    L.Accesses hasLink Q (next n i >>= f) w := by
  intro v hv
  refine ⟨hv n i h, ?_⟩
  rintro r _ ⟨rfl, hr⟩
  exact hf r _ hv hr

/-- A link of a node may be written, and then it is. -/
lemma accesses_setNext {f : Unit → ListProg Node α} (h : hasLink n i ∨ w n i) (hp : PointsTo w i p)
    (hf : ∀ v, w ≤ v → v n i → L.Accesses hasLink Q (f ()) v) :
    L.Accesses hasLink Q (setNext n i p >>= f) w := by
  intro v hv
  refine ⟨⟨h.imp_right (hv n i), hp.later hv⟩, ?_⟩
  rintro r _ rfl
  exact hf _ (hv.trans fun _ _ => Or.inl) (Or.inr ⟨rfl, rfl⟩)

/-- A written link may be exchanged. -/
lemma accesses_casNext {expected : Option Node} {f : Bool → ListProg Node α} (h : w n i)
    (he : PointsTo w i expected) (hp : PointsTo w i p)
    (hf : ∀ b v, w ≤ v → L.Accesses hasLink Q (f b) v) :
    L.Accesses hasLink Q (casNext n i expected p >>= f) w := by
  intro v hv
  refine ⟨⟨hv n i h, he.later hv, hp.later hv⟩, ?_⟩
  rintro r _ rfl
  exact hf r _ hv

/-- The height is admissible. -/
lemma accesses_getMaxHeight {f : ℕ → ListProg Node α}
    (hf : ∀ h v, w ≤ v → L.IsHeight h → L.Accesses hasLink Q (f h) v) :
    L.Accesses hasLink Q (getMaxHeight >>= f) w := by
  intro v hv
  refine ⟨trivial, ?_⟩
  rintro h _ ⟨rfl, hh⟩
  exact hf h _ hv hh

/-- The height may be set to an admissible one. -/
lemma accesses_casMaxHeight {expected desired : ℕ} {f : Bool × ℕ → ListProg Node α}
    (hd : L.IsHeight desired)
    (hf : ∀ r v, w ≤ v → (r.1 = false → L.IsHeight r.2) → L.Accesses hasLink Q (f r) v) :
    L.Accesses hasLink Q (casMaxHeight expected desired >>= f) w := by
  intro v hv
  refine ⟨hd, ?_⟩
  rintro r _ ⟨rfl, hr⟩
  exact hf r _ hv hr

/-- An entry of a splice is read, or the array ends before it. -/
lemma accesses_readPrev {splice : Splice Node} {f : Node → ListProg Node α}
    (h : L.Accesses hasLink Q (f (splice.prev i)) w) :
    L.Accesses hasLink Q (splice.readPrev i >>= f) w := by
  rw [Splice.readPrev]
  split
  · exact h
  · trivial

lemma accesses_readNext {splice : Splice Node} {f : Option Node → ListProg Node α}
    (h : L.Accesses hasLink Q (f (splice.next i)) w) :
    L.Accesses hasLink Q (splice.readNext i >>= f) w := by
  rw [Splice.readNext]
  split
  · exact h
  · trivial

lemma accesses_writeLevel {splice : Splice Node} {f : Splice Node → ListProg Node α}
    (h : L.Accesses hasLink Q (f (splice.setLevel i n p)) w) :
    L.Accesses hasLink Q (splice.writeLevel i n p >>= f) w := by
  by_cases hi : i < splice.size
  · rw [Splice.writeLevel_of_lt hi]
    exact h
  · rw [Splice.writeLevel, Splice.writePrev, if_neg hi]
    trivial

end Steps

/-! ## Searches -/

variable [DecidableEq Node] {key : DecodedKey} {fuel : ℕ}

/-- The links of the head have been written. -/
def HeadWritten (L : InlineSkipList Key DecodedKey Node) (w : Node → ℕ → Prop) : Prop :=
  ∀ i < L.kMaxHeight, w L.head i

omit [DecidableEq Node] in
lemma HeadWritten.later (h : L.HeadWritten w) (hw : w ≤ w') : L.HeadWritten w' :=
  fun i hi => hw _ i (h i hi)

omit [DecidableEq Node] in
/-- A search starts at the head on the highest level in use. -/
lemma HeadWritten.start {h : ℕ} (hhead : L.HeadWritten w) (hh : L.IsHeight h) :
    WrittenUpTo w L.head (h - 1) :=
  fun j hj => hhead j (by have := hh.1; have := hh.2; omega)

/-- `FindSpliceForLevel`. -/
lemma findSpliceForLevel_accesses {after : Option Node} {before : Node}
    (h : WrittenUpTo w before i) :
    L.Accesses hasLink (fun r v => WrittenUpTo v r.1 i ∧ PointsTo v i r.2)
      (L.findSpliceForLevel key after i fuel before) w := by
  induction fuel generalizing before w with
  | zero => trivial
  | succ fuel ih =>
    rw [findSpliceForLevel]
    refine accesses_next (h i le_rfl) fun nxt v hv hnxt => ?_
    refine Permitted.check_bind fun _ => Permitted.check_bind fun _ => ?_
    split
    · exact fun u hu => ⟨h.later (hv.trans hu), hnxt.later hu⟩
    · cases nxt with
      | none => trivial
      | some m => exact ih (hnxt m rfl)

/-- `FindGreaterOrEqual`. -/
lemma findGreaterOrEqualLoop_accesses {lastBigger : Option Node} (h : WrittenUpTo w n i) :
    L.Accesses hasLink (fun r v => PointsTo v 0 r)
      (L.findGreaterOrEqualLoop key fuel i n lastBigger) w := by
  induction fuel generalizing i n lastBigger w with
  | zero => trivial
  | succ fuel ih =>
    rw [findGreaterOrEqualLoop]
    refine accesses_next (h i le_rfl) fun nxt v hv hnxt => ?_
    refine Permitted.check_bind fun _ => Permitted.check_bind fun _ => ?_
    dsimp only
    split
    · exact fun u hu => (hnxt.later hu).below (Nat.zero_le i)
    · split
      · cases nxt with
        | none => trivial
        | some m => exact ih (hnxt m rfl)
      · exact ih ((h.later hv).below (Nat.sub_le i 1))

lemma findGreaterOrEqual_accesses (hhead : L.HeadWritten w) (a : Key) :
    L.Accesses hasLink (fun r v => PointsTo v 0 r) (L.findGreaterOrEqual fuel a) w :=
  accesses_getMaxHeight fun _ _ hv hh =>
    findGreaterOrEqualLoop_accesses ((hhead.later hv).start hh)

/-- `Contains`. -/
lemma contains_accesses (hhead : L.HeadWritten w) (a : Key) :
    L.Accesses hasLink (fun _ _ => True) (L.contains fuel a) w :=
  (findGreaterOrEqual_accesses hhead a).bind_of fun _ _ _ _ _ _ => trivial

/-- `FindLessThan`. -/
lemma findLessThanLoop_accesses {bottomLevel : ℕ} {lastNotAfter : Option Node}
    {prev : Option (ℕ → Node)} (h : WrittenUpTo w n i) :
    L.Accesses hasLink (fun r v => WrittenUpTo v r.1 0)
      (L.findLessThanLoop key bottomLevel fuel i n lastNotAfter prev) w := by
  induction fuel generalizing i n lastNotAfter prev w with
  | zero => trivial
  | succ fuel ih =>
    rw [findLessThanLoop]
    refine accesses_next (h i le_rfl) fun nxt v hv hnxt => ?_
    refine Permitted.check_bind fun _ => Permitted.check_bind fun _ => ?_
    split
    · cases nxt with
      | none => trivial
      | some m => exact ih (hnxt m rfl)
    · dsimp only
      split
      · exact fun u hu => (h.later (hv.trans hu)).below (Nat.zero_le i)
      · exact ih ((h.later hv).below (Nat.sub_le i 1))

lemma findLessThan_accesses (hhead : L.HeadWritten w) (a : Key) (prev : Option (ℕ → Node)) :
    L.Accesses hasLink (fun r v => WrittenUpTo v r.1 0) (L.findLessThan fuel a prev) w :=
  accesses_getMaxHeight fun _ _ hv hh => Permitted.check_bind fun _ =>
    findLessThanLoop_accesses ((hhead.later hv).start hh)

omit [DecidableEq Node] in
/-- `FindLast`. -/
lemma findLastLoop_accesses (h : WrittenUpTo w n i) :
    L.Accesses hasLink (fun r v => WrittenUpTo v r 0) (findLastLoop fuel i n) w := by
  induction fuel generalizing i n w with
  | zero => trivial
  | succ fuel ih =>
    rw [findLastLoop]
    refine accesses_next (h i le_rfl) fun nxt v hv hnxt => ?_
    cases nxt with
    | none =>
      dsimp only
      split
      · exact fun u hu => (h.later (hv.trans hu)).below (Nat.zero_le i)
      · exact ih ((h.later hv).below (Nat.sub_le i 1))
    | some m => exact ih (hnxt m rfl)

omit [DecidableEq Node] in
lemma findLast_accesses (hhead : L.HeadWritten w) :
    L.Accesses hasLink (fun r v => WrittenUpTo v r 0) (L.findLast fuel) w :=
  accesses_getMaxHeight fun _ _ hv hh => findLastLoop_accesses ((hhead.later hv).start hh)

/-- `EstimateCount`. -/
lemma estimateCountLoop_accesses {kBranching count : ℕ} (h : WrittenUpTo w n i) :
    L.Accesses hasLink (fun _ _ => True) (L.estimateCountLoop kBranching key fuel i n count) w := by
  induction fuel generalizing i n count w with
  | zero => trivial
  | succ fuel ih =>
    rw [estimateCountLoop]
    refine Permitted.check_bind fun _ => accesses_next (h i le_rfl) fun nxt v hv hnxt => ?_
    split
    · split
      · exact fun _ _ => trivial
      · exact ih ((h.later hv).below (Nat.sub_le i 1))
    · cases nxt with
      | none => trivial
      | some m => exact ih (hnxt m rfl)

lemma estimateCount_accesses (hhead : L.HeadWritten w) (kBranching : ℕ) (a : Key) :
    L.Accesses hasLink (fun _ _ => True) (L.estimateCount kBranching fuel a) w :=
  accesses_getMaxHeight fun _ _ hv hh => estimateCountLoop_accesses ((hhead.later hv).start hh)

/-! ## Iterators -/

namespace Iterator

variable {it : Iterator Node}

/-- The node that a search returns, unless it is the head. -/
lemma pointsTo_unless_head (h : WrittenUpTo w n 0) :
    PointsTo w 0 (if n = L.head then none else some n) := by
  split
  · exact pointsTo_none
  · exact pointsTo_some h

omit [DecidableEq Node] in
/-- `Next`. -/
lemma next_accesses (h : PointsTo w 0 it.node) :
    L.Accesses hasLink (fun it v => PointsTo v 0 it.node) it.next w := by
  obtain ⟨node⟩ := it
  refine Permitted.check_bind fun _ => ?_
  cases node with
  | none => trivial
  | some m => exact accesses_next (h m rfl 0 le_rfl) fun nxt v _ hnxt u hu => hnxt.later hu

/-- `Prev`. -/
lemma prev_accesses (hhead : L.HeadWritten w) :
    L.Accesses hasLink (fun it v => PointsTo v 0 it.node) (it.prev L fuel) w := by
  obtain ⟨node⟩ := it
  refine Permitted.check_bind fun _ => ?_
  cases node with
  | none => trivial
  | some m => exact (findLessThan_accesses hhead _ _).bind_of fun r v _ hr u hu =>
      (pointsTo_unless_head hr).later hu

/-- `Seek`. -/
lemma seek_accesses (hhead : L.HeadWritten w) (target : Key) :
    L.Accesses hasLink (fun it v => PointsTo v 0 it.node) (seek L fuel target) w :=
  (findGreaterOrEqual_accesses hhead target).bind_of fun _ _ _ hr _ hu => hr.later hu

omit [DecidableEq Node] in
/-- `SeekToFirst`. -/
lemma seekToFirst_accesses (hpos : 0 < L.kMaxHeight) (hhead : L.HeadWritten w) :
    L.Accesses hasLink (fun it v => PointsTo v 0 it.node) (seekToFirst L) w :=
  accesses_next (hhead 0 hpos) fun _ _ _ hr _ hu => hr.later hu

/-- `SeekToLast`. -/
lemma seekToLast_accesses (hhead : L.HeadWritten w) :
    L.Accesses hasLink (fun it v => PointsTo v 0 it.node) (seekToLast L fuel) w :=
  (findLast_accesses hhead).bind_of fun _ _ _ hr _ hu => (pointsTo_unless_head hr).later hu

/-- The loop of `SeekForPrev`. -/
lemma seekForPrevLoop_accesses (hhead : L.HeadWritten w) (target : Key) {rounds : ℕ}
    (h : PointsTo w 0 it.node) :
    L.Accesses hasLink (fun it v => PointsTo v 0 it.node) (seekForPrevLoop L fuel target rounds it)
      w := by
  induction rounds generalizing it w with
  | zero => trivial
  | succ rounds ih =>
    rw [seekForPrevLoop]
    split
    · obtain ⟨node⟩ := it
      cases node with
      | none => trivial
      | some m =>
        simp only [Iterator.key, Iterator.valid, Option.isSome_some, check_bind_of, pure_eq_done,
          done_bind]
        split
        · exact (prev_accesses hhead).bind_of fun it v hv hit => ih (hhead.later hv) hit
        · exact fun u hu => h.later hu
    · exact fun u hu => h.later hu

/-- `SeekForPrev`. -/
lemma seekForPrev_accesses (hhead : L.HeadWritten w) (target : Key) :
    L.Accesses hasLink (fun it v => PointsTo v 0 it.node) (seekForPrev L fuel target) w := by
  refine (seek_accesses hhead target).bind_of fun it v hv hit => ?_
  refine Permitted.bind_of (R := fun it v => PointsTo v 0 it.node) ?_ fun it' v' hv' hit' =>
    seekForPrevLoop_accesses ((hhead.later hv).later hv') target hit'
  split
  · exact fun u hu => hit.later hu
  · exact seekToLast_accesses (hhead.later hv)

end Iterator

/-! ## Insertions -/

variable {splice splice' : Splice Node} {height recomputeHeight : ℕ}

/-- The entries of a splice from a level on lead to written links; the highest one is only followed
on the level below. -/
structure SpliceWritten (w : Node → ℕ → Prop) (i : ℕ) (splice : Splice Node) : Prop where
  /-- The entries of the levels in use. -/
  levels : ∀ k, i ≤ k → k < splice.height →
    WrittenUpTo w (splice.prev k) k ∧ PointsTo w k (splice.next k)
  /-- The highest entry. -/
  top : 0 < splice.height → WrittenUpTo w (splice.prev splice.height) (splice.height - 1)

namespace SpliceWritten

omit [DecidableEq Node]

lemma later (h : SpliceWritten w i splice) (hw : w ≤ w') : SpliceWritten w' i splice :=
  ⟨fun k hk hk' => ⟨(h.levels k hk hk').1.later hw, (h.levels k hk hk').2.later hw⟩,
    fun hpos => (h.top hpos).later hw⟩

lemma from_of_le (h : SpliceWritten w i splice) (hj : i ≤ j) : SpliceWritten w j splice :=
  ⟨fun k hk => h.levels k (hj.trans hk), h.top⟩

/-- A splice that holds nothing. -/
lemma of_height_eq_zero (h : splice.height = 0) : SpliceWritten w i splice :=
  ⟨fun k _ hk => by omega, fun hpos => by omega⟩

/-- The entry above a level leads on at this level. -/
lemma above (h : SpliceWritten w (i + 1) splice) (hi : i < splice.height) :
    WrittenUpTo w (splice.prev (i + 1)) i := by
  by_cases hi' : i + 1 < splice.height
  · exact (h.levels (i + 1) le_rfl hi').1.below (Nat.le_succ i)
  · obtain rfl : i = splice.height - 1 := by omega
    rw [Nat.sub_add_cancel (by omega)]
    exact h.top (by omega)

/-- The entries of one level are replaced. -/
lemma setLevel (h : SpliceWritten w (i + 1) splice) (hi : i < splice.height)
    (hn : WrittenUpTo w n i) (hp : PointsTo w i p) : SpliceWritten w i (splice.setLevel i n p) where
  levels k hk hk' := by
    rw [Splice.setLevel_prev, Splice.setLevel_next]
    by_cases hki : k = i
    · subst hki
      rw [if_pos rfl, if_pos rfl]
      exact ⟨hn, hp⟩
    · rw [if_neg hki, if_neg hki]
      exact h.levels k (by omega) hk'
  top hpos := by
    rw [Splice.setLevel_height, Splice.setLevel_prev, if_neg (by omega)]
    exact h.top hpos

/-- The entries of one level are replaced in a splice whose entries lead to written links
already. -/
lemma replaceLevel (h : SpliceWritten w 0 splice) (hi : i < splice.height)
    (hn : WrittenUpTo w n i) (hp : PointsTo w i p) : SpliceWritten w 0 (splice.setLevel i n p) where
  levels k hk hk' := by
    rw [Splice.setLevel_prev, Splice.setLevel_next]
    by_cases hki : k = i
    · subst hki
      rw [if_pos rfl, if_pos rfl]
      exact ⟨hn, hp⟩
    · rw [if_neg hki, if_neg hki]
      exact h.levels k hk hk'
  top := ((h.from_of_le (Nat.zero_le (i + 1))).setLevel hi hn hp).top

end SpliceWritten

/-- `RecomputeSpliceLevels`. -/
lemma recomputeLoop_accesses (h : SpliceWritten w i splice) (hi : i ≤ splice.height) :
    L.Accesses hasLink (fun r v => SpliceWritten v 0 r ∧ r.height = splice.height)
      (L.recomputeLoop fuel key i splice) w := by
  induction i generalizing splice w with
  | zero => exact fun u hu => ⟨h.later hu, rfl⟩
  | succ i ih =>
    rw [recomputeLoop]
    refine accesses_readPrev (accesses_readNext ?_)
    refine (findSpliceForLevel_accesses (h.above hi)).bind_of fun r v hv hr => ?_
    exact accesses_writeLevel (ih ((h.later hv).setLevel hi hr.1 hr.2) (Nat.le_of_succ_le hi))

lemma recomputeSpliceLevels_accesses (h : SpliceWritten w i splice) :
    L.Accesses hasLink (fun r v => SpliceWritten v 0 r ∧ r.height = splice.height)
      (L.recomputeSpliceLevels fuel key splice i) w :=
  Permitted.check_bind fun _ => Permitted.check_bind fun hi =>
    recomputeLoop_accesses h (of_decide_eq_true hi)

omit [DecidableEq Node] in
/-- The new height of the list. -/
lemma raiseMaxHeight_accesses {maxHeight : ℕ} (hheight : L.IsHeight height)
    (h : L.IsHeight maxHeight) :
    L.Accesses hasLink (fun r _ => height ≤ r ∧ L.IsHeight r)
      (raiseMaxHeight height fuel maxHeight) w := by
  induction fuel generalizing maxHeight w with
  | zero => trivial
  | succ fuel ih =>
    rw [raiseMaxHeight]
    split
    · refine accesses_casMaxHeight hheight fun r v _ hr => ?_
      cases hb : r.1 with
      | true => exact fun _ _ => ⟨le_rfl, hheight⟩
      | false => exact ih (hr hb)
    · exact fun _ _ => ⟨not_lt.mp ‹_›, h⟩

/-- The loops over the entries of a splice access no links. -/
lemma skipPrev_accesses {bad : Node} :
    L.Accesses hasLink (fun _ _ => True) (skipPrev splice bad fuel recomputeHeight) w := by
  induction fuel generalizing recomputeHeight w with
  | zero => trivial
  | succ fuel ih =>
    rw [skipPrev]
    refine accesses_readPrev ?_
    split
    · exact ih
    · exact fun _ _ => trivial

lemma skipNext_accesses {bad : Option Node} :
    L.Accesses hasLink (fun _ _ => True) (skipNext splice bad fuel recomputeHeight) w := by
  induction fuel generalizing recomputeHeight w with
  | zero => trivial
  | succ fuel ih =>
    rw [skipNext]
    refine accesses_readNext ?_
    split
    · exact ih
    · exact fun _ _ => trivial

/-- The validation of a splice. -/
lemma validateSplice_accesses {maxHeight : ℕ} {allowPartialSpliceFix : Bool}
    (h : SpliceWritten w 0 splice) (hle : maxHeight ≤ splice.height) :
    L.Accesses hasLink (fun _ _ => True)
      (L.validateSplice key splice maxHeight allowPartialSpliceFix fuel recomputeHeight) w := by
  induction fuel generalizing recomputeHeight w with
  | zero => trivial
  | succ fuel ih =>
    rw [validateSplice]
    split
    case isFalse => exact fun _ _ => trivial
    case isTrue hlt =>
      refine accesses_readPrev (accesses_readNext ?_)
      obtain ⟨hprev, -⟩ := h.levels recomputeHeight (Nat.zero_le _) (hlt.trans_le hle)
      refine accesses_next (hprev _ le_rfl) fun nxt v hv _ => ?_
      have hrest : ∀ {v' : Node → ℕ → Prop} (r : ℕ), v ≤ v' → L.Accesses hasLink (fun _ _ => True)
          (L.validateSplice key splice maxHeight allowPartialSpliceFix fuel r) v' :=
        fun r hv' => ih (h.later (hv.trans hv'))
      split
      · exact hrest _ le_rfl
      · split
        · split
          · exact skipPrev_accesses.bind_of fun r v' hv' _ => hrest r hv'
          · exact hrest _ le_rfl
        · split
          · split
            · exact skipNext_accesses.bind_of fun r v' hv' _ => hrest r hv'
            · exact hrest _ le_rfl
          · exact fun _ _ => trivial

/-- The splice as an insertion is going to use it. -/
lemma prepareSplice_accesses {maxHeight : ℕ} {allowPartialSpliceFix : Bool}
    (hhead : L.HeadWritten w) (hmax : L.IsHeight maxHeight) (h : SpliceWritten w 0 splice) :
    L.Accesses hasLink (fun r v => SpliceWritten v r.2 r.1 ∧ maxHeight ≤ r.1.height)
      (L.prepareSplice fuel key splice maxHeight allowPartialSpliceFix) w := by
  rw [prepareSplice]
  split
  · refine accesses_writeLevel fun u hu => ⟨⟨fun k hk hk' => ?_, fun _ => ?_⟩, le_rfl⟩
    · exact absurd (lt_of_le_of_lt hk hk') (lt_irrefl _)
    · have hstart := ((hhead.later hu).start hmax)
      simpa [Splice.setLevel] using hstart
  · refine (validateSplice_accesses h (not_lt.mp ‹_›)).bind_of fun r v hv _ u hu => ?_
    exact ⟨((h.later hv).later hu).from_of_le (Nat.zero_le r), not_lt.mp ‹_›⟩

/-- What linking one level leaves behind. -/
def LevelWritten (x : Node) (i height : ℕ) (r : LevelResult Node) (w : Node → ℕ → Prop) : Prop :=
  SpliceWritten w 0 r.2.1 ∧ r.2.1.height = height ∧ (r.1 = true → w x i)

/-- One level of the `UseCAS` branch. -/
lemma linkLevelCAS_accesses {valid : Bool} (hlink : hasLink x i) (hx : ∀ j < i, w x j)
    (h : SpliceWritten w 0 splice) (hi : i < splice.height) :
    L.Accesses hasLink (LevelWritten x i splice.height) (L.linkLevelCAS x key i fuel splice valid)
      w := by
  induction fuel generalizing splice valid w with
  | zero => trivial
  | succ fuel ih =>
    rw [linkLevelCAS]
    refine accesses_readNext (accesses_readPrev ?_)
    obtain ⟨hprev, hnext⟩ := h.levels i (Nat.zero_le i) hi
    split
    · exact fun u hu => ⟨h.later hu, rfl, fun hf => absurd hf Bool.false_ne_true⟩
    · refine Permitted.check_bind fun _ => ?_
      refine accesses_setNext (Or.inl hlink) hnext fun v hv hxi => ?_
      have hown : WrittenUpTo v x i := fun j hj =>
        (Nat.lt_or_eq_of_le hj).elim (fun hlt => hv x j (hx j hlt)) fun he => he ▸ hxi
      refine accesses_casNext (hv _ i (hprev i le_rfl)) (hnext.later hv) (pointsTo_some hown)
        fun success v' hv' => ?_
      cases success with
      | true =>
        exact fun u hu => ⟨h.later (hv.trans (hv'.trans hu)), rfl, fun _ => hu x i (hv' x i hxi)⟩
      | false =>
        refine (findSpliceForLevel_accesses (hprev.later (hv.trans hv'))).bind_of
          fun r v'' hv'' hr => ?_
        have hle := hv.trans (hv'.trans hv'')
        exact accesses_writeLevel (ih (fun j hj => hle x j (hx j hj))
          ((h.later hle).replaceLevel hi hr.1 hr.2) hi)

/-- The repair of one level in the branch without compare-and-swap. -/
lemma repairLevel_accesses (h : SpliceWritten w 0 splice) (hi : i < splice.height) :
    L.Accesses hasLink (fun r v => SpliceWritten v 0 r ∧ r.height = splice.height)
      (L.repairLevel fuel key recomputeHeight i splice) w := by
  rw [repairLevel]
  split
  · refine accesses_readPrev (accesses_readNext ?_)
    obtain ⟨hprev, -⟩ := h.levels i (Nat.zero_le i) hi
    refine accesses_next (hprev i le_rfl) fun nxt v hv _ => ?_
    split
    · refine (findSpliceForLevel_accesses (hprev.later hv)).bind_of fun r v' hv' hr => ?_
      rw [← bind_done (splice.writeLevel i r.1 r.2)]
      exact accesses_writeLevel fun u hu =>
        ⟨((h.later (hv.trans hv')).replaceLevel hi hr.1 hr.2).later hu, rfl⟩
    · exact fun u hu => ⟨h.later (hv.trans hu), rfl⟩
  · exact fun u hu => ⟨h.later hu, rfl⟩

/-- One level of the branch without compare-and-swap. -/
lemma linkLevel_accesses {valid : Bool} (hlink : hasLink x i) (hx : ∀ j < i, w x j)
    (h : SpliceWritten w 0 splice) (hi : i < splice.height) :
    L.Accesses hasLink (LevelWritten x i splice.height)
      (L.linkLevel fuel x key recomputeHeight i splice valid) w := by
  rw [linkLevel]
  refine (repairLevel_accesses h hi).bind_of ?_
  rintro splice' v hv ⟨h', hheight⟩
  rw [← hheight]
  refine accesses_readNext (accesses_readPrev ?_)
  obtain ⟨hprev, hnext⟩ := h'.levels i (Nat.zero_le i) (hheight ▸ hi)
  split
  · exact fun u hu => ⟨h'.later hu, rfl, fun hf => absurd hf Bool.false_ne_true⟩
  · refine Permitted.check_bind fun _ => ?_
    refine accesses_next (hprev i le_rfl) fun nxt v₁ hv₁ _ => Permitted.check_bind fun _ => ?_
    refine accesses_setNext (Or.inl hlink) (hnext.later hv₁) fun v₂ hv₂ hxi => ?_
    have hown : WrittenUpTo v₂ x i := fun j hj =>
      (Nat.lt_or_eq_of_le hj).elim (fun hlt => (hv.trans (hv₁.trans hv₂)) x j (hx j hlt))
        fun he => he ▸ hxi
    refine accesses_setNext (Or.inr ((hv₁.trans hv₂) _ i (hprev i le_rfl))) (pointsTo_some hown)
      fun v₃ hv₃ _ u hu => ?_
    exact ⟨h'.later (hv₁.trans (hv₂.trans (hv₃.trans hu))), rfl, fun _ => hu x i (hv₃ x i hxi)⟩

omit [DecidableEq Node] in
/-- All levels of the node. -/
lemma forLevels_accesses {body : ℕ → Splice Node → Bool → ListProg Node (LevelResult Node)}
    {levels : ℕ} {valid : Bool} (x : Node) (height total : ℕ)
    (hbody : ∀ k splice valid v, k < height → (∀ j < k, v x j) → SpliceWritten v 0 splice →
      splice.height = total →
      L.Accesses hasLink (LevelWritten x k total) (body k splice valid) v)
    (hi : i + levels = height) (hx : ∀ j < i, w x j) (h : SpliceWritten w 0 splice)
    (hheight : splice.height = total) :
    L.Accesses hasLink
      (fun r v => SpliceWritten v 0 r.2.1 ∧ r.2.1.height = total ∧
        (r.1 = true → ∀ j < height, v x j))
      (forLevels body levels i splice valid) w := by
  induction levels generalizing i splice valid w with
  | zero => exact fun u hu => ⟨h.later hu, hheight, fun _ j hj => hu x j (hx j (by omega))⟩
  | succ levels ih =>
    rw [forLevels]
    refine (hbody i splice valid w (by omega) hx h hheight).bind_of ?_
    rintro r v hv ⟨hr, hrh, hxi⟩
    split
    case isTrue hlinked =>
      refine ih (by omega) (fun j hj => ?_) hr hrh
      rcases Nat.lt_succ_iff_lt_or_eq.mp hj with hlt | rfl
      · exact hv x j (hx j hlt)
      · exact hxi hlinked
    case isFalse hdup => exact fun u hu => ⟨hr.later hu, hrh, fun hlinked => absurd hlinked hdup⟩

omit [DecidableEq Node] in
/-- The new node becomes the predecessor on its own levels. -/
lemma ownLevels_accesses (hle : height ≤ splice.height) (hx : ∀ j < height, w x j)
    (h : SpliceWritten w 0 splice) :
    L.Accesses hasLink (fun r v => SpliceWritten v 0 r ∧ r.height = splice.height)
      (ownLevels x height splice) w := by
  induction height generalizing w with
  | zero => exact fun u hu => ⟨h.later hu, rfl⟩
  | succ i ih =>
    rw [ownLevels]
    refine (ih (by omega) (fun j hj => hx j (by omega)) h).bind_of ?_
    rintro splice' v hv ⟨h', hheight⟩
    rw [Splice.writePrev]
    split
    · refine fun u hu => ⟨SpliceWritten.later ⟨fun k hk hk' => ⟨?_, (h'.levels k hk hk').2⟩,
        fun hpos => ?_⟩ hu, hheight⟩
      · dsimp only
        rw [Function.update_apply]
        split
        case isTrue hki => exact fun j hj => hv x j (hx j (by omega))
        case isFalse => exact (h'.levels k hk hk').1
      · dsimp only
        rw [Function.update_of_ne (show splice'.height ≠ i by omega)]
        exact h'.top hpos
    · trivial

/-- The end of a successful insertion. -/
lemma finishSplice_accesses {valid : Bool} (hle : height ≤ splice.height)
    (hx : ∀ j < height, w x j) (h : SpliceWritten w 0 splice) :
    L.Accesses hasLink (fun r v => SpliceWritten v 0 r)
      (L.finishSplice x height splice valid) w := by
  rw [finishSplice]
  split
  · refine (ownLevels_accesses hle hx h).bind_of ?_
    rintro splice' v hv ⟨h', -⟩
    refine accesses_readPrev (Permitted.check_bind fun _ => accesses_readNext ?_)
    exact Permitted.check_bind fun _ => Permitted.check_bind fun _ u hu => h'.later hu
  · exact fun u hu => SpliceWritten.of_height_eq_zero rfl

/-- `Insert<UseCAS>` in both branches. -/
theorem insertWithSplice_accesses {useCAS allowPartialSpliceFix : Bool} (hhead : L.HeadWritten w)
    (hlink : ∀ i < L.unstashHeight x, hasLink x i) (h : SpliceWritten w 0 splice) :
    L.Accesses hasLink (fun r v => SpliceWritten v 0 r.2)
      (L.insertWithSplice fuel useCAS x splice allowPartialSpliceFix) w := by
  rw [insertWithSplice]
  refine Permitted.check_bind fun hheight => ?_
  have hx : L.IsHeight (L.unstashHeight x) := by simpa [IsHeight] using hheight
  refine accesses_getMaxHeight fun maxHeight v hv hmax => ?_
  refine (raiseMaxHeight_accesses hx hmax).bind_of ?_
  rintro maxHeight v₁ hv₁ ⟨hle, hmax⟩
  refine Permitted.check_bind fun _ => ?_
  have hw₁ := hv.trans hv₁
  refine (prepareSplice_accesses (hhead.later hw₁) hmax (h.later hw₁)).bind_of ?_
  rintro r v₂ hv₂ ⟨hr, hrh⟩
  refine Permitted.check_bind fun _ => ?_
  have hrecompute : L.Accesses hasLink
      (fun splice' v => SpliceWritten v 0 splice' ∧ splice'.height = r.1.height)
      (if 0 < r.2 then L.recomputeSpliceLevels fuel (L.cmp.decodeKey (L.key x)) r.1 r.2
        else pure r.1) v₂ := by
    split
    case isTrue => exact recomputeSpliceLevels_accesses hr
    case isFalse hzero =>
      obtain hzero : r.2 = 0 := by omega
      rw [hzero] at hr
      exact fun u hu => ⟨hr.later hu, rfl⟩
  refine hrecompute.bind_of ?_
  rintro splice' v₃ hv₃ ⟨hs, hsh⟩
  dsimp only
  refine (forLevels_accesses x (L.unstashHeight x) splice'.height
    (fun k splice valid v hk hxk hs' hh => ?_) (Nat.zero_add _)
    (fun j hj => absurd hj j.not_lt_zero)
    hs rfl).bind_of ?_
  · have hk' : k < splice.height := by omega
    rw [← hh]
    split
    · exact linkLevelCAS_accesses (hlink k hk) hxk hs' hk'
    · exact linkLevel_accesses (hlink k hk) hxk hs' hk'
  · rintro l v₄ hv₄ ⟨hl, hlh, hxl⟩
    split
    case isTrue hlinked =>
      exact (finishSplice_accesses (by omega) (hxl hlinked) hl).bind_of fun r v _ hr u hu =>
        hr.later hu
    case isFalse => exact fun u hu => hl.later hu

/-! ## The validation of a list -/

omit [DecidableEq Node] in
/-- A cursor is followed, or it is null. -/
lemma deref_accesses {f : Node → ListProg Node α}
    (h : ∀ m, p = some m → L.Accesses hasLink Q (f m) w) :
    L.Accesses hasLink Q (deref p >>= f) w := by
  cases p with
  | none => trivial
  | some m => exact h m rfl

section Validate

variable {levels maxHeight : ℕ} {nodes : ℕ → Option Node}

/-- The cursors lead to written links. -/
def CursorsWritten (w : Node → ℕ → Prop) (maxHeight : ℕ) (nodes : ℕ → Option Node) : Prop :=
  ∀ k < maxHeight, PointsTo w k (nodes k)

omit [DecidableEq Node]

lemma CursorsWritten.later (h : CursorsWritten w maxHeight nodes) (hw : w ≤ w') :
    CursorsWritten w' maxHeight nodes := fun k hk => (h k hk).later hw

lemma CursorsWritten.update (h : CursorsWritten w maxHeight nodes) (hp : PointsTo w i p) :
    CursorsWritten w maxHeight (Function.update nodes i p) := by
  intro k hk
  by_cases hki : k = i
  · subst hki
    rwa [Function.update_self]
  · rw [Function.update_of_ne hki]
    exact h k hk

/-- The loop over the levels. -/
lemma advanceCursors_accesses [DecidableEq Node] (h : CursorsWritten w maxHeight nodes)
    (hi : i + levels ≤ maxHeight) :
    L.Accesses hasLink (fun r v => CursorsWritten v maxHeight r)
      (L.advanceCursors levels i nodes) w := by
  induction levels generalizing i nodes w with
  | zero => exact fun u hu => h.later hu
  | succ levels ih =>
    rw [advanceCursors]
    refine deref_accesses fun m hm => ?_
    refine accesses_next ((h i (by omega)) m hm i le_rfl) fun nxt v hv hnxt => ?_
    cases nxt with
    | none => exact fun u hu => h.later (hv.trans hu)
    | some n =>
      refine deref_accesses fun m₀ _ => Permitted.check_bind fun _ => ?_
      split
      · exact Permitted.check_bind fun _ => ih ((h.later hv).update hnxt) (by omega)
      · exact fun u hu => h.later (hv.trans hu)

/-- The loop over the nodes. -/
lemma validateLoop_accesses [DecidableEq Node] (h : CursorsWritten w maxHeight nodes)
    (hpos : 0 < maxHeight) :
    L.Accesses hasLink (fun r v => CursorsWritten v maxHeight r)
      (L.validateLoop maxHeight fuel nodes) w := by
  induction fuel generalizing nodes w with
  | zero => trivial
  | succ fuel ih =>
    rw [validateLoop]
    split
    case h_1 => exact fun u hu => h.later hu
    case h_2 m hm =>
      refine accesses_next (h 0 hpos m hm 0 le_rfl) fun nxt v hv hnxt => ?_
      cases nxt with
      | none => exact fun u hu => h.later (hv.trans hu)
      | some n =>
        refine Permitted.check_bind fun _ => ?_
        exact (advanceCursors_accesses ((h.later hv).update hnxt) (by omega)).bind_of
          fun r v' _ hr => ih hr

/-- The loop at the end. -/
lemma checkEnds_accesses [DecidableEq Node] (h : CursorsWritten w maxHeight nodes)
    (hi : i + levels ≤ maxHeight) :
    L.Accesses hasLink (fun _ _ => True) (checkEnds levels i nodes) w := by
  induction levels generalizing i w with
  | zero => exact fun _ _ => trivial
  | succ levels ih =>
    rw [checkEnds]
    refine Permitted.check_bind fun _ => deref_accesses fun m hm => ?_
    refine accesses_next ((h i (by omega)) m hm i le_rfl) fun nxt v hv _ => ?_
    exact Permitted.check_bind fun _ => ih (h.later hv) (by omega)

/-- `TEST_Validate`. -/
lemma testValidate_accesses [DecidableEq Node] (hhead : L.HeadWritten w) :
    L.Accesses hasLink (fun _ _ => True) (L.testValidate fuel nodes) w := by
  refine accesses_getMaxHeight fun maxHeight v hv hmax => ?_
  refine Permitted.check_bind fun _ => ?_
  rw [resetCursors, bind_bind]
  refine Permitted.check_bind fun _ => ?_
  have hstart : CursorsWritten v maxHeight fun i =>
      if i < maxHeight then some L.head else nodes i := by
    intro k hk
    dsimp only
    rw [if_pos hk]
    exact pointsTo_some (((hhead.later hv).start hmax).below (by omega))
  exact (validateLoop_accesses hstart hmax.1).bind_of fun r v' _ hr =>
    checkEnds_accesses hr (by have := hmax.1; omega)

end Validate

/-! ## Sessions of calls -/

/-- A call that a thread may make without regard to the others. -/
inductive UncheckedRequest (Key Node ι : Type) : Type
  /-- A call that clients make. -/
  | request (q : Request Key Node ι)
  /-- `Insert<false>(key, splice, allow_partial_splice_fix)`. -/
  | insertExclusive (x : Node) (splice : ι) (allowPartialSpliceFix : Bool)
  /-- `TEST_Validate`, where `nodes` is what its uninitialised array holds. -/
  | testValidate (nodes : ℕ → Option Node)

variable {T ι : Type}

namespace UncheckedRequest

/-- The program of a call; `TEST_Validate` returns if its assertions hold. -/
def prog [DecidableEq ι] (L : InlineSkipList Key DecodedKey Node) (kBranching : ℕ)
    (env : Surroundings Node) : UncheckedRequest Key Node ι → (ι → Splice Node) →
      ListProg Node (Reply Node × (ι → Splice Node))
  | request q, splices => q.prog L kBranching env splices
  | insertExclusive x i fix, splices => do
    let r ← L.insertWithSplice env.fuel false x (splices i) fix
    pure (.flag r.1, Function.update splices i r.2)
  | testValidate nodes, splices => do
    L.testValidate env.fuel nodes
    pure (.flag true, splices)

omit [DecidableEq Node]

/-- The node that a call inserts. -/
def node : UncheckedRequest Key Node ι → Option Node
  | request q => q.node
  | insertExclusive x _ _ => some x
  | testValidate _ => none

/-- The iterator that a call moves. -/
def iterator : UncheckedRequest Key Node ι → Option (Iterator Node)
  | request q => q.iterator
  | _ => none

end UncheckedRequest

omit [DecidableEq Node] in
/-- What the clients have to keep to: each inserts allocated nodes of its own, once, and moves only
iterators that earlier calls have left behind. -/
structure UsesOwnNodes (L : InlineSkipList Key DecodedKey Node) (hasLink : Node → ℕ → Prop)
    (own : T → Node → Prop)
    (client : T → List (Reply Node) → Option (UncheckedRequest Key Node ι)) : Prop where
  /-- A node belongs to one thread. -/
  disjoint : ∀ t u x, own t x → own u x → t = u
  /-- An inserted node is an own one with as many links as its height. -/
  node : ∀ t replies q x, client t replies = some q → q.node = some x →
    own t x ∧ ∀ i < L.unstashHeight x, hasLink x i
  /-- A node is inserted once. -/
  once : ∀ t replies q x, client t replies = some q → q.node = some x →
    ∀ k < replies.length, ∀ q', client t (replies.take k) = some q' → q'.node ≠ some x
  /-- A moved iterator comes from an earlier call. -/
  iterator : ∀ t replies q it, client t replies = some q → q.iterator = some it →
    .position it ∈ replies

/-- What a thread knows about the links: iterators stand at nodes and splices hold nodes whose links
have been written. -/
structure RepliesWritten (L : InlineSkipList Key DecodedKey Node)
    (replies : List (Reply Node)) (splices : ι → Splice Node) (w : Node → ℕ → Prop) : Prop where
  /-- The links of the head have been written. -/
  head : L.HeadWritten w
  /-- Iterators that calls have left behind stand at nodes that have been written. -/
  position : ∀ it, .position it ∈ replies → PointsTo w 0 it.node
  /-- The splices hold nodes that have been written. -/
  splice : ∀ i, SpliceWritten w 0 (splices i)

namespace RepliesWritten

variable {replies : List (Reply Node)} {splices : ι → Splice Node} {it : Iterator Node}

omit [DecidableEq Node]

lemma later (h : L.RepliesWritten replies splices w) (hw : w ≤ w') :
    L.RepliesWritten replies splices w' :=
  ⟨h.head.later hw, fun it hit => (h.position it hit).later hw, fun i => (h.splice i).later hw⟩

/-- A call that returns an iterator. -/
lemma concat_position (h : L.RepliesWritten replies splices w) (hit : PointsTo w 0 it.node) :
    L.RepliesWritten (replies ++ [.position it]) splices w := by
  refine ⟨h.head, fun it' hit' => ?_, h.splice⟩
  rcases List.mem_append.mp hit' with hit' | hit'
  · exact h.position it' hit'
  · cases List.mem_singleton.mp hit'
    exact hit

/-- A call that returns something else. -/
lemma concat {r : Reply Node} (h : L.RepliesWritten replies splices w)
    (hr : ∀ it, r ≠ .position it) : L.RepliesWritten (replies ++ [r]) splices w := by
  refine ⟨h.head, fun it hit => ?_, h.splice⟩
  rcases List.mem_append.mp hit with hit | hit
  · exact h.position it hit
  · exact absurd (List.mem_singleton.mp hit).symm (hr it)

/-- A call that changes a splice. -/
lemma update [DecidableEq ι] {i : ι} (h : L.RepliesWritten replies splices w)
    (hs : SpliceWritten w 0 splice) :
    L.RepliesWritten replies (Function.update splices i splice) w := by
  refine ⟨h.head, h.position, fun k => ?_⟩
  by_cases hki : k = i
  · subst hki
    rwa [Function.update_self]
  · rw [Function.update_of_ne hki]
    exact h.splice k

end RepliesWritten

section Calls

variable [DecidableEq ι] {replies : List (Reply Node)} {splices : ι → Splice Node} {kBranching : ℕ}
  {env : Surroundings Node}

omit [DecidableEq Node] [DecidableEq ι] in
/-- A call that returns the iterator that a program leaves behind. -/
lemma position_accesses {p : ListProg Node (Iterator Node)}
    (h : L.RepliesWritten replies splices w)
    (hp : L.Accesses hasLink (fun it v => PointsTo v 0 it.node) p w) :
    L.Accesses hasLink (fun r v => L.RepliesWritten (replies ++ [r.1]) r.2 v)
      (p >>= fun it => pure (Reply.position it, splices)) w :=
  hp.bind_of fun _ _ hv hit _ hu => ((h.later hv).concat_position hit).later hu

/-- An insertion through a splice of the thread. -/
lemma insert_accesses {useCAS fix : Bool} {i : ι} (h : L.RepliesWritten replies splices w)
    (hlink : ∀ i < L.unstashHeight x, hasLink x i) :
    L.Accesses hasLink (fun r v => L.RepliesWritten (replies ++ [r.1]) r.2 v)
      (L.insertWithSplice fuel useCAS x (splices i) fix >>= fun r =>
        pure (Reply.flag r.1, Function.update splices i r.2)) w :=
  (insertWithSplice_accesses h.head hlink (h.splice i)).bind_of fun r _ hv hs _ hu =>
    (((h.later hv).concat (r := .flag r.1) fun _ hf => nomatch hf).update hs).later hu

/-- A call of a client accesses links as it may. -/
theorem Request.prog_accesses (hpos : 0 < L.kMaxHeight) {q : Request Key Node ι}
    (h : L.RepliesWritten replies splices w)
    (hnode : ∀ x, q.node = some x → ∀ i < L.unstashHeight x, hasLink x i)
    (hit : ∀ it, q.iterator = some it → .position it ∈ replies) :
    L.Accesses hasLink (fun r v => L.RepliesWritten (replies ++ [r.1]) r.2 v)
      (q.prog L kBranching env splices) w := by
  cases q with
  | insert x i fix => exact insert_accesses h (hnode x rfl)
  | insertConcurrently x =>
    refine Permitted.bind_of (R := fun _ _ => True) ?_ fun b v hv _ u hu => ?_
    · exact (insertWithSplice_accesses h.head (hnode x rfl)
        (SpliceWritten.of_height_eq_zero rfl)).bind_of fun _ _ _ _ _ _ => trivial
    · exact ((h.later hv).concat (r := .flag b) fun _ hf => nomatch hf).later hu
  | contains key =>
    exact (contains_accesses h.head key).bind_of fun b v hv _ u hu =>
      ((h.later hv).concat (r := .flag b) fun _ hf => nomatch hf).later hu
  | estimateCount key =>
    exact (estimateCount_accesses h.head kBranching key).bind_of fun m v hv _ u hu =>
      ((h.later hv).concat (r := .count m) fun _ hf => nomatch hf).later hu
  | seek target => exact position_accesses h (Iterator.seek_accesses h.head target)
  | seekForPrev target => exact position_accesses h (Iterator.seekForPrev_accesses h.head target)
  | seekToFirst => exact position_accesses h (Iterator.seekToFirst_accesses hpos h.head)
  | seekToLast => exact position_accesses h (Iterator.seekToLast_accesses h.head)
  | next it => exact position_accesses h (Iterator.next_accesses (h.position it (hit it rfl)))
  | prev it => exact position_accesses h (Iterator.prev_accesses h.head)

/-- So does every other call. -/
theorem UncheckedRequest.prog_accesses (hpos : 0 < L.kMaxHeight) {q : UncheckedRequest Key Node ι}
    (h : L.RepliesWritten replies splices w)
    (hnode : ∀ x, q.node = some x → ∀ i < L.unstashHeight x, hasLink x i)
    (hit : ∀ it, q.iterator = some it → .position it ∈ replies) :
    L.Accesses hasLink (fun r v => L.RepliesWritten (replies ++ [r.1]) r.2 v)
      (q.prog L kBranching env splices) w := by
  cases q with
  | request q => exact Request.prog_accesses hpos h hnode hit
  | insertExclusive x i fix => exact insert_accesses h (hnode x rfl)
  | testValidate nodes =>
    exact (testValidate_accesses h.head).bind_of fun _ v hv _ u hu =>
      ((h.later hv).concat (r := .flag true) fun _ hf => nomatch hf).later hu

end Calls

end InlineSkipList

end PmemKv
