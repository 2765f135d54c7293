import PmemKv.SkipList.Interference

/-!
# Searches next to insertions

The obligations of `FindGreaterOrEqual`, `FindLessThan`, `FindLast` and `Contains` next to
insertions.  The last load of a search is its linearization point: at that instant the answer is the
one that the chain of the lowest level gives.  A comparison that was made on a higher level may be
used again, although nodes have been linked since, because the node compared with stays where it
stands relative to the key.
-/

namespace PmemKv

open AtomicProg AtomicProg.Prog LinkedChain

namespace InlineSkipList

variable {Key DecodedKey Node : Type} [DecidableEq Node] {L : InlineSkipList Key DecodedKey Node}
  {s : Links Node} {chain : ℕ → List Node} {a : Key} {x : Node} {level fuel : ℕ}
  {rely guar : Node → Prop}

/-- The loop of `FindGreaterOrEqual` next to insertions. -/
theorem findGreaterOrEqualLoop_safe (h : L.Shape s chain) {lastBigger : Option Node}
    (hlevel : level < L.kMaxHeight) (hx : x = L.head ∨ x ∈ chain level) (hleft : L.Left a x)
    (hlast : L.Right a lastBigger) :
    L.SafeIn rely guar (fun r s' => ∃ chain', L.Shape s' chain' ∧ r = L.succAt chain' a 0)
      (L.findGreaterOrEqualLoop (L.cmp.decodeKey a) fuel level x lastBigger) s := by
  induction fuel generalizing s chain level x lastBigger with
  | zero => trivial
  | succ fuel ih =>
    rw [findGreaterOrEqualLoop]
    refine safe_next h fun s₁ chain₁ hS₁ he => ?_
    have hx₁ : x = L.head ∨ x ∈ chain₁ level := hx.imp id (he.sub level x)
    obtain ⟨hneg, hzero, hpos⟩ := compareNext_spec (s₁.next x level) hlast
    rw [check_bind_of (hS₁.isSorted_next hlevel hx₁),
      check_bind_of (keyIsAfterNode_of_left hleft)]
    generalize L.compareNext (L.cmp.decodeKey a) (s₁.next x level) lastBigger = cmp
      at hneg hzero hpos ⊢
    dsimp only
    by_cases hstop : cmp = 0 ∨ (0 < cmp ∧ level = 0)
    · rw [if_pos (by simpa using hstop)]
      refine ⟨chain₁, hS₁, ?_⟩
      rcases hstop with heq | ⟨hgt, rfl⟩
      · -- an equal key on any level is linked on level `0` at this instant
        obtain ⟨n, hn, heq⟩ := hzero heq
        have hn0 := hS₁.mem_of_le (Nat.zero_le level) (hS₁.next_mem hlevel hx₁ hn).1
        rw [hn, hS₁.succAt_eq_of_equiv hn0 heq.symm]
      · exact (hS₁.eq_neighbours hlevel hx₁ hleft (hpos hgt)).2
    rw [if_neg (by simpa using hstop)]
    by_cases hlt : cmp < 0
    · obtain ⟨n, hn, hna⟩ := hneg hlt
      rw [if_pos hlt, hn]
      exact ih hS₁ hlevel (Or.inr (hS₁.next_mem hlevel hx₁ hn).1) (Or.inr hna) hlast
    · rw [if_neg hlt]
      have hcmp : 0 < cmp := by omega
      obtain ⟨level, rfl⟩ : ∃ j, level = j + 1 := ⟨level - 1, by omega⟩
      exact ih hS₁ (Nat.lt_of_succ_lt hlevel) (hx₁.imp id (hS₁.nested level x)) hleft (hpos hcmp)

/-- `FindGreaterOrEqual` next to insertions. -/
theorem findGreaterOrEqual_safe (h : L.Shape s chain) :
    L.SafeIn rely guar (fun r s' => ∃ chain', L.Shape s' chain' ∧ r = L.succAt chain' a 0)
      (L.findGreaterOrEqual fuel a) s := by
  rw [findGreaterOrEqual]
  refine safe_getMaxHeight h fun s₁ chain₁ hS₁ he => ?_
  have hpos := hS₁.maxHeight_pos
  have hle := hS₁.maxHeight_le
  exact findGreaterOrEqualLoop_safe hS₁ (by omega) (Or.inl rfl) (Or.inl rfl) right_none

/-- `Contains` next to insertions. -/
theorem contains_safe (h : L.Shape s chain) :
    L.SafeIn rely guar (fun b s' => ∃ chain', L.Shape s' chain' ∧ b = decide (L.Stored chain' a))
      (L.contains fuel a) s := by
  rw [contains]
  refine SafeIn.bind_of (findGreaterOrEqual_safe (a := a) h) ?_
  rintro _ s₁ ⟨chain₁, hS₁, rfl⟩
  refine ⟨chain₁, hS₁, ?_⟩
  rw [Bool.eq_iff_iff, Option.any_eq_true, decide_eq_true_iff, hS₁.stored_iff]
  simp only [decide_eq_true_eq]
  rfl

/-- The loop of `FindLessThan` next to insertions. -/
theorem findLessThanLoop_safe (h : L.Shape s chain) {lastNotAfter : Option Node} {bottomLevel : ℕ}
    {prev : Option (ℕ → Node)} (hbottom : bottomLevel ≤ level) (hlevel : level < L.kMaxHeight)
    (hx : x = L.head ∨ x ∈ chain level) (hleft : L.Left a x) (hlast : L.Right a lastNotAfter) :
    L.SafeIn rely guar
      (fun r s' => ∃ chain', L.Shape s' chain' ∧ r.1 = L.predAt chain' a bottomLevel)
      (L.findLessThanLoop (L.cmp.decodeKey a) bottomLevel fuel level x lastNotAfter prev) s := by
  induction fuel generalizing s chain level x lastNotAfter prev with
  | zero => trivial
  | succ fuel ih =>
    rw [findLessThanLoop]
    refine safe_next h fun s₁ chain₁ hS₁ he => ?_
    have hx₁ : x = L.head ∨ x ∈ chain₁ level := hx.imp id (he.sub level x)
    rw [check_bind_of (hS₁.isSorted_next hlevel hx₁),
      check_bind_of (keyIsAfterNode_of_left hleft)]
    by_cases hgo : s₁.next x level ≠ lastNotAfter ∧
        L.keyIsAfterNode (L.cmp.decodeKey a) (s₁.next x level) = true
    · rw [if_pos (by simpa using hgo)]
      cases hn : s₁.next x level with
      | none => simp [hn] at hgo
      | some n =>
        have hna : L.cmp.Lt (L.key n) a := by simpa [hn] using hgo.2
        exact ih hS₁ hbottom hlevel (Or.inr (hS₁.next_mem hlevel hx₁ hn).1) (Or.inr hna) hlast
    · have hright : L.Right a (s₁.next x level) := by
        intro n hn
        by_cases he : s₁.next x level = lastNotAfter
        · exact hlast n (he ▸ hn)
        · intro hlt
          exact hgo ⟨he, by simp [hn, hlt]⟩
      rw [if_neg (by simpa using hgo)]
      dsimp only
      by_cases hb : level = bottomLevel
      · subst hb
        rw [if_pos rfl]
        exact ⟨chain₁, hS₁, (hS₁.eq_neighbours hlevel hx₁ hleft hright).1⟩
      · rw [if_neg hb]
        obtain ⟨level, rfl⟩ : ∃ j, level = j + 1 := ⟨level - 1, by omega⟩
        exact ih hS₁ (by omega) (Nat.lt_of_succ_lt hlevel) (hx₁.imp id (hS₁.nested level x)) hleft
          hright

/-- `FindLessThan` next to insertions. -/
theorem findLessThan_safe (h : L.Shape s chain) (prev : Option (ℕ → Node)) :
    L.SafeIn rely guar (fun r s' => ∃ chain', L.Shape s' chain' ∧ r.1 = L.predAt chain' a 0)
      (L.findLessThan fuel a prev) s := by
  rw [findLessThan]
  refine safe_getMaxHeight h fun s₁ chain₁ hS₁ he => ?_
  have hpos := hS₁.maxHeight_pos
  have hle := hS₁.maxHeight_le
  rw [findLessThanFrom, check_bind_of (by simpa using hpos)]
  exact findLessThanLoop_safe hS₁ (Nat.zero_le _) (by omega) (Or.inl rfl) (Or.inl rfl) right_none

/-- The loop of `FindLast` next to insertions. -/
theorem findLastLoop_safe (h : L.Shape s chain) (hlevel : level < L.kMaxHeight)
    (hx : x = L.head ∨ x ∈ chain level) :
    L.SafeIn rely guar (fun r s' => ∃ chain', L.Shape s' chain' ∧ r = (chain' 0).getLastD L.head)
      (findLastLoop fuel level x) s := by
  induction fuel generalizing s chain level x with
  | zero => trivial
  | succ fuel ih =>
    rw [findLastLoop]
    refine safe_next h fun s₁ chain₁ hS₁ he => ?_
    have hx₁ : x = L.head ∨ x ∈ chain₁ level := hx.imp id (he.sub level x)
    cases hn : s₁.next x level with
    | some n => exact ih hS₁ hlevel (Or.inr (hS₁.next_mem hlevel hx₁ hn).1)
    | none =>
      dsimp only
      by_cases h0 : level = 0
      · subst h0
        rw [if_pos rfl]
        refine ⟨chain₁, hS₁, ?_⟩
        obtain ⟨l₁, l₂, hl, hlast⟩ := exists_getLastD_eq (List.mem_cons.mpr hx₁)
        have hnil : l₂ = [] :=
          List.head?_eq_none_iff.mp ((hS₁.next_of_split hlevel hl hlast).2.symm.trans hn)
        rw [hl, hnil, List.append_nil, hlast]
      · rw [if_neg h0]
        obtain ⟨level, rfl⟩ : ∃ j, level = j + 1 := ⟨level - 1, by omega⟩
        exact ih hS₁ (Nat.lt_of_succ_lt hlevel) (hx₁.imp id (hS₁.nested level x))

/-- `FindLast` next to insertions. -/
theorem findLast_safe (h : L.Shape s chain) :
    L.SafeIn rely guar (fun r s' => ∃ chain', L.Shape s' chain' ∧ r = (chain' 0).getLastD L.head)
      (L.findLast fuel) s := by
  rw [findLast]
  refine safe_getMaxHeight h fun s₁ chain₁ hS₁ he => ?_
  have hpos := hS₁.maxHeight_pos
  have hle := hS₁.maxHeight_le
  exact findLastLoop_safe hS₁ (by omega) (Or.inl rfl)

/-! ## The searches and their sequential answers -/

/-- A call of one of the searches. -/
inductive Search (Key : Type) : Type
  /-- `FindGreaterOrEqual(key)`. -/
  | findGreaterOrEqual (key : Key)
  /-- `FindLessThan(key)`. -/
  | findLessThan (key : Key)
  /-- `FindLast()`. -/
  | findLast
  /-- `Contains(key)`. -/
  | contains (key : Key)

/-- What a search returns. -/
abbrev Search.Result (Node : Type) : Search Key → Type
  | .findGreaterOrEqual _ => Option Node
  | .findLessThan _ => Node
  | .findLast => Node
  | .contains _ => Bool

/-- The program of a search. -/
def searchProg (L : InlineSkipList Key DecodedKey Node) (fuel : ℕ) :
    (q : Search Key) → ListProg Node (q.Result Node)
  | .findGreaterOrEqual key => L.findGreaterOrEqual fuel key
  | .findLessThan key => do
    let r ← L.findLessThan fuel key none
    pure r.1
  | .findLast => L.findLast fuel
  | .contains key => L.contains fuel key

/-- The answer that a sequential search of the chain `l` gives: the first node whose key is at least
the given one, the last node whose key is smaller or the head, the last node or the head, whether
there is an equal key. -/
def answer (L : InlineSkipList Key DecodedKey Node) (l : List Node) :
    (q : Search Key) → q.Result Node
  | .findGreaterOrEqual key => l.find? fun n => !L.isBefore key n
  | .findLessThan key => (l.filter fun n => L.isBefore key n).getLastD L.head
  | .findLast => l.getLastD L.head
  | .contains key => l.any fun n => L.cmp.compare key (L.key n) = 0

omit [DecidableEq Node] in
/-- The neighbours of a key on a level are found by searching its chain. -/
lemma Shape.neighbours_eq (h : L.Shape s chain) (a : Key) (i : ℕ) :
    L.predAt chain a i = ((chain i).filter fun n => L.isBefore a n).getLastD L.head ∧
      L.succAt chain a i = (chain i).find? fun n => !L.isBefore a n := by
  obtain ⟨h₁, h₂⟩ := cut_eq_filter (h.sorted i) (isBefore_of_nodeLt (L := L) a)
  rw [predAt, succAt, h₁, h₂, List.head?_filter]
  exact ⟨rfl, rfl⟩

/-- **Every search next to insertions** returns the answer of the chain of level `0` at the instant
of its last load. -/
theorem searchProg_safe (h : L.Shape s chain) (q : Search Key) :
    L.SafeIn rely guar (fun r s' => ∃ chain', L.Shape s' chain' ∧ r = L.answer (chain' 0) q)
      (L.searchProg fuel q) s := by
  cases q with
  | findGreaterOrEqual key =>
    refine (findGreaterOrEqual_safe (a := key) h).mono ?_
    rintro _ s₁ ⟨chain₁, hS₁, rfl⟩
    exact ⟨chain₁, hS₁, (hS₁.neighbours_eq key 0).2⟩
  | findLessThan key =>
    refine SafeIn.bind_of (findLessThan_safe (a := key) h none) ?_
    rintro r s₁ ⟨chain₁, hS₁, hr⟩
    exact ⟨chain₁, hS₁, hr.trans (hS₁.neighbours_eq key 0).1⟩
  | findLast => exact findLast_safe h
  | contains key =>
    refine (contains_safe (a := key) h).mono ?_
    rintro _ s₁ ⟨chain₁, hS₁, rfl⟩
    refine ⟨chain₁, hS₁, ?_⟩
    rw [Bool.eq_iff_iff, decide_eq_true_iff, answer, List.any_eq_true]
    simp only [decide_eq_true_eq]
    rfl

end InlineSkipList

end PmemKv
