import PmemKv.SkipList.Reachable

/-!
# The validation of a list

The source function `TEST_Validate`.  It moves one cursor a level through the list in a single pass:
whenever the cursor of level `0` comes to a node, the cursors of the upper levels follow in turn, up
to the first level whose next node is another one.  An error on an upper level therefore shows only
later, when a cursor is found behind a key or, at the end, before a node.

For any links, of which only the chain of level `0` has to be finite, all assertions hold exactly if
level `0` is strictly increasing and each further level in use is a finite chain that is a
subsequence of the level below.
-/

namespace PmemKv

open AtomicProg AtomicProg.Prog LinkedChain

namespace InlineSkipList

variable {Key DecodedKey Node : Type} [DecidableEq Node] (L : InlineSkipList Key DecodedKey Node)

/-- Read through a pointer. -/
def deref (p : Option Node) : ListProg Node Node :=
  match p with
  | some n => pure n
  | none => .fault

/-- `for (int i = 0; i < max_height; i++) nodes[i] = head_`; the array has `kMaxPossibleHeight`
entries. -/
def resetCursors (maxHeight : ℕ) (nodes : ℕ → Option Node) : ListProg Node (ℕ → Option Node) := do
  check (maxHeight ≤ kMaxPossibleHeight)
  pure fun i => if i < maxHeight then some L.head else nodes i

/-- The inner loop, over the levels from `i` on: the cursors follow that of level `0`. -/
def advanceCursors : ℕ → ℕ → (ℕ → Option Node) → ListProg Node (ℕ → Option Node)
  | 0, _, nodes => pure nodes
  | levels + 1, i, nodes => do
    let x ← deref (nodes i)
    let nxt ← next x i
    match nxt with
    | none => pure nodes
    | some n => do
      let x ← deref (nodes 0)
      let cmp := L.cmp.compare (L.key x) (L.key n)
      check (cmp ≤ 0)
      if cmp = 0 then do
        check (nodes 0 = some n)
        advanceCursors levels (i + 1) (Function.update nodes i (some n))
      else pure nodes

/-- The outer loop, over the nodes of level `0`. -/
def validateLoop (maxHeight : ℕ) : ℕ → (ℕ → Option Node) → ListProg Node (ℕ → Option Node)
  | 0, _ => .exhausted
  | fuel + 1, nodes =>
    match nodes 0 with
    | none => pure nodes
    | some x => do
      let l0Next ← next x 0
      match l0Next with
      | none => pure nodes
      | some n => do
        check (x = L.head || L.cmp.compare (L.key x) (L.key n) < 0)
        let nodes ← L.advanceCursors (maxHeight - 1) 1 (Function.update nodes 0 (some n))
        validateLoop maxHeight fuel nodes

/-- The last loop, over the levels from `i` on: no cursor is before a node. -/
def checkEnds : ℕ → ℕ → (ℕ → Option Node) → ListProg Node Unit
  | 0, _, _ => pure ()
  | levels + 1, i, nodes => do
    check (nodes i).isSome
    let x ← deref (nodes i)
    let nxt ← next x i
    check (nxt = none)
    checkEnds levels (i + 1) nodes

/-- `TEST_Validate`; `nodes` is what the uninitialised array holds. -/
def testValidate (fuel : ℕ) (nodes : ℕ → Option Node) : ListProg Node Unit := do
  let maxHeight ← getMaxHeight
  check (0 < maxHeight)
  let nodes ← L.resetCursors maxHeight nodes
  let nodes ← L.validateLoop maxHeight fuel nodes
  checkEnds (maxHeight - 1) 1 nodes

/-- What `TEST_Validate` is to find out about links whose level `0` is the chain `l`. -/
structure Validated (s : Links Node) (l : List Node) : Prop where
  /-- Level `0` is strictly increasing. -/
  increasing : l.Pairwise L.NodeLt
  /-- Every further level in use is a finite chain and a subsequence of the level below. -/
  sublist : ∀ i, 0 < i → i < s.maxHeight → ∃ u v,
    L.LevelChain s i u ∧ L.LevelChain s (i - 1) v ∧ u.Sublist v

variable {L} {c : Solo Node} {nodes : ℕ → Option Node} {p u : ℕ → List Node} {l₁ l₂ : List Node}
  {n : Node} {H i levels fuel : ℕ}

/-! ## What a pass without a violated assertion shows -/

lemma ends_next {α : Type} {Q : α → Solo Node → Prop} (n : Node) (i : ℕ)
    (f : Option Node → ListProg Node α) :
    Ends execSolo (next n i >>= f) c Q ↔ Ends execSolo (f (c.links.next n i)) c Q := Iff.rfl

lemma ends_getMaxHeight {α : Type} {Q : α → Solo Node → Prop} (f : ℕ → ListProg Node α) :
    Ends execSolo (getMaxHeight >>= f) c Q ↔ Ends execSolo (f c.links.maxHeight) c Q := Iff.rfl

omit [DecidableEq Node] in
lemma deref_some_bind {α : Type} (n : Node) (f : Node → ListProg Node α) :
    (deref (some n) >>= f) = f n := rfl

/-- The cursors of the levels below `H` have gone along the paths `p`, each of which is a
subsequence of the path below. -/
structure Walked (L : InlineSkipList Key DecodedKey Node) (s : Links Node) (H : ℕ)
    (nodes : ℕ → Option Node) (p : ℕ → List Node) : Prop where
  /-- A cursor is at the end of its path. -/
  cursor : ∀ i < H, nodes i = some ((p i).getLastD L.head)
  /-- The paths follow the links. -/
  path : ∀ i < H, Path (fun n => s.next n i) L.head (p i)
  /-- A path is a subsequence of the path below. -/
  sublist : ∀ i, 0 < i → i < H → (p i).Sublist (p (i - 1))

omit [DecidableEq Node] in
/-- A cursor moves on, and its path stays a subsequence of the one below and becomes longer than
before for the one above. -/
lemma Walked.advance {s : Links Node} (h : L.Walked s H nodes p) (hi : i < H)
    (hn : s.next ((p i).getLastD L.head) i = some n)
    (hsub : 0 < i → (p i ++ [n]).Sublist (p (i - 1))) :
    L.Walked s H (Function.update nodes i (some n)) (Function.update p i (p i ++ [n])) := by
  refine ⟨fun j hj => ?_, fun j hj => ?_, fun j hpos hj => ?_⟩
  · by_cases hji : j = i
    · subst hji
      rw [Function.update_self, Function.update_self, List.getLastD_concat]
    · rw [Function.update_of_ne hji, Function.update_of_ne hji]
      exact h.cursor j hj
  · by_cases hji : j = i
    · subst hji
      rw [Function.update_self]
      exact (h.path j hj).concat hn
    · rw [Function.update_of_ne hji]
      exact h.path j hj
  · by_cases hji : j = i
    · subst hji
      rw [Function.update_self, Function.update_of_ne (by omega)]
      exact hsub hpos
    · rw [Function.update_of_ne hji]
      by_cases hji' : j - 1 = i
      · subst hji'
        rw [Function.update_self]
        exact (h.sublist j hpos hj).trans (List.sublist_append_left _ _)
      · rw [Function.update_of_ne hji']
        exact h.sublist j hpos hj

/-- The inner loop moves each cursor along a link to the node of level `0`, and only if the cursor
below has moved there. -/
theorem advanceCursors_ends (h : L.Walked c.links H nodes p) (hH : i + levels = H) (hpos : 0 < i)
    (h0 : nodes 0 = some n) {q : List Node} (hbelow : p (i - 1) = q ++ [n])
    (hq : i < H → (p i).Sublist q) :
    Ends execSolo (L.advanceCursors levels i nodes) c fun nodes' c' =>
      c' = c ∧ ∃ p', L.Walked c.links H nodes' p' ∧ p' 0 = p 0 := by
  induction levels generalizing i nodes p q with
  | zero => exact ⟨rfl, p, h, rfl⟩
  | succ levels ih =>
    have hi : i < H := by omega
    rw [advanceCursors, h.cursor i hi, h0, deref_some_bind, ends_next]
    cases hm : c.links.next ((p i).getLastD L.head) i with
    | none => exact ⟨rfl, p, h, rfl⟩
    | some m =>
      refine ends_check_bind fun _ => ?_
      split
      · refine ends_check_bind fun he => ?_
        obtain rfl : n = m := Option.some.inj (of_decide_eq_true he)
        have hsub : (p i ++ [n]).Sublist (p (i - 1)) := by
          rw [hbelow]
          exact (hq hi).append (List.Sublist.refl _)
        have hsub' : i + 1 < H → (Function.update p i (p i ++ [n]) (i + 1)).Sublist (p i) := by
          intro hi'
          rw [Function.update_of_ne (by omega)]
          exact h.sublist (i + 1) (Nat.succ_pos i) hi'
        have hw := h.advance hi hm fun _ => hsub
        refine (ih hw (by omega) (Nat.succ_pos i) ?_ (Function.update_self ..) hsub').mono ?_
        · rw [Function.update_of_ne hpos.ne]
          exact h0
        · rintro nodes' c' ⟨hc, p', hw', hp'⟩
          refine ⟨hc, p', hw', hp'.trans ?_⟩
          rw [Function.update_of_ne hpos.ne]
      · exact ⟨rfl, p, h, rfl⟩

omit [DecidableEq Node] in
/-- A node that is greater than the last one of a sorted chain goes behind it. -/
lemma pairwise_concat {l : List Node} (hs : l.Pairwise L.NodeLt) (hhead : L.head ∉ l)
    (hn : l.getLastD L.head = L.head ∨ L.NodeLt (l.getLastD L.head) n) :
    (l ++ [n]).Pairwise L.NodeLt := by
  refine List.pairwise_append.mpr ⟨hs, List.pairwise_singleton _ _, fun a ha b hb => ?_⟩
  rw [List.mem_singleton.mp hb]
  rcases List.eq_nil_or_concat' l with rfl | ⟨l, m, rfl⟩
  · exact absurd ha List.not_mem_nil
  · rw [List.getLastD_concat] at hn
    have hmn : L.NodeLt m n := hn.resolve_left fun he => hhead (he ▸ by simp)
    rcases List.mem_append.mp ha with ha | ha
    · exact Comparator.Lt.trans ((List.pairwise_append.mp hs).2.2 a ha m (by simp)) hmn
    · rwa [List.mem_singleton.mp ha]

/-- The outer loop moves the cursor of level `0` to the end of its chain, which it finds sorted. -/
theorem validateLoop_ends {l : List Node} (hl : L.LevelChain c.links 0 l) (hH : 0 < H)
    (hl₁ : l = l₁ ++ l₂) (h : L.Walked c.links H nodes p) (hp : p 0 = l₁)
    (hs : l₁.Pairwise L.NodeLt) (hfuel : l₂.length < fuel) :
    Ends execSolo (L.validateLoop H fuel nodes) c fun nodes' c' =>
      c' = c ∧ l.Pairwise L.NodeLt ∧ ∃ p', L.Walked c.links H nodes' p' ∧ p' 0 = l := by
  induction fuel generalizing l₁ l₂ nodes p with
  | zero => exact absurd hfuel (Nat.not_lt_zero _)
  | succ fuel ih =>
    have hnext : c.links.next (l₁.getLastD L.head) 0 = l₂.head? := by
      rw [hl₁] at hl
      exact hl.next_getLastD
    have h0 := h.cursor 0 hH
    rw [hp] at h0
    simp only [validateLoop, h0]
    rw [ends_next, hnext]
    cases l₂ with
    | nil =>
      rw [List.append_nil] at hl₁
      exact ⟨rfl, hl₁ ▸ hs, p, h, hp.trans hl₁.symm⟩
    | cons n l₂ =>
      refine ends_check_bind fun hlt => ?_
      have hhead : L.head ∉ l₁ := fun hm =>
        hl.notMem (hl₁ ▸ List.mem_append_left _ hm)
      have hlt' : l₁.getLastD L.head = L.head ∨ L.NodeLt (l₁.getLastD L.head) n := by
        simpa [NodeLt, Comparator.Lt] using hlt
      have hw : L.Walked c.links H (Function.update nodes 0 (some n))
          (Function.update p 0 (l₁ ++ [n])) := by
        have := h.advance hH (hp ▸ hnext) fun h => absurd h (Nat.lt_irrefl 0)
        rwa [hp] at this
      have hq : 1 < H → (Function.update p 0 (l₁ ++ [n]) 1).Sublist l₁ := by
        intro h1
        rw [Function.update_of_ne Nat.one_ne_zero, ← hp]
        exact h.sublist 1 Nat.one_pos h1
      refine Ends.bind_of (advanceCursors_ends hw (by omega) Nat.one_pos (Function.update_self ..)
        (Function.update_self ..) hq) ?_
      rintro nodes' c' ⟨rfl, p', hw', hp'⟩
      rw [Function.update_self] at hp'
      refine ih ?_ hw' hp' (pairwise_concat hs hhead hlt') (Nat.lt_of_succ_lt_succ hfuel)
      rw [hl₁, List.append_assoc, List.singleton_append]

/-- The last loop shows that the cursors from `i` on are at the ends of their levels. -/
theorem checkEnds_ends :
    Ends execSolo (checkEnds levels i nodes) c fun _ c' => c' = c ∧
      ∀ j, i ≤ j → j < i + levels → ∀ x, nodes j = some x → c.links.next x j = none := by
  induction levels generalizing i with
  | zero => exact ⟨rfl, fun j h₁ h₂ => absurd h₂ (not_lt.mpr h₁)⟩
  | succ levels ih =>
    rw [checkEnds]
    refine ends_check_bind fun hsome => ?_
    obtain ⟨x, hx⟩ := Option.isSome_iff_exists.mp hsome
    rw [hx, deref_some_bind, ends_next]
    refine ends_check_bind fun hend => ?_
    refine ih.mono ?_
    rintro - c' ⟨hc, hall⟩
    refine ⟨hc, fun j h₁ h₂ y hy => ?_⟩
    rcases h₁.eq_or_lt with rfl | hlt
    · obtain rfl : x = y := Option.some.inj (hx.symm.trans hy)
      exact of_decide_eq_true hend
    · exact hall j hlt (by omega) y hy

/-- **Soundness.**  If `TEST_Validate` violates no assertion, the links are as they should be. -/
theorem testValidate_ends {l : List Node} (hl : L.LevelChain c.links 0 l)
    (hfuel : l.length < fuel) :
    Ends execSolo (L.testValidate fuel nodes) c fun _ c' => c' = c ∧ L.Validated c.links l := by
  rw [testValidate, ends_getMaxHeight]
  refine ends_check_bind fun hpos => ?_
  have hH : 0 < c.links.maxHeight := of_decide_eq_true hpos
  rw [resetCursors, bind_bind]
  refine ends_check_bind fun _ => ?_
  rw [pure_eq_done, done_bind]
  have hw : L.Walked c.links c.links.maxHeight
      (fun i => if i < c.links.maxHeight then some L.head else nodes i) fun _ => [] :=
    ⟨fun i hi => if_pos hi, fun _ _ => trivial, fun _ _ _ => List.Sublist.refl _⟩
  refine Ends.bind_of
    (validateLoop_ends hl hH (List.nil_append l).symm hw rfl List.Pairwise.nil hfuel) ?_
  rintro nodes' c' ⟨rfl, hs, p, hw', hp⟩
  refine checkEnds_ends.mono ?_
  rintro - c ⟨rfl, hends⟩
  have hchain : ∀ i < c.links.maxHeight, L.LevelChain c.links i (p i) := by
    intro i hi
    rcases Nat.eq_zero_or_pos i with rfl | hpos
    · rwa [hp]
    · exact (hw'.path i hi).linked (hends i hpos (by omega) _ (hw'.cursor i hi))
  exact ⟨rfl, hs, fun i hpos hi =>
    ⟨p i, p (i - 1), hchain i hi, hchain (i - 1) (by omega), hw'.sublist i hpos hi⟩⟩

/-! ## What links as they should be lead to -/

/-- A cursor cuts its level, a subsequence of level `0`, where the cursor of level `0` cuts level
`0` into `l₁` and `l₂`. -/
def CursorAt (L : InlineSkipList Key DecodedKey Node) (u l₁ l₂ : List Node) (cursor : Option Node) :
    Prop :=
  ∃ p q, u = p ++ q ∧ p.Sublist l₁ ∧ q.Sublist l₂ ∧ cursor = some (p.getLastD L.head)

omit [DecidableEq Node] in
/-- The cursor of a level without the next node of level `0` stays. -/
lemma CursorAt.stay {v : List Node} {x : Option Node} (h : L.CursorAt v l₁ (n :: l₂) x)
    (hn : n ∉ v) : L.CursorAt v (l₁ ++ [n]) l₂ x := by
  obtain ⟨p, q, rfl, hp, hq, hx⟩ := h
  refine ⟨p, q, rfl, hp.trans (List.sublist_append_left _ _), ?_, hx⟩
  rcases List.sublist_cons_iff.mp hq with hq | ⟨q', rfl, -⟩
  · exact hq
  · exact absurd (by simp) hn

omit [DecidableEq Node] in
/-- If a level is without the next node of level `0`, then its cursor and those above stay. -/
lemma cursorAt_stay (hnested : ∀ j, 0 < j → j < H → (u j).Sublist (u (j - 1))) (hpos : 0 < i)
    (hbelow : ∀ j, 0 < j → j < i → L.CursorAt (u j) (l₁ ++ [n]) l₂ (nodes j))
    (habove : ∀ j, i ≤ j → j < H → L.CursorAt (u j) l₁ (n :: l₂) (nodes j)) (hn : n ∉ u i) :
    ∀ j, 0 < j → j < H → L.CursorAt (u j) (l₁ ++ [n]) l₂ (nodes j) := by
  intro j hj hjH
  by_cases hji : j < i
  · exact hbelow j hj hji
  refine (habove j (not_lt.mp hji) hjH).stay fun hm => hn ?_
  obtain ⟨d, rfl⟩ := Nat.exists_eq_add_of_le (not_lt.mp hji)
  clear hji hj
  induction d with
  | zero => exact hm
  | succ d ih => exact ih (by omega) ((hnested (i + (d + 1)) (by omega) hjH).subset hm)

/-- On levels that are subsequences of each other, the cursors follow that of level `0` without a
violated assertion. -/
theorem advanceCursors_returns (hH : i + levels = H) (hpos : 0 < i) (h0 : nodes 0 = some n)
    (hchain : ∀ j < H, L.LevelChain c.links j (u j))
    (hnested : ∀ j, 0 < j → j < H → (u j).Sublist (u (j - 1)))
    (hs : (l₁ ++ n :: l₂).Pairwise L.NodeLt)
    (hbelow : ∀ j, 0 < j → j < i → L.CursorAt (u j) (l₁ ++ [n]) l₂ (nodes j))
    (habove : ∀ j, i ≤ j → j < H → L.CursorAt (u j) l₁ (n :: l₂) (nodes j)) :
    Returns execSolo (L.advanceCursors levels i nodes) c fun nodes' c' => c' = c ∧
      nodes' 0 = some n ∧ ∀ j, 0 < j → j < H → L.CursorAt (u j) (l₁ ++ [n]) l₂ (nodes' j) := by
  obtain ⟨-, hnd₂, hdisj⟩ := List.nodup_append'.mp (nodup_of_pairwise_nodeLt hs)
  induction levels generalizing i nodes with
  | zero => exact ⟨rfl, h0, fun j hj hjH => hbelow j hj (by omega)⟩
  | succ levels ih =>
    have hi : i < H := by omega
    have hstop := cursorAt_stay hnested hpos hbelow habove
    obtain ⟨p, q, hu, hp, hq, hx⟩ := habove i le_rfl hi
    have hnp : n ∉ p := fun hm => hdisj (hp.subset hm) List.mem_cons_self
    have hnext : c.links.next (p.getLastD L.head) i = q.head? := by
      have hl := hchain i hi
      rw [hu] at hl
      exact hl.next_getLastD
    rw [advanceCursors, hx, h0, deref_some_bind, returns_next, hnext]
    cases q with
    | nil =>
      refine ⟨rfl, h0, hstop ?_⟩
      rwa [hu, List.append_nil]
    | cons m q =>
      simp only [List.head?_cons, deref_some_bind]
      rcases List.sublist_cons_iff.mp hq with hq | ⟨_, he, hq⟩
      · -- the next node of the level comes later: its cursor stays
        have hnm : L.cmp.compare (L.key n) (L.key m) < 0 :=
          (List.pairwise_cons.mp (List.pairwise_append.mp hs).2.1).1 m
            (hq.subset List.mem_cons_self)
        rw [check_bind_of (decide_eq_true hnm.le), if_neg hnm.ne]
        refine ⟨rfl, h0, hstop ?_⟩
        rw [hu, List.mem_append]
        exact fun hm => hm.elim hnp fun hm => (List.nodup_cons.mp hnd₂).1 (hq.subset hm)
      · -- the next node of the level is the node
        obtain ⟨rfl, rfl⟩ := List.cons.inj he
        have heq : L.cmp.compare (L.key m) (L.key m) = 0 :=
          Comparator.equiv_iff.mpr ⟨Comparator.lt_irrefl _, Comparator.lt_irrefl _⟩
        rw [check_bind_of (decide_eq_true heq.le), if_pos heq, check_bind_of (decide_eq_true rfl)]
        refine ih (by omega) (Nat.succ_pos i) ?_ (fun j hj hji => ?_) fun j hij hjH => ?_
        · rwa [Function.update_of_ne hpos.ne]
        · by_cases hji' : j = i
          · subst hji'
            rw [Function.update_self]
            refine ⟨p ++ [m], q, ?_, hp.append (List.Sublist.refl _), hq, ?_⟩
            · rw [hu, List.append_assoc, List.singleton_append]
            · rw [List.getLastD_concat]
          · rw [Function.update_of_ne hji']
            exact hbelow j hj (by omega)
        · rw [Function.update_of_ne (by omega)]
          exact habove j (by omega) hjH

/-- On links as they should be, the outer loop moves all cursors to the ends of their levels. -/
theorem validateLoop_returns (hH : 0 < H) (hchain : ∀ j < H, L.LevelChain c.links j (u j))
    (hnested : ∀ j, 0 < j → j < H → (u j).Sublist (u (j - 1))) (hu : u 0 = l₁ ++ l₂)
    (hs : (u 0).Pairwise L.NodeLt) (h0 : nodes 0 = some (l₁.getLastD L.head))
    (hcursor : ∀ j, 0 < j → j < H → L.CursorAt (u j) l₁ l₂ (nodes j)) (hfuel : l₂.length < fuel) :
    Returns execSolo (L.validateLoop H fuel nodes) c fun nodes' c' => c' = c ∧
      ∀ j, 0 < j → j < H → L.CursorAt (u j) (u 0) [] (nodes' j) := by
  induction fuel generalizing l₁ l₂ nodes with
  | zero => exact absurd hfuel (Nat.not_lt_zero _)
  | succ fuel ih =>
    have hl := hchain 0 hH
    rw [hu] at hl hs
    simp only [validateLoop, h0]
    rw [returns_next, hl.next_getLastD]
    cases l₂ with
    | nil =>
      refine ⟨rfl, ?_⟩
      rwa [hu, List.append_nil]
    | cons n l₂ =>
      have hlt : (l₁.getLastD L.head = L.head ||
          L.cmp.compare (L.key (l₁.getLastD L.head)) (L.key n) < 0) = true := by
        rw [Bool.or_eq_true, decide_eq_true_eq, decide_eq_true_eq]
        exact (getLastD_eq_or_mem l₁ L.head).imp id fun hm =>
          (List.pairwise_append.mp hs).2.2 _ hm n List.mem_cons_self
      simp only [List.head?_cons]
      rw [check_bind_of hlt]
      refine Returns.bind_of (advanceCursors_returns (by omega) Nat.one_pos
        (Function.update_self ..) hchain hnested hs (fun j hj hj1 => by omega) fun j hj hjH => ?_)
          ?_
      · rw [Function.update_of_ne (by omega)]
        exact hcursor j hj hjH
      · rintro nodes' c' ⟨rfl, h0', hcursor'⟩
        refine ih ?_ ?_ hcursor' (Nat.lt_of_succ_lt_succ hfuel)
        · rw [hu, List.append_assoc, List.singleton_append]
        · rw [h0', List.getLastD_concat]

/-- The last loop passes if the cursors from `i` on are at the ends of their levels. -/
theorem checkEnds_returns
    (h : ∀ j, i ≤ j → j < i + levels → ∃ x, nodes j = some x ∧ c.links.next x j = none) :
    Returns execSolo (checkEnds levels i nodes) c fun _ c' => c' = c := by
  induction levels generalizing i with
  | zero => rfl
  | succ levels ih =>
    obtain ⟨x, hx, hend⟩ := h i le_rfl (by omega)
    rw [checkEnds, hx, check_bind_of Option.isSome_some, deref_some_bind, returns_next,
      check_bind_of (decide_eq_true hend)]
    exact ih fun j hj hj' => h j (by omega) (by omega)

omit [DecidableEq Node] in
/-- The chains of all levels of links as they should be. -/
lemma Validated.exists_chains {s : Links Node} {l : List Node} (h : L.Validated s l)
    (hl : L.LevelChain s 0 l) (hpos : 0 < s.maxHeight) : ∃ u : ℕ → List Node, u 0 = l ∧
      (∀ j < s.maxHeight, L.LevelChain s j (u j)) ∧
      ∀ j, 0 < j → j < s.maxHeight → (u j).Sublist (u (j - 1)) := by
  have hex : ∀ j, ∃ v, j < s.maxHeight → L.LevelChain s j v := by
    intro j
    by_cases hj : 0 < j ∧ j < s.maxHeight
    · obtain ⟨v, -, hv, -⟩ := h.sublist j hj.1 hj.2
      exact ⟨v, fun _ => hv⟩
    · refine ⟨l, fun hjH => ?_⟩
      obtain rfl : j = 0 := by omega
      exact hl
  choose u hu using hex
  refine ⟨u, (hu 0 hpos).unique hl, hu, fun j hj hjH => ?_⟩
  obtain ⟨v, w, hv, hw, hsub⟩ := h.sublist j hj hjH
  rwa [(hu j hjH).unique hv, (hu (j - 1) (by omega)).unique hw]

omit [DecidableEq Node] in
/-- Every level is a subsequence of level `0`. -/
lemma sublist_zero (hnested : ∀ j, 0 < j → j < H → (u j).Sublist (u (j - 1))) (hi : i < H) :
    (u i).Sublist (u 0) := by
  induction i with
  | zero => exact List.Sublist.refl _
  | succ i ih => exact (hnested (i + 1) (Nat.succ_pos i) hi).trans (ih (by omega))

/-- **Completeness.**  On links as they should be, `TEST_Validate` violates no assertion. -/
theorem testValidate_returns {l : List Node} (hl : L.LevelChain c.links 0 l)
    (hpos : 0 < c.links.maxHeight) (hle : c.links.maxHeight ≤ kMaxPossibleHeight)
    (h : L.Validated c.links l) (hfuel : l.length < fuel) :
    Returns execSolo (L.testValidate fuel nodes) c fun _ c' => c' = c := by
  obtain ⟨u, rfl, hchain, hnested⟩ := h.exists_chains hl hpos
  rw [testValidate, returns_getMaxHeight, check_bind_of (decide_eq_true hpos), resetCursors,
    check_bind_of (decide_eq_true hle), pure_eq_done, done_bind]
  refine Returns.bind_of (validateLoop_returns hpos hchain hnested (List.nil_append _).symm
    h.increasing (if_pos hpos) (fun j hj hjH => ⟨[], u j, rfl, List.Sublist.refl _,
      sublist_zero hnested hjH, if_pos hjH⟩) hfuel) ?_
  rintro nodes' c' ⟨rfl, hcursor⟩
  refine checkEnds_returns fun j hj hjH => ?_
  obtain ⟨p, q, hu, -, hq, hx⟩ := hcursor j hj (by omega)
  obtain rfl := List.sublist_nil.mp hq
  have hend := hchain j (by omega)
  rw [hu] at hend
  exact ⟨_, hx, hend.next_getLastD⟩

/-- **`TEST_Validate` is an exact checker.**  On any links with a finite level `0` and an admissible
`max_height_`, it comes to an end, and it violates no assertion exactly if level `0` is strictly
increasing and every further level in use is a finite chain and a subsequence of the level below. -/
theorem testValidate_iff {s : Links Node} {l : List Node} (hl : L.LevelChain s 0 l)
    (hpos : 0 < s.maxHeight) (hle : s.maxHeight ≤ kMaxPossibleHeight) :
    ∃ N, ∀ fuel ≥ N, ∀ (nodes : ℕ → Option Node) (c : Solo Node), c.links = s →
      (run execSolo (L.testValidate fuel nodes) c = .done () c ↔ L.Validated s l) ∧
      (run execSolo (L.testValidate fuel nodes) c = .fault ↔ ¬L.Validated s l) := by
  refine ⟨l.length + 1, fun fuel hfuel nodes c hc => ?_⟩
  subst hc
  have hends : Ends execSolo (L.testValidate fuel nodes) c fun _ c' =>
      c' = c ∧ L.Validated c.links l := testValidate_ends hl hfuel
  have hreturns : L.Validated c.links l →
      run execSolo (L.testValidate fuel nodes) c = .done () c := fun h =>
    ((testValidate_returns hl hpos hle h hfuel).mono fun _ _ hc => ⟨hc, rfl⟩).run_eq
  rcases ends_iff_run.mp hends with hfault | ⟨_, c', hdone, rfl, hv⟩
  · have hnot : ¬L.Validated c.links l := fun h => nomatch hfault.symm.trans (hreturns h)
    rw [hfault]
    exact ⟨iff_of_false (fun h => nomatch h) hnot, iff_of_true rfl hnot⟩
  · rw [hdone]
    exact ⟨iff_of_true rfl hv, iff_of_false (fun h => nomatch h) (not_not_intro hv)⟩

/-- The list with three integers is as it should be. -/
lemma threeCalls_validated : integers.Validated (integersAfter threeCalls).links [2, 5, 7] where
  increasing := by decide
  sublist i hpos hi := by
    have hi : i < 3 := hi
    obtain rfl | rfl : i = 1 ∨ i = 2 := by omega
    · exact ⟨[2, 5, 7], [2, 5, 7], ⟨rfl, rfl, rfl, rfl⟩, ⟨rfl, rfl, rfl, rfl⟩, List.Sublist.refl _⟩
    · exact ⟨[2, 5], [2, 5, 7], ⟨rfl, rfl, rfl⟩, ⟨rfl, rfl, rfl, rfl⟩, by decide⟩

/-- The list with three integers, where a node on level `2` is made its own successor. -/
def selfLoop : Links ℕ := (integersAfter threeCalls).links.setNext 5 2 (some 5)

/-- A level with a loop is not as it should be. -/
lemma selfLoop_not_validated : ¬integers.Validated selfLoop [2, 5, 7] := by
  intro h
  obtain ⟨u, -, hu, -⟩ := h.sublist 2 (by decide) (by decide)
  have h₂ : u.head? = some 2 := hu.next_eq.symm
  obtain ⟨u, rfl⟩ := List.head?_eq_some_iff.mp h₂
  have h₅ : u.head? = some 5 := hu.2.next_eq.symm
  obtain ⟨u, rfl⟩ := List.head?_eq_some_iff.mp h₅
  have h₅' : u.head? = some 5 := hu.2.2.next_eq.symm
  exact hu.2.2.notMem (List.mem_of_head? h₅')

/-- `testValidate_iff` for the list with three integers, without and with the loop. -/
theorem testValidate_iff_integers : ∃ fuel,
    run execSolo (integers.testValidate fuel fun _ => none) ⟨(integersAfter threeCalls).links, 0⟩ =
      .done () ⟨(integersAfter threeCalls).links, 0⟩ ∧
    run execSolo (integers.testValidate fuel fun _ => none) ⟨selfLoop, 0⟩ = .fault := by
  obtain ⟨N, h⟩ := testValidate_iff threeCalls_levelChain.2.2.2 (by decide) (by decide)
  have hl : integers.LevelChain selfLoop 0 [2, 5, 7] := ⟨rfl, rfl, rfl, rfl⟩
  obtain ⟨M, h'⟩ := testValidate_iff hl (by decide) (by decide)
  exact ⟨max N M,
    (h _ (le_max_left N M) _ ⟨(integersAfter threeCalls).links, 0⟩ rfl).1.mpr threeCalls_validated,
    (h' _ (le_max_right N M) _ ⟨selfLoop, 0⟩ rfl).2.mpr selfLoop_not_validated⟩

end InlineSkipList

end PmemKv
