import PmemKv.Library.CrashLogic
import Mathlib.Data.List.Basic
import Mathlib.Logic.Function.Basic

/-!
# Persistent memory

A persistent memory consists of the medium, which survives a power failure, and of the stores that
are not yet certain to have reached it.  A program sees the medium with all its pending stores
applied.  Persisting a range makes the cells of the range durable.  After a power failure any
selection of the pending stores has reached the medium; each store does so as a whole.
-/

namespace PersistentMemory

open AtomicProg AtomicProg.Prog

variable {α : Type}

/-- The cells that one store writes. -/
abbrev Write (α : Type) : Type := List (ℕ × α)

/-- The cells after a store. -/
def applyWrite (m : ℕ → α) (w : Write α) : ℕ → α :=
  w.foldl (fun m p => Function.update m p.1 p.2) m

/-- The cells after a sequence of stores. -/
def applyAll (m : ℕ → α) (ws : List (Write α)) : ℕ → α := ws.foldl applyWrite m

/-- The store of a sequence of values from the address `a` on. -/
def chunk : ℕ → List α → Write α
  | _, [] => []
  | a, b :: bs => (a, b) :: chunk (a + 1) bs

/-- The `n` values from the address `a` on. -/
def read (m : ℕ → α) : ℕ → ℕ → List α
  | _, 0 => []
  | a, n + 1 => m a :: read m (a + 1) n

variable {m m' : ℕ → α} {a n x : ℕ} {b : α} {bs : List α} {w : Write α} {ws : List (Write α)}

/-! ## Reading -/

@[simp] lemma length_read (m : ℕ → α) (a n : ℕ) : (read m a n).length = n := by
  induction n generalizing a with
  | zero => rfl
  | succ n ih => rw [read, List.length_cons, ih]

lemma read_append (m : ℕ → α) (a n k : ℕ) : read m a (n + k) = read m a n ++ read m (a + n) k := by
  induction n generalizing a with
  | zero => simp [read]
  | succ n ih =>
    rw [Nat.succ_add, read, read, ih, List.cons_append, Nat.add_right_comm a 1 n, Nat.add_assoc]

/-- Reading less. -/
lemma read_of_le {k : ℕ} (h : k ≤ n) : read m a k = (read m a n).take k := by
  obtain ⟨l, rfl⟩ := Nat.exists_eq_add_of_le h
  rw [read_append, List.take_left' (length_read m a k)]

/-- Two memories read the same if they agree on the range. -/
lemma read_eq_read : read m a n = read m' a n ↔ ∀ x, a ≤ x → x < a + n → m x = m' x := by
  induction n generalizing a with
  | zero => simp [read]; omega
  | succ n ih =>
    rw [read, read, List.cons.injEq, ih]
    constructor
    · rintro ⟨ha, hrest⟩ x hax hx
      rcases Nat.eq_or_lt_of_le hax with rfl | hlt
      · exact ha
      · exact hrest x hlt (by omega)
    · intro h
      exact ⟨h a le_rfl (by omega), fun x hax hx => h x (by omega) (by omega)⟩

/-- What is read at another address is the same if the cells are. -/
lemma read_eq_of_forall {c : ℕ} (h : ∀ k < n, m (a + k) = m' (c + k)) :
    read m a n = read m' c n := by
  induction n generalizing a c with
  | zero => rfl
  | succ n ih =>
    rw [read, read, List.cons.injEq]
    refine ⟨h 0 (Nat.succ_pos n), ih fun k hk => ?_⟩
    have hstep := h (k + 1) (Nat.succ_lt_succ hk)
    rwa [Nat.add_assoc, Nat.add_assoc, Nat.add_comm 1 k]

/-- A value of what was read. -/
lemma getElem?_read {i : ℕ} (hi : i < n) : (read m a n)[i]? = some (m (a + i)) := by
  induction n generalizing a i with
  | zero => exact absurd hi (Nat.not_lt_zero i)
  | succ n ih =>
    cases i with
    | zero => rfl
    | succ i =>
      rw [read, List.getElem?_cons_succ, ih (Nat.lt_of_succ_lt_succ hi), Nat.add_assoc,
        Nat.add_comm 1 i]

/-- What is read, value by value. -/
lemma read_eq_iff : read m a bs.length = bs ↔ ∀ i < bs.length, bs[i]? = some (m (a + i)) := by
  constructor
  · intro h i hi
    rw [← getElem?_read hi, h]
  · intro h
    apply List.ext_getElem?
    intro i
    rcases Nat.lt_or_ge i bs.length with hi | hi
    · rw [getElem?_read hi, h i hi]
    · rw [List.getElem?_eq_none hi, List.getElem?_eq_none (by rwa [length_read])]

/-- A part of what was read. -/
lemma read_part {l₁ l₂ l₃ : List α} (h : read m a (l₁ ++ (l₂ ++ l₃)).length = l₁ ++ (l₂ ++ l₃)) :
    read m (a + l₁.length) l₂.length = l₂ := by
  rw [List.length_append, read_append, List.length_append, read_append] at h
  have h₁ := (List.append_inj h (by simp)).2
  exact (List.append_inj h₁ (by simp)).1

/-! ## Stores -/

lemma applyWrite_cons (m : ℕ → α) (p : ℕ × α) (w : Write α) :
    applyWrite m (p :: w) = applyWrite (Function.update m p.1 p.2) w := rfl

lemma applyAll_append (m : ℕ → α) (ws ws' : List (Write α)) :
    applyAll m (ws ++ ws') = applyAll (applyAll m ws) ws' := List.foldl_append

/-- A cell that a store does not write keeps its value. -/
lemma applyWrite_of_forall_ne (h : ∀ p ∈ w, p.1 ≠ x) : applyWrite m w x = m x := by
  induction w generalizing m with
  | nil => rfl
  | cons p w ih =>
    rw [applyWrite_cons, ih fun q hq => h q (List.mem_cons_of_mem p hq)]
    exact Function.update_of_ne (h p List.mem_cons_self).symm _ _

lemma applyAll_of_forall_ne (h : ∀ w ∈ ws, ∀ p ∈ w, p.1 ≠ x) : applyAll m ws x = m x := by
  induction ws generalizing m with
  | nil => rfl
  | cons w ws ih =>
    change applyAll (applyWrite m w) ws x = m x
    rw [ih fun v hv => h v (List.mem_cons_of_mem w hv)]
    exact applyWrite_of_forall_ne (h w List.mem_cons_self)

/-- A cell after a sequence of stores has its old value or one that was stored there. -/
lemma applyAll_eq_or (m : ℕ → α) (ws : List (Write α)) (x : ℕ) :
    applyAll m ws x = m x ∨ ∃ w ∈ ws, (x, applyAll m ws x) ∈ w := by
  have hwrite : ∀ (w : Write α) (m : ℕ → α), applyWrite m w x = m x ∨
      (x, applyWrite m w x) ∈ w := by
    intro w
    induction w with
    | nil => exact fun _ => Or.inl rfl
    | cons p w ih =>
      intro m
      rw [applyWrite_cons]
      rcases ih (Function.update m p.1 p.2) with heq | hmem
      · by_cases hp : x = p.1
        · subst hp
          rw [Function.update_self] at heq
          exact Or.inr (List.mem_cons.mpr (Or.inl (Prod.ext rfl heq)))
        · exact Or.inl (heq.trans (Function.update_of_ne hp _ _))
      · exact Or.inr (List.mem_cons_of_mem p hmem)
  induction ws generalizing m with
  | nil => exact Or.inl rfl
  | cons w ws ih =>
    change applyAll (applyWrite m w) ws x = m x ∨ ∃ v ∈ w :: ws,
      (x, applyAll (applyWrite m w) ws x) ∈ v
    rcases ih (applyWrite m w) with heq | ⟨v, hv, hmem⟩
    · rw [heq]
      exact (hwrite w m).imp_right fun hmem => ⟨w, List.mem_cons_self, hmem⟩
    · exact Or.inr ⟨v, List.mem_cons_of_mem w hv, hmem⟩

/-- Leaving out stores that do not write a cell does not change it. -/
lemma applyAll_filter (keep : Write α → Bool)
    (h : ∀ w ∈ ws, keep w = false → ∀ p ∈ w, p.1 ≠ x) :
    applyAll m (ws.filter keep) x = applyAll m ws x := by
  have hcongr : ∀ (ws : List (Write α)) (m m' : ℕ → α), m x = m' x →
      applyAll m ws x = applyAll m' ws x := by
    intro ws
    induction ws with
    | nil => exact fun _ _ h => h
    | cons w ws ih =>
      intro m m' hm
      refine ih _ _ ?_
      induction w generalizing m m' with
      | nil => exact hm
      | cons p w ihw =>
        rw [applyWrite_cons, applyWrite_cons]
        apply ihw
        rw [Function.update_apply, Function.update_apply, hm]
  induction ws generalizing m with
  | nil => rfl
  | cons w ws ih =>
    have hrest : ∀ m, applyAll m (ws.filter keep) x = applyAll m ws x :=
      fun m => ih fun v hv => h v (List.mem_cons_of_mem w hv)
    rw [List.filter_cons]
    split
    · exact hrest (applyWrite m w)
    · next hkeep =>
      rw [hrest]
      refine hcongr ws m (applyWrite m w) (applyWrite_of_forall_ne ?_).symm
      exact h w List.mem_cons_self (by simpa using hkeep)

lemma mem_chunk {p : ℕ × α} (hp : p ∈ chunk a bs) : a ≤ p.1 ∧ p.1 < a + bs.length := by
  induction bs generalizing a with
  | nil => exact absurd hp List.not_mem_nil
  | cons b bs ih =>
    rw [List.length_cons]
    rcases List.mem_cons.mp hp with rfl | hp
    · exact ⟨le_rfl, by simp⟩
    · obtain ⟨h₁, h₂⟩ := ih hp
      exact ⟨by omega, by omega⟩

/-- The cells of a sequence of values. -/
lemma mem_chunk_iff {p : ℕ × α} :
    p ∈ chunk a bs ↔ ∃ i, bs[i]? = some p.2 ∧ p.1 = a + i := by
  induction bs generalizing a with
  | nil => simp [chunk]
  | cons b bs ih =>
    rw [chunk, List.mem_cons, ih]
    constructor
    · rintro (rfl | ⟨i, hi, hp⟩)
      · exact ⟨0, rfl, rfl⟩
      · exact ⟨i + 1, hi, by omega⟩
    · rintro ⟨i, hi, hp⟩
      cases i with
      | zero => exact Or.inl (Prod.ext hp (Option.some.inj hi).symm)
      | succ i => exact Or.inr ⟨i, hi, by omega⟩

/-- What was stored is read back. -/
lemma read_applyWrite_chunk (m : ℕ → α) (a : ℕ) (bs : List α) :
    read (applyWrite m (chunk a bs)) a bs.length = bs := by
  induction bs generalizing m a with
  | nil => rfl
  | cons b bs ih =>
    rw [List.length_cons, read, chunk, applyWrite_cons, ih]
    congr 1
    rw [applyWrite_of_forall_ne]
    · exact Function.update_self _ _ _
    · intro p hp
      have := (mem_chunk hp).1
      omega

/-- A range that a store does not write reads the same. -/
lemma read_applyWrite_chunk_of_disjoint {c k : ℕ} (h : c + k ≤ a ∨ a + bs.length ≤ c) :
    read (applyWrite m (chunk a bs)) c k = read m c k := by
  rw [read_eq_read]
  intro x hcx hx
  apply applyWrite_of_forall_ne
  intro p hp
  obtain ⟨h₁, h₂⟩ := mem_chunk hp
  omega

lemma chunk_append (a : ℕ) (bs bs' : List α) :
    chunk a (bs ++ bs') = chunk a bs ++ chunk (a + bs.length) bs' := by
  induction bs generalizing a with
  | nil => rfl
  | cons b bs ih =>
    rw [List.cons_append, chunk, chunk, ih, List.length_cons, Nat.add_assoc a 1,
      Nat.add_comm 1 bs.length]
    rfl

lemma applyWrite_append (m : ℕ → α) (w w' : Write α) :
    applyWrite m (w ++ w') = applyWrite (applyWrite m w) w' := List.foldl_append

/-- The stores of a sequence of values, one by one. -/
def singles (a : ℕ) (bs : List α) : List (Write α) := (chunk a bs).map fun p => [p]

lemma applyAll_singles (m : ℕ → α) (a : ℕ) (bs : List α) :
    applyAll m (singles a bs) = applyWrite m (chunk a bs) := by
  rw [applyAll, singles, List.foldl_map]
  rfl

lemma mem_singles (hw : w ∈ singles a bs) : ∀ p ∈ w, a ≤ p.1 ∧ p.1 < a + bs.length := by
  obtain ⟨q, hq, rfl⟩ := List.mem_map.mp hw
  intro p hp
  rw [List.mem_singleton.mp hp]
  exact mem_chunk hq

/-! ## The memory -/

/-- The medium and the pending stores, oldest first. -/
structure PMem (α : Type) where
  /-- What is certain to survive a power failure. -/
  medium : ℕ → α
  /-- The stores that may or may not survive it. -/
  pending : List (Write α)

/-- An operation of a program. -/
inductive PmOp (α : Type) : Type
  /-- Load `len` values from the address `addr` on. -/
  | load (addr len : ℕ)
  /-- Store the values from the address `addr` on, all at once. -/
  | store (addr : ℕ) (bs : List α)
  /-- Persist `len` cells from the address `addr` on. -/
  | persist (addr len : ℕ)

/-- What an operation answers. -/
abbrev PmOp.Ret : PmOp α → Type
  | .load _ _ => List α
  | .store _ _ => Unit
  | .persist _ _ => Unit

/-- Programs over persistent memory. -/
abbrev PmProg (α β : Type) : Type := Prog (PmOp α) PmOp.Ret β

/-- Some of the elements of a list; those for which nothing is chosen are left out. -/
def select {β : Type} : List Bool → List β → List β
  | c :: cs, b :: bs => if c then b :: select cs bs else select cs bs
  | _, _ => []

lemma select_sublist {β : Type} (cs : List Bool) (l : List β) : (select cs l).Sublist l := by
  induction l generalizing cs with
  | nil => cases cs <;> exact List.Sublist.refl _
  | cons b l ih =>
    cases cs with
    | nil => exact List.nil_sublist _
    | cons c cs =>
      rw [select]
      split
      · exact (ih cs).cons_cons b
      · exact (ih cs).cons b

/-- Any elements may be chosen. -/
lemma exists_select {β : Type} (keep : β → Bool) (l : List β) :
    ∃ cs, select cs l = l.filter keep := by
  induction l with
  | nil => exact ⟨[], rfl⟩
  | cons b l ih =>
    obtain ⟨cs, hcs⟩ := ih
    refine ⟨keep b :: cs, ?_⟩
    rw [select, hcs, List.filter_cons]

namespace PMem

/-- What a program sees. -/
def image (s : PMem α) : ℕ → α := applyAll s.medium s.pending

/-- The memory with more pending stores. -/
def push (s : PMem α) (ws : List (Write α)) : PMem α := { s with pending := s.pending ++ ws }

/-- What is left of a store when a range is persisted. -/
def trim (addr len : ℕ) (w : Write α) : Write α :=
  w.filter fun p => !(decide (addr ≤ p.1) && decide (p.1 < addr + len))

/-- The memory after a range was persisted. -/
def persist (s : PMem α) (addr len : ℕ) : PMem α where
  medium x := if addr ≤ x ∧ x < addr + len then s.image x else s.medium x
  pending := (s.pending.map (trim addr len)).filter fun w => !w.isEmpty

/-- The effect of an operation. -/
def exec : (o : PmOp α) → PMem α → o.Ret × PMem α
  | .load addr len, s => (read s.image addr len, s)
  | .store addr bs, s => ((), s.push [chunk addr bs])
  | .persist addr len, s => ((), s.persist addr len)

/-- The memory after a power failure, when the chosen pending stores have reached the medium. -/
def crash (survives : List Bool) (s : PMem α) : PMem α :=
  ⟨applyAll s.medium (select survives s.pending), []⟩

variable {s : PMem α}

lemma image_push (s : PMem α) (ws : List (Write α)) :
    (s.push ws).image = applyAll s.image ws := applyAll_append _ _ _

lemma push_push (s : PMem α) (ws ws' : List (Write α)) :
    (s.push ws).push ws' = s.push (ws ++ ws') := by
  unfold push
  rw [List.append_assoc]

lemma image_crash (cs : List Bool) (s : PMem α) :
    (s.crash cs).image = applyAll s.medium (select cs s.pending) := rfl

/-- A power failure can leave any set of bytes that no pending store crosses. -/
theorem exists_crash (s : PMem α) (C : ℕ → Prop) [DecidablePred C]
    (h : ∀ w ∈ s.pending, (∀ p ∈ w, C p.1) ∨ ∀ p ∈ w, ¬C p.1) :
    ∃ cs, ∀ x, (s.crash cs).image x = if C x then s.image x else s.medium x := by
  obtain ⟨cs, hcs⟩ := exists_select (fun w : Write α => decide (∀ p ∈ w, C p.1)) s.pending
  refine ⟨cs, fun x => ?_⟩
  rw [image_crash, hcs]
  split
  · next hx =>
    -- what is lost does not write the byte
    apply applyAll_filter
    rintro w hw hlost p hp rfl
    rcases h w hw with hall | hnone
    · rw [decide_eq_true hall] at hlost
      cases hlost
    · exact hnone p hp hx
  · next hx =>
    rcases applyAll_eq_or s.medium
        (s.pending.filter fun w : Write α => decide (∀ p ∈ w, C p.1)) x with
      heq | ⟨w, hw, hmem⟩
    · exact heq
    · obtain ⟨-, hkept⟩ := List.mem_filter.mp hw
      exact absurd (of_decide_eq_true hkept _ hmem) hx

/-- Outside the range a trimmed store has the same effect. -/
lemma applyWrite_trim (hx : ¬(a ≤ x ∧ x < a + n)) (hm : m x = m' x) :
    applyWrite m (trim a n w) x = applyWrite m' w x := by
  induction w generalizing m m' with
  | nil => exact hm
  | cons p w ih =>
    rw [trim, List.filter_cons]
    split
    · rw [applyWrite_cons, applyWrite_cons]
      apply ih
      rw [Function.update_apply, Function.update_apply, hm]
    · next hp =>
      rw [applyWrite_cons]
      apply ih
      rw [hm, Function.update_of_ne]
      rintro rfl
      simp only [Bool.not_eq_true', Bool.and_eq_false_iff, decide_eq_false_iff_not] at hp
      omega

lemma applyAll_trim (hx : ¬(a ≤ x ∧ x < a + n)) (hm : m x = m' x) :
    applyAll m ((ws.map (trim a n)).filter fun w => !w.isEmpty) x = applyAll m' ws x := by
  induction ws generalizing m m' with
  | nil => exact hm
  | cons w ws ih =>
    rw [List.map_cons, List.filter_cons]
    have hw : applyWrite m (trim a n w) x = applyWrite m' w x := applyWrite_trim hx hm
    split
    · exact ih hw
    · next hempty =>
      have hnil : trim a n w = [] := by simpa using hempty
      rw [hnil] at hw
      exact ih hw

/-- Persisting changes nothing that a program sees. -/
theorem image_persist (s : PMem α) (a n : ℕ) : (s.persist a n).image = s.image := by
  funext x
  by_cases hx : a ≤ x ∧ x < a + n
  · have hmedium : (s.persist a n).medium x = s.image x := if_pos hx
    rw [← hmedium]
    apply applyAll_of_forall_ne
    intro w hw p hp
    obtain ⟨hw, -⟩ := List.mem_filter.mp hw
    obtain ⟨v, -, rfl⟩ := List.mem_map.mp hw
    have hout := (List.mem_filter.mp hp).2
    rintro rfl
    simp [hx] at hout
  · exact applyAll_trim hx (if_neg hx)

/-- A store that writes outside the range is left as it is. -/
lemma trim_eq_self (h : ∀ p ∈ w, ¬(a ≤ p.1 ∧ p.1 < a + n)) : trim a n w = w := by
  rw [trim, List.filter_eq_self]
  intro p hp
  have := h p hp
  rw [not_and] at this
  by_cases hap : a ≤ p.1
  · simp [this hap]
  · simp [hap]

/-- A store that writes inside the range is gone. -/
lemma trim_eq_nil (h : ∀ p ∈ w, a ≤ p.1 ∧ p.1 < a + n) : trim a n w = [] := by
  rw [trim, List.filter_eq_nil_iff]
  intro p hp
  simp [h p hp]

/-- Values that were stored one by one and then persisted are durable, and the other pending stores
stay. -/
theorem persist_push_singles (bs : List α) (hout : ∀ w ∈ s.pending, w ≠ [] ∧ ∀ p ∈ w, p.1 < a) :
    ((s.push (singles a bs)).persist a bs.length).pending = s.pending ∧
      read ((s.push (singles a bs)).persist a bs.length).medium a bs.length = bs ∧
      ∀ x, x < a ∨ a + bs.length ≤ x →
        ((s.push (singles a bs)).persist a bs.length).medium x = s.medium x := by
  have himage : (s.push (singles a bs)).image = applyWrite s.image (chunk a bs) := by
    rw [image_push, applyAll_singles]
  refine ⟨?_, ?_, ?_⟩
  · have hkeep : (s.pending.map (trim a bs.length)).filter (fun w => !w.isEmpty) = s.pending := by
      have hmap : s.pending.map (trim a bs.length) = s.pending.map id := by
        apply List.map_congr_left
        intro w hw
        apply trim_eq_self
        intro p hp
        have := (hout w hw).2 p hp
        omega
      rw [hmap, List.map_id, List.filter_eq_self]
      intro w hw
      simp [(hout w hw).1]
    have hgone : ((singles a bs).map (trim a bs.length)).filter (fun w => !w.isEmpty) = [] := by
      rw [List.filter_eq_nil_iff]
      intro w hw
      obtain ⟨v, hv, rfl⟩ := List.mem_map.mp hw
      simp [trim_eq_nil (mem_singles hv)]
    change (((s.pending ++ singles a bs).map _).filter _) = _
    rw [List.map_append, List.filter_append, hkeep, hgone, List.append_nil]
  · have hread : read ((s.push (singles a bs)).persist a bs.length).medium a bs.length =
        read (s.push (singles a bs)).image a bs.length := by
      rw [read_eq_read]
      intro x hax hx
      exact if_pos ⟨hax, hx⟩
    rw [hread, himage, read_applyWrite_chunk]
  · intro x hx
    exact if_neg (by omega)

/-- If only the first of these values are persisted, the stores of the others stay pending. -/
theorem pending_persist_push_singles {k : ℕ} (bs : List α) (hk : k ≤ bs.length)
    (hout : ∀ w ∈ s.pending, w ≠ [] ∧ ∀ p ∈ w, p.1 < a) :
    ((s.push (singles a bs)).persist a k).pending =
      s.pending ++ singles (a + k) (bs.drop k) := by
  have htake : (bs.take k).length = k := List.length_take_of_le hk
  have hsplit : singles a bs = singles a (bs.take k) ++ singles (a + k) (bs.drop k) := by
    rw [singles, singles, singles, ← List.map_append]
    conv_lhs => rw [← List.take_append_drop k bs, chunk_append, htake]
  have hfirst := (persist_push_singles (bs.take k) hout).1
  rw [htake] at hfirst
  have hrest : ((singles (a + k) (bs.drop k)).map (trim a k)).filter (fun w => !w.isEmpty) =
      singles (a + k) (bs.drop k) := by
    have hmap : (singles (a + k) (bs.drop k)).map (trim a k) =
        (singles (a + k) (bs.drop k)).map id := by
      apply List.map_congr_left
      intro w hw
      apply trim_eq_self
      intro p hp
      have := (mem_singles hw p hp).1
      omega
    rw [hmap, List.map_id, List.filter_eq_self]
    intro w hw
    obtain ⟨p, -, rfl⟩ := List.mem_map.mp hw
    rfl
  have happend : ((s.push (singles a bs)).persist a k).pending =
      ((s.push (singles a (bs.take k))).persist a k).pending ++
        ((singles (a + k) (bs.drop k)).map (trim a k)).filter fun w => !w.isEmpty := by
    change (((s.pending ++ singles a bs).map _).filter _) =
      (((s.pending ++ singles a (bs.take k)).map _).filter _) ++ _
    rw [hsplit, ← List.append_assoc, List.map_append, List.filter_append]
  rw [happend, hfirst, hrest]

end PMem

/-! ## Programs -/

/-- Store a sequence of values one by one. -/
def storeSingles : ℕ → List α → PmProg α Unit
  | _, [] => pure ()
  | a, b :: bs => do
    perform (PmOp.store a [b])
    storeSingles (a + 1) bs

/-- Storing one by one performs stores of single values in the range only. -/
lemma mem_trace_storeSingles {s : PMem α} {o : PmOp α}
    (ho : o ∈ trace PMem.exec (storeSingles a bs) s) :
    ∃ x b, o = PmOp.store x [b] ∧ a ≤ x ∧ x < a + bs.length := by
  induction bs generalizing a s with
  | nil => exact absurd ho List.not_mem_nil
  | cons b bs ih =>
    rw [List.length_cons]
    rcases List.mem_cons.mp ho with rfl | ho
    · exact ⟨a, b, rfl, le_rfl, by omega⟩
    · obtain ⟨x, c, rfl, hax, hx⟩ := ih ho
      exact ⟨x, c, rfl, by omega, by omega⟩

/-- Storing one by one keeps what every single store keeps. -/
lemma throughout_storeSingles {R : PMem α → Prop} {Q : Unit → PMem α → Prop} {s : PMem α} (hR : R s)
    (hstep : ∀ s x b, a ≤ x → x < a + bs.length → R s → R (s.push [[(x, b)]]))
    (hQ : R (s.push (singles a bs)) → Q () (s.push (singles a bs))) :
    Throughout PMem.exec R (storeSingles a bs) s Q := by
  induction bs generalizing a s with
  | nil =>
    have hs : s.push (singles a []) = s := by simp [PMem.push, singles, chunk]
    rw [hs] at hQ
    exact ⟨hR, hQ hR⟩
  | cons b bs ih =>
    refine ⟨hR, ?_⟩
    have hs : (s.push [[(a, b)]]).push (singles (a + 1) bs) = s.push (singles a (b :: bs)) :=
      PMem.push_push _ _ _
    rw [← hs] at hQ
    rw [List.length_cons] at hstep
    exact ih (hstep s a b le_rfl (by omega) hR)
      (fun s x c hax hx => hstep s x c (by omega) (by omega)) hQ

end PersistentMemory
