import PmemKv.LogStore.LogSpec

/-!
# What survives a power failure

`_push_back` makes the bytes of a record durable before `Append` counts it, and a record is written
behind all records that may have been counted.  So at any time the medium holds the bytes of the
records, and every value that the word `sequence` may have after a power failure counts some of
them: `Surviving` is this condition.  The stores of that word itself are never persisted; `Settled`,
the state between two calls, has exactly them pending.
-/

namespace PmemKv

open AtomicProg AtomicProg.Prog PersistentMemory

/-- The store of the number `n` into `sequence`. -/
def countWrite (n : ℕ) : Write UInt8 := chunk 0 (le64 n)

/-- The bytes of the log are durable, and `sequence` may have any value from `n` on, up to that
after `j` more records. -/
structure Settled (s : PMem UInt8) (n j : ℕ) (bs : Bytes) : Prop where
  /-- The number on the medium. -/
  counter : read s.medium 0 8 = le64 n
  /-- The bytes on the medium. -/
  records : read s.medium 8 bs.length = bs
  /-- The pending stores. -/
  pending : s.pending = (List.range' (n + 1) j).map countWrite

/-- The bytes of the log are durable, and whatever number `sequence` will have, it is from `l` to
`c`. -/
structure Surviving (s : PMem UInt8) (l c : ℕ) (bs : Bytes) : Prop where
  /-- The number on the medium. -/
  counter : ∃ n, l ≤ n ∧ n ≤ c ∧ read s.medium 0 8 = le64 n
  /-- The bytes on the medium. -/
  records : read s.medium 8 bs.length = bs
  /-- The pending stores are behind the log, or they store a number. -/
  pending : ∀ w ∈ s.pending,
    (∀ p ∈ w, 8 + bs.length ≤ p.1) ∨ ∃ n, l ≤ n ∧ n ≤ c ∧ w = countWrite n

variable {M : Mapping} {s : PMem UInt8} {n j l c a : ℕ} {bs bs' x : Bytes}
  {recs : List Record} {r : Record}

lemma mem_countWrite {p : ℕ × UInt8} (hp : p ∈ countWrite n) : p.1 < 8 := by
  have := (mem_chunk hp).2
  rwa [length_le64, Nat.zero_add] at this

/-! ## Between two calls -/

namespace Settled

/-- A pending store is one of the word `sequence`. -/
lemma pending_out (h : Settled s n j bs) (ha : 8 ≤ a) :
    ∀ w ∈ s.pending, w ≠ [] ∧ ∀ p ∈ w, p.1 < a := by
  intro w hw
  rw [h.pending] at hw
  obtain ⟨k, -, rfl⟩ := List.mem_map.mp hw
  exact ⟨by simp [countWrite, le64, leBytes, chunk],
    fun p hp => lt_of_lt_of_le (mem_countWrite hp) ha⟩

/-- The program sees the number of all records. -/
lemma image_counter (h : Settled s n j bs) : read s.image 0 8 = le64 (n + j) := by
  unfold PMem.image
  rw [h.pending]
  cases j with
  | zero => exact h.counter
  | succ j =>
    rw [List.range'_concat, List.map_append, applyAll_append]
    have := read_applyWrite_chunk (applyAll s.medium ((List.range' (n + 1) j).map countWrite)) 0
      (le64 (n + 1 + 1 * j))
    rw [length_le64] at this
    rw [show n + (j + 1) = n + 1 + 1 * j by omega]
    exact this

/-- Bytes are stored behind the log and persisted. -/
lemma stored (h : Settled s n j bs) (x : Bytes) :
    Settled ((s.push (singles (8 + bs.length) x)).persist (8 + bs.length) x.length) n j
      (bs ++ x) := by
  obtain ⟨hpending, hread, hsame⟩ :=
    PMem.persist_push_singles x (h.pending_out (Nat.le_add_right 8 bs.length))
  constructor
  · refine (read_eq_read.mpr fun y _ hy => ?_).trans h.counter
    exact hsame y (Or.inl (by omega))
  · have hold := (read_eq_read.mpr fun y _ hy => hsame y (Or.inl hy)).trans h.records
    rw [List.length_append, read_append, hread, hold]
  · rw [hpending, h.pending]

/-- `_push_back` makes the frame durable. -/
lemma pushed (hlib : M.useLibpmem = true) (h : Settled s n j bs) (hx : x.length < 2 ^ 32) :
    Settled (M.pushed s (8 + bs.length) x) n j (bs ++ frame x) := by
  have h₁ := h.stored (le64 x.length)
  have h₂ := h₁.stored x
  rw [List.length_append, length_le64, List.append_assoc] at h₂
  unfold Mapping.pushed Mapping.persisted
  rw [if_pos hlib, if_pos hlib, toUInt32_of_lt hx, toUInt32_of_lt (by decide)]
  exact h₂

/-- `Append` makes the record durable before it is counted. -/
lemma appended (hlib : M.useLibpmem = true) (h : Settled s n j (encode recs))
    (hkey : r.1.length < 2 ^ 32) (hval : r.2.length < 2 ^ 32) :
    Settled (M.appended s (endOf recs) r) n j (encode (recs ++ [r])) := by
  have h₂ := (h.pushed hlib hkey).pushed hlib hval
  rw [List.length_append, ← Nat.add_assoc, List.append_assoc] at h₂
  rw [encode_append, encode_singleton]
  exact h₂

/-- Counting a record adds a pending store. -/
lemma counted (h : Settled s n j bs) (hlt : n + j < 2 ^ 64) :
    Settled (Mapping.counted s) n (j + 1) bs := by
  have hseq : leNat (read s.image 0 8) = n + j := by
    rw [h.image_counter, leNat_le64, toUInt64_of_lt hlt]
  refine ⟨h.counter, h.records, ?_⟩
  change s.pending ++ [countWrite (leNat (read s.image 0 8) + 1)] = _
  rw [hseq, h.pending, List.range'_concat, List.map_append, Nat.one_mul, Nat.add_right_comm]
  rfl

end Settled

/-! ## At any time -/

namespace Surviving

lemma of_settled (h : Settled s n j bs) : Surviving s n (n + j) bs := by
  refine ⟨⟨n, le_rfl, Nat.le_add_right n j, h.counter⟩, h.records, fun w hw => Or.inr ?_⟩
  rw [h.pending] at hw
  obtain ⟨k, hk, rfl⟩ := List.mem_map.mp hw
  obtain ⟨hk₁, hk₂⟩ := List.mem_range'_1.mp hk
  exact ⟨k, by omega, by omega, rfl⟩

/-- Bytes may be stored behind the log. -/
lemma store (h : Surviving s l c bs) {b : UInt8} (ha : 8 + bs.length ≤ a) :
    Surviving (s.push [[(a, b)]]) l c bs := by
  refine ⟨h.counter, h.records, fun w hw => ?_⟩
  rcases List.mem_append.mp hw with hw | hw
  · exact h.pending w hw
  · obtain rfl := List.mem_singleton.mp hw
    exact Or.inl fun p hp => List.mem_singleton.mp hp ▸ ha

/-- Ranges behind the log may be persisted. -/
lemma persist (h : Surviving s l c bs) (ha : 8 + bs.length ≤ a) (k : ℕ) :
    Surviving (s.persist a k) l c bs := by
  have hsame : ∀ y < 8 + bs.length, (s.persist a k).medium y = s.medium y :=
    fun y hy => if_neg (by omega)
  refine ⟨?_, ?_, fun w hw => ?_⟩
  · obtain ⟨n, hl, hn, hcounter⟩ := h.counter
    refine ⟨n, hl, hn, ?_⟩
    refine (read_eq_read.mpr fun y _ hy => ?_).trans hcounter
    exact hsame y (by omega)
  · exact (read_eq_read.mpr fun y _ hy => hsame y hy).trans h.records
  · obtain ⟨hw, -⟩ := List.mem_filter.mp hw
    obtain ⟨v, hv, rfl⟩ := List.mem_map.mp hw
    rcases h.pending v hv with hout | ⟨n, hl, hn, rfl⟩
    · exact Or.inl fun p hp => hout p (List.mem_filter.mp hp).1
    · refine Or.inr ⟨n, hl, hn, PMem.trim_eq_self fun p hp => ?_⟩
      have := mem_countWrite hp
      omega

/-- Writing behind the log keeps the condition. -/
lemma keeps (M : Mapping) (l c : ℕ) (bs : Bytes) :
    M.Keeps (fun s => Surviving s l c bs) (8 + bs.length) := by
  refine ⟨fun s a b ha h => h.store ha, fun s a k ha h => ?_⟩
  unfold Mapping.persisted
  split
  · exact h.persist ha _
  · exact h

/-- After a power failure the log is there, and some number of its records is counted. -/
lemma crash (h : Surviving s l c bs) (survives : List Bool) :
    ∃ n, l ≤ n ∧ n ≤ c ∧ read (s.crash survives).medium 0 8 = le64 n ∧
      read (s.crash survives).medium 8 bs.length = bs := by
  have hpending : ∀ w ∈ select survives s.pending,
      (∀ p ∈ w, 8 + bs.length ≤ p.1) ∨ ∃ n, l ≤ n ∧ n ≤ c ∧ w = countWrite n :=
    fun w hw => h.pending w ((select_sublist _ _).subset hw)
  change ∃ n, l ≤ n ∧ n ≤ c ∧ read (applyAll s.medium _) 0 8 = le64 n ∧
    read (applyAll s.medium _) 8 bs.length = bs
  have hcounter := h.counter
  have hrecords := h.records
  -- each store that has reached the medium keeps both facts
  generalize s.medium = m at hcounter hrecords ⊢
  generalize select survives s.pending = ws at hpending ⊢
  induction ws generalizing m with
  | nil =>
    obtain ⟨n, hl, hn, hcounter⟩ := hcounter
    exact ⟨n, hl, hn, hcounter, hrecords⟩
  | cons w ws ih =>
    refine ih (applyWrite m w) ?_ ?_ fun v hv => hpending v (List.mem_cons_of_mem w hv)
    · rcases hpending w List.mem_cons_self with hout | ⟨n, hl, hn, rfl⟩
      · obtain ⟨n, hl, hn, hcounter⟩ := hcounter
        refine ⟨n, hl, hn, (read_eq_read.mpr fun y _ hy => ?_).trans hcounter⟩
        apply applyWrite_of_forall_ne
        intro p hp
        have := hout p hp
        omega
      · refine ⟨n, hl, hn, ?_⟩
        have := read_applyWrite_chunk m 0 (le64 n)
        rwa [length_le64] at this
    · refine (read_eq_read.mpr fun y hy₁ hy₂ => ?_).trans hrecords
      apply applyWrite_of_forall_ne
      intro p hp
      rcases hpending w List.mem_cons_self with hout | ⟨n, -, -, rfl⟩
      · have := hout p hp
        omega
      · have := mem_countWrite hp
        omega

end Surviving

/-- A medium with the bytes of some records and a smaller number holds the first of them. -/
lemma log_take {m : ℕ → UInt8} (hn : n ≤ recs.length) (hcounter : read m 0 8 = le64 n)
    (hrecords : read m 8 (encode recs).length = encode recs) : LogImage m (recs.take n) := by
  rw [← List.take_append_drop n recs] at hrecords
  refine ⟨?_, (read_encode_append _ _ hrecords).1⟩
  rw [hcounter, List.length_take, Nat.min_eq_left hn]

/-- **A power failure** leaves the log of the first records. -/
theorem log_crash (h : Surviving s l recs.length (encode recs)) (survives : List Bool) :
    ∃ n, l ≤ n ∧ n ≤ recs.length ∧ LogImage (s.crash survives).image (recs.take n) ∧
      Settled (s.crash survives) n 0 (encode (recs.take n)) := by
  obtain ⟨n, hl, hn, hcounter, hrecords⟩ := h.crash survives
  have hlog := log_take hn hcounter hrecords
  exact ⟨n, hl, hn, hlog, hcounter, hlog.records, rfl⟩

/-- **During `Set`** the records survive; the new one does only when it is counted. -/
theorem surviving_set (hlib : M.useLibpmem = true) (h : Settled s n j (encode recs))
    (hnj : n + j = recs.length) (hfits : endOf (recs ++ [r]) ≤ M.mappedLen)
    (hkey : r.1.length < 2 ^ 32) (hval : r.2.length < 2 ^ 32) :
    Throughout PMem.exec
      (fun s' => Surviving s' n recs.length (encode recs) ∨
        Surviving s' n (recs ++ [r]).length (encode (recs ++ [r])))
      (M.set (Mapping.storeOf recs) r.1 r.2) s fun a s' =>
        a = (.Ok, Mapping.storeOf (recs ++ [r])) ∧
          s' = Mapping.counted (M.appended s (endOf recs) r) ∧
          Settled s' n (j + 1) (encode (recs ++ [r])) := by
  have hlt := M.lt
  have hlen := length_le_encode recs
  rw [endOf_append, encode_singleton] at hfits
  have hcounted := (h.appended hlib hkey hval).counted (by rw [endOf] at hfits; omega)
  have hset := Mapping.throughout_set (r := r) (Surviving.keeps M n recs.length (encode recs))
    (hnj ▸ Surviving.of_settled h) hfits
  refine hset.mono ?_ ?_
  · rintro s' (hs | rfl)
    · exact Or.inl hs
    · have hs := Surviving.of_settled hcounted
      rw [← Nat.add_assoc, hnj] at hs
      exact Or.inr (by rwa [List.length_append])
  · rintro a s' - ⟨ha, rfl⟩
    exact ⟨ha, rfl, hcounted⟩

end PmemKv
