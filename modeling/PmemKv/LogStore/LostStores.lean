import PmemKv.LogStore.LogRuns
import Mathlib.Data.List.Induction

/-!
# What may be left of a record

`_persist` takes the number of bytes as a 32-bit word.  Of a key or a value of `2 ^ 32` bytes or
more it makes only the first bytes durable; the others are stored, and may be lost when the power
fails, even after `Set` has returned.  Then the mapping has the bytes there that it had before, and
`Recovery` enters what is left of the record.

`Session` describes the memory of a store since it was last opened after a power failure, with
records of any length.
-/

namespace PmemKv

open AtomicProg AtomicProg.Prog PersistentMemory

/-- `x'` may be left of the bytes `x`, which were stored at the address `a` of a mapping that held
`m`: what the 32-bit length does not cover may be lost. -/
structure SliceLeft (m : ℕ → UInt8) (a : ℕ) (x x' : Bytes) : Prop where
  /-- The length is never lost. -/
  length_eq : x'.length = x.length
  /-- A byte that is lost is the old one. -/
  getElem?_eq : ∀ i < x.length,
    x'[i]? = x[i]? ∨ toUInt32 x.length ≤ i ∧ x'[i]? = some (m (a + i))

/-- `r'` may be left of the record `r`, which was appended at the address `e`. -/
structure RecordLeft (m : ℕ → UInt8) (e : ℕ) (r r' : Record) : Prop where
  /-- What is left of the key. -/
  key : SliceLeft m (e + 8) r.1 r'.1
  /-- What is left of the value. -/
  value : SliceLeft m (e + (frame r.1).length + 8) r.2 r'.2

/-- What may be left of the records that were appended from the address `e` on. -/
inductive LogLeft (m : ℕ → UInt8) (e : ℕ) : List Record → List Record → Prop
  /-- There are none. -/
  | nil : LogLeft m e [] []
  /-- One more record. -/
  | snoc {recs recs' : List Record} {r r' : Record} (h : LogLeft m e recs recs')
    (hr : RecordLeft m (e + (encode recs).length) r r') : LogLeft m e (recs ++ [r]) (recs' ++ [r'])

/-- The memory of a store that was opened on the records `recs₀` in a mapping that held `m₀`, after
the records `sets` were set. -/
structure Session (s : PMem UInt8) (m₀ : ℕ → UInt8) (recs₀ sets : List Record) : Prop where
  /-- The mapping held the records. -/
  start : LogImage m₀ recs₀
  /-- The program sees all records. -/
  image : LogImage s.image (recs₀ ++ sets)
  /-- The first records and their number are on the medium. -/
  medium_start : ∀ p < endOf recs₀, s.medium p = m₀ p
  /-- Behind the log the medium is as it was. -/
  behind : ∀ p, endOf (recs₀ ++ sets) ≤ p → s.medium p = m₀ p
  /-- Every byte of the other records is on the medium or pending, and what may be lost is what may
  be left out. -/
  left : ∀ m', (∀ p, endOf recs₀ ≤ p → p < endOf (recs₀ ++ sets) →
      m' p = s.medium p ∨ m' p = s.image p) →
    ∃ sets', LogLeft m₀ (endOf recs₀) sets sets' ∧
      read m' (endOf recs₀) (encode sets).length = encode sets'
  /-- The pending stores are those of the later numbers, and of bytes of the later records. -/
  pending : ∀ w ∈ s.pending,
    (∃ k, recs₀.length < k ∧ k ≤ (recs₀ ++ sets).length ∧ w = countWrite k) ∨
      ∃ p, endOf recs₀ ≤ p ∧ p < endOf (recs₀ ++ sets) ∧ w = [(p, s.image p)]

variable {M : Mapping} {s s' : PMem UInt8} {m m₀ : ℕ → UInt8}
  {recs recs' recs₀ sets sets' : List Record}
  {r r' : Record} {x x' : Bytes} {a e p : ℕ}

/-! ## Slices and records -/

lemma SliceLeft.refl (m : ℕ → UInt8) (a : ℕ) (x : Bytes) : SliceLeft m a x x :=
  ⟨rfl, fun _ _ => Or.inl rfl⟩

/-- Nothing of a short slice is lost. -/
lemma SliceLeft.eq_of_short (h : SliceLeft m a x x') (hx : x.length < 2 ^ 32) : x' = x := by
  apply List.ext_getElem?
  intro i
  rcases Nat.lt_or_ge i x.length with hi | hi
  · rcases h.getElem?_eq i hi with heq | ⟨hle, -⟩
    · exact heq
    · rw [toUInt32_of_lt hx] at hle
      omega
  · rw [List.getElem?_eq_none hi, List.getElem?_eq_none (by rwa [h.length_eq])]

/-- What may be left depends on the old bytes behind the address only. -/
lemma SliceLeft.congr (h : SliceLeft m a x x') (hm : ∀ p, a ≤ p → m p = m₀ p) :
    SliceLeft m₀ a x x' := by
  refine ⟨h.length_eq, fun i hi => (h.getElem?_eq i hi).imp_right ?_⟩
  rintro ⟨hle, heq⟩
  exact ⟨hle, by rw [heq, hm _ (Nat.le_add_right a i)]⟩

lemma RecordLeft.refl (m : ℕ → UInt8) (e : ℕ) (r : Record) : RecordLeft m e r r :=
  ⟨.refl m _ _, .refl m _ _⟩

/-- **Short records are left whole.** -/
theorem RecordLeft.eq_of_short (h : RecordLeft m e r r') (hkey : r.1.length < 2 ^ 32)
    (hvalue : r.2.length < 2 ^ 32) : r' = r :=
  Prod.ext (h.key.eq_of_short hkey) (h.value.eq_of_short hvalue)

lemma RecordLeft.congr (h : RecordLeft m e r r') (hm : ∀ p, e ≤ p → m p = m₀ p) :
    RecordLeft m₀ e r r' :=
  ⟨h.key.congr fun p hp => hm p (by omega), h.value.congr fun p hp => hm p (by omega)⟩

/-- What is left of a record has its length. -/
lemma RecordLeft.length_encodeRecord (h : RecordLeft m e r r') :
    (encodeRecord r').length = (encodeRecord r).length := by
  rw [PmemKv.length_encodeRecord, PmemKv.length_encodeRecord, h.key.length_eq, h.value.length_eq]

/-- The bytes that may be left of a frame. -/
lemma SliceLeft.frame (h : SliceLeft m (a + 8) x x') {i : ℕ} (hi : i < (frame x).length) :
    (PmemKv.frame x')[i]? = (PmemKv.frame x)[i]? ∨
      8 + toUInt32 x.length ≤ i ∧ (PmemKv.frame x')[i]? = some (m (a + i)) := by
  rw [length_frame] at hi
  rw [PmemKv.frame, PmemKv.frame, h.length_eq]
  rcases Nat.lt_or_ge i 8 with hlt | hge
  · rw [List.getElem?_append_left (by simpa using hlt),
      List.getElem?_append_left (by simpa using hlt)]
    exact Or.inl rfl
  · rw [List.getElem?_append_right (by simpa using hge),
      List.getElem?_append_right (by simpa using hge), length_le64]
    refine (h.getElem?_eq (i - 8) (by omega)).imp_right ?_
    rintro ⟨hle, heq⟩
    refine ⟨by omega, heq.trans ?_⟩
    rw [show a + 8 + (i - 8) = a + i by omega]

/-- The bytes that may be left of a record. -/
lemma RecordLeft.getElem?_eq (h : RecordLeft m e r r') {i : ℕ} (hi : i < (encodeRecord r).length) :
    (encodeRecord r')[i]? = (encodeRecord r)[i]? ∨ 8 + toUInt32 r.1.length ≤ i ∧
      ¬((PmemKv.frame r.1).length ≤ i ∧ i < (PmemKv.frame r.1).length + 8 + toUInt32 r.2.length) ∧
      (encodeRecord r')[i]? = some (m (e + i)) := by
  have hframe : (PmemKv.frame r'.1).length = (PmemKv.frame r.1).length := by
    rw [length_frame, length_frame, h.key.length_eq]
  rw [encodeRecord, List.length_append] at hi
  rw [encodeRecord, encodeRecord]
  rcases Nat.lt_or_ge i (PmemKv.frame r.1).length with hlt | hge
  · rw [List.getElem?_append_left hlt, List.getElem?_append_left (hframe ▸ hlt)]
    refine (h.key.frame hlt).imp_right ?_
    rintro ⟨hle, heq⟩
    exact ⟨hle, fun hcov => absurd hcov.1 (by omega), heq⟩
  · rw [List.getElem?_append_right hge, List.getElem?_append_right (hframe ▸ hge), hframe]
    refine (h.value.frame (by omega)).imp_right ?_
    rintro ⟨hle, heq⟩
    have hkey : toUInt32 r.1.length ≤ r.1.length := Nat.mod_le _ _
    rw [length_frame] at hge hle
    refine ⟨by omega, fun hcov => ?_, heq.trans ?_⟩
    · rw [length_frame] at hcov
      omega
    · rw [length_frame, show e + (8 + r.1.length) + (i - (8 + r.1.length)) = e + i by omega]

lemma LogLeft.refl (m : ℕ → UInt8) (e : ℕ) (recs : List Record) : LogLeft m e recs recs := by
  induction recs using List.reverseRecOn with
  | nil => exact .nil
  | append_singleton recs r ih => exact ih.snoc (.refl m _ r)

lemma LogLeft.length_eq (h : LogLeft m e recs recs') :
    recs'.length = recs.length ∧ (encode recs').length = (encode recs).length := by
  induction h with
  | nil => exact ⟨rfl, rfl⟩
  | snoc h hr ih =>
    rw [encode_append, encode_append, encode_singleton, encode_singleton]
    simp only [List.length_append, hr.length_encodeRecord, ih.1, ih.2, List.length_singleton,
      and_self]

/-- What may be left of one more record. -/
lemma LogLeft.of_snoc (h : LogLeft m e (recs ++ [r]) sets') :
    ∃ recs' r', sets' = recs' ++ [r'] ∧ LogLeft m e recs recs' ∧
      RecordLeft m (e + (encode recs).length) r r' := by
  generalize happ : recs ++ [r] = sets at h
  cases h with
  | nil => simp at happ
  | snoc h hr =>
    obtain ⟨rfl, hlast⟩ := List.append_inj' happ rfl
    cases hlast
    exact ⟨_, _, rfl, h, hr⟩

/-- The lengths of the record at the address `e`. -/
lemma read_lengths (hread : read m e (encodeRecord r).length = encodeRecord r) :
    read m e 8 = le64 r.1.length ∧ read m (e + (frame r.1).length) 8 = le64 r.2.length := by
  have hkey : encodeRecord r = [] ++ (le64 r.1.length ++ (r.1 ++ frame r.2)) := by
    rw [List.nil_append, ← List.append_assoc]
    rfl
  have hvalue : encodeRecord r = frame r.1 ++ (le64 r.2.length ++ r.2) := rfl
  constructor
  · rw [hkey] at hread
    have := read_part hread
    rwa [length_le64] at this
  · rw [hvalue] at hread
    have := read_part hread
    rwa [length_le64] at this

/-- The bytes of a record are those of its parts. -/
lemma read_encodeRecord (hkeyLength : read m e 8 = le64 r.1.length)
    (hkey : read m (e + 8) r.1.length = r.1)
    (hvalueLength : read m (e + (frame r.1).length) 8 = le64 r.2.length)
    (hvalue : read m (e + (frame r.1).length + 8) r.2.length = r.2) :
    read m e (encodeRecord r).length = encodeRecord r := by
  rw [length_frame, ← Nat.add_assoc] at hvalueLength hvalue
  rw [PmemKv.length_encodeRecord, show 16 + r.1.length + r.2.length =
    8 + (r.1.length + (8 + r.2.length)) by omega, read_append, read_append, read_append,
    hkeyLength, hkey, hvalueLength, hvalue]
  exact (List.append_assoc _ _ _).symm

/-! ## `Append` -/

section Append

variable (hlib : M.useLibpmem = true)

include hlib

/-- `_push_back` makes the length and the first bytes durable, and leaves the rest of the medium. -/
lemma medium_pushed (s : PMem UInt8) (e : ℕ) (x : Bytes) (p : ℕ) :
    (M.pushed s e x).medium p =
      if e ≤ p ∧ p < e + 8 + toUInt32 x.length then (M.pushed s e x).image p else s.medium p := by
  have himage : ∀ p < e + 8, (M.pushed s e x).image p =
      (s.push (singles e (le64 x.length))).image p := by
    intro p hp
    unfold Mapping.pushed
    rw [Mapping.image_persisted, PMem.image_push, Mapping.image_persisted, applyAll_singles]
    apply applyWrite_of_forall_ne
    intro q hq
    have := (mem_chunk hq).1
    omega
  have hmedium : (M.pushed s e x).medium p =
      if e + 8 ≤ p ∧ p < e + 8 + toUInt32 x.length then (M.pushed s e x).image p
      else if e ≤ p ∧ p < e + 8 then (s.push (singles e (le64 x.length))).image p
      else s.medium p := by
    unfold Mapping.pushed
    rw [Mapping.image_persisted]
    unfold Mapping.persisted
    rw [if_pos hlib, if_pos hlib, toUInt32_of_lt (by decide : 8 < 2 ^ 32)]
    rfl
  rw [hmedium]
  by_cases h₁ : e + 8 ≤ p ∧ p < e + 8 + toUInt32 x.length
  · rw [if_pos h₁, if_pos ⟨by omega, h₁.2⟩]
  · rw [if_neg h₁]
    by_cases h₂ : e ≤ p ∧ p < e + 8
    · rw [if_pos h₂, if_pos ⟨h₂.1, by omega⟩, himage p h₂.2]
    · rw [if_neg h₂, if_neg (by omega)]

/-- The stores of the other bytes stay pending. -/
lemma pending_pushed (hout : ∀ w ∈ s.pending, w ≠ [] ∧ ∀ q ∈ w, q.1 < e) (x : Bytes) :
    (M.pushed s e x).pending =
      s.pending ++ singles (e + 8 + toUInt32 x.length) (x.drop (toUInt32 x.length)) := by
  have hle : toUInt32 x.length ≤ x.length := Nat.mod_le _ _
  have hfirst : ((s.push (singles e (le64 x.length))).persist e 8).pending = s.pending := by
    have := (PMem.persist_push_singles (le64 x.length) hout).1
    rwa [length_le64] at this
  unfold Mapping.pushed Mapping.persisted
  rw [if_pos hlib, if_pos hlib, toUInt32_of_lt (by decide : 8 < 2 ^ 32),
    PMem.pending_persist_push_singles x hle, hfirst]
  intro w hw
  rw [hfirst] at hw
  exact ⟨(hout w hw).1, fun q hq => ((hout w hw).2 q hq).trans_le (Nat.le_add_right e 8)⟩

/-- A store of `_push_back` that stays pending is that of one byte of the slice. -/
lemma mem_pending_pushed (hout : ∀ w ∈ s.pending, w ≠ [] ∧ ∀ q ∈ w, q.1 < e) {w : Write UInt8}
    (hw : w ∈ (M.pushed s e x).pending) :
    w ∈ s.pending ∨ ∃ p, e ≤ p ∧ p < e + (frame x).length ∧
      w = [(p, (M.pushed s e x).image p)] := by
  rw [pending_pushed hlib hout] at hw
  refine (List.mem_append.mp hw).imp_right fun hw => ?_
  obtain ⟨q, hq, rfl⟩ := List.mem_map.mp hw
  obtain ⟨i, hi, hqi⟩ := mem_chunk_iff.mp hq
  rw [List.getElem?_drop] at hi
  have hlt : toUInt32 x.length + i < x.length := (List.getElem?_eq_some_iff.mp hi).1
  refine ⟨q.1, by omega, by rw [length_frame]; omega, ?_⟩
  -- the program sees the byte
  have hread : read (M.pushed s e x).image (e + 8) x.length = x := by
    unfold Mapping.pushed
    rw [Mapping.image_persisted, PMem.image_push, applyAll_singles]
    exact read_applyWrite_chunk _ _ _
  have hbyte := read_eq_iff.mp hread _ hlt
  rw [hi, ← Nat.add_assoc, ← hqi] at hbyte
  rw [← Option.some.inj hbyte]

omit hlib in
/-- The second call of `_push_back` does not change what the program sees of the key. -/
lemma image_appended_eq_pushed (s : PMem UInt8) (r : Record) (hp : p < e + (frame r.1).length) :
    (M.appended s e r).image p = (M.pushed s e r.1).image p := by
  unfold Mapping.appended
  rw [Mapping.image_pushed]
  apply applyWrite_of_forall_ne
  intro q hq
  have := (mem_chunk hq).1
  omega

/-- `Append` makes both lengths and the first bytes of both slices durable, and leaves the rest of
the medium. -/
lemma medium_appended (s : PMem UInt8) (e : ℕ) (r : Record) (p : ℕ) :
    (M.appended s e r).medium p =
      if e ≤ p ∧ p < e + 8 + toUInt32 r.1.length ∨ e + (frame r.1).length ≤ p ∧
          p < e + (frame r.1).length + 8 + toUInt32 r.2.length then (M.appended s e r).image p
      else s.medium p := by
  have hle : toUInt32 r.1.length ≤ r.1.length := Nat.mod_le _ _
  have hframe := length_frame r.1
  have hsecond : (M.appended s e r).medium p =
      if e + (frame r.1).length ≤ p ∧ p < e + (frame r.1).length + 8 + toUInt32 r.2.length then
        (M.appended s e r).image p
      else (M.pushed s e r.1).medium p := medium_pushed hlib _ _ _ p
  rw [hsecond, medium_pushed hlib s e r.1 p]
  by_cases h₂ : e + (frame r.1).length ≤ p ∧ p < e + (frame r.1).length + 8 + toUInt32 r.2.length
  · rw [if_pos h₂, if_pos (Or.inr h₂)]
  · rw [if_neg h₂]
    by_cases h₁ : e ≤ p ∧ p < e + 8 + toUInt32 r.1.length
    · rw [if_pos h₁, if_pos (Or.inl h₁), image_appended_eq_pushed s r (by omega)]
    · rw [if_neg h₁, if_neg (not_or.mpr ⟨h₁, h₂⟩)]

/-- Outside the record `Append` leaves the medium. -/
lemma medium_appended_of_notMem (s : PMem UInt8) (e : ℕ) (r : Record)
    (hp : ¬(e ≤ p ∧ p < e + (encodeRecord r).length)) :
    (M.appended s e r).medium p = s.medium p := by
  have hkey : toUInt32 r.1.length ≤ r.1.length := Nat.mod_le _ _
  have hvalue : toUInt32 r.2.length ≤ r.2.length := Nat.mod_le _ _
  have hframe := length_frame r.1
  have hlen := PmemKv.length_encodeRecord r
  rw [medium_appended hlib, if_neg]
  omega

omit hlib in
/-- In front of the record a program sees what it saw. -/
lemma image_appended_of_lt (s : PMem UInt8) (r : Record) (hp : p < e) :
    (M.appended s e r).image p = s.image p := by
  rw [Mapping.image_appended]
  apply applyWrite_of_forall_ne
  intro q hq
  have := (mem_chunk hq).1
  omega

omit hlib in
/-- The number of records is in the first word. -/
lemma image_counted_of_le (s : PMem UInt8) (hp : 8 ≤ p) :
    (Mapping.counted s).image p = s.image p := by
  rw [Mapping.image_counted]
  apply applyWrite_of_forall_ne
  intro q hq
  have := (mem_chunk hq).2
  rw [length_le64] at this
  omega

/-- A store of `Append` that stays pending is that of one byte of the record. -/
lemma mem_pending_appended (hout : ∀ w ∈ s.pending, w ≠ [] ∧ ∀ q ∈ w, q.1 < e) {w : Write UInt8}
    (hw : w ∈ (M.appended s e r).pending) :
    w ∈ s.pending ∨
      ∃ p, e ≤ p ∧ p < e + (encodeRecord r).length ∧ w = [(p, (M.appended s e r).image p)] := by
  have hout' : ∀ w ∈ (M.pushed s e r.1).pending,
      w ≠ [] ∧ ∀ q ∈ w, q.1 < e + (frame r.1).length := by
    intro w hw
    rcases mem_pending_pushed hlib hout hw with hw | ⟨p, -, hp, rfl⟩
    · exact ⟨(hout w hw).1, fun q hq => ((hout w hw).2 q hq).trans_le (Nat.le_add_right e _)⟩
    · refine ⟨List.cons_ne_nil _ _, fun q hq => ?_⟩
      obtain rfl := List.mem_singleton.mp hq
      exact hp
  rw [encodeRecord, List.length_append, ← Nat.add_assoc]
  rcases mem_pending_pushed hlib hout' hw with hw | ⟨p, hle, hp, rfl⟩
  · rcases mem_pending_pushed hlib hout hw with hw | ⟨p, hle, hp, rfl⟩
    · exact Or.inl hw
    · refine Or.inr ⟨p, hle, hp.trans_le (Nat.le_add_right _ _), ?_⟩
      rw [image_appended_eq_pushed s r hp]
  · exact Or.inr ⟨p, by omega, hp, rfl⟩

/-- What a memory may hold where a record was appended is what may be left of the record. -/
lemma exists_recordLeft {m' : ℕ → UInt8} (hm₀ : ∀ p, e ≤ p → s.medium p = m₀ p)
    (hm' : ∀ p, e ≤ p → p < e + (encodeRecord r).length →
      m' p = (M.appended s e r).medium p ∨ m' p = (M.appended s e r).image p) :
    ∃ r', RecordLeft m₀ e r r' ∧ read m' e (encodeRecord r).length = encodeRecord r' := by
  have hframe := length_frame r.1
  have hlen := PmemKv.length_encodeRecord r
  have hread : read (M.appended s e r).image e (encodeRecord r).length = encodeRecord r := by
    rw [Mapping.image_appended]
    exact read_applyWrite_chunk _ _ _
  -- a byte is as it was appended, or it is not covered and as it was before
  have hbyte : ∀ p, e ≤ p → p < e + (encodeRecord r).length → m' p = (M.appended s e r).image p ∨
      ¬(p < e + 8 + toUInt32 r.1.length) ∧ ¬(e + (frame r.1).length ≤ p ∧
        p < e + (frame r.1).length + 8 + toUInt32 r.2.length) ∧ m' p = m₀ p := by
    intro p hle hp
    rcases hm' p hle hp with heq | heq
    · rw [medium_appended hlib] at heq
      split at heq
      · exact Or.inl heq
      · next hnot =>
        rw [not_or] at hnot
        exact Or.inr ⟨fun hlt => hnot.1 ⟨hle, hlt⟩, hnot.2, heq.trans (hm₀ p hle)⟩
    · exact Or.inl heq
  refine ⟨(read m' (e + 8) r.1.length, read m' (e + (frame r.1).length + 8) r.2.length), ?_, ?_⟩
  · have hkey := read_key hread
    have hvalue := read_value hread
    refine ⟨⟨length_read _ _ _, fun i hi => ?_⟩, ⟨length_read _ _ _, fun i hi => ?_⟩⟩
    · rw [getElem?_read hi, read_eq_iff.mp hkey i hi]
      rcases hbyte (e + 8 + i) (by omega) (by omega) with heq | ⟨hout, -, heq⟩
      · exact Or.inl (congrArg some heq)
      · exact Or.inr ⟨by omega, congrArg some heq⟩
    · rw [getElem?_read hi, read_eq_iff.mp hvalue i hi]
      rcases hbyte (e + (frame r.1).length + 8 + i) (by omega) (by omega) with heq | ⟨-, hout, heq⟩
      · exact Or.inl (congrArg some heq)
      · exact Or.inr ⟨by omega, congrArg some heq⟩
  · have hcovered : ∀ p, e ≤ p → p < e + (encodeRecord r).length →
        p < e + 8 + toUInt32 r.1.length ∨ (e + (frame r.1).length ≤ p ∧
          p < e + (frame r.1).length + 8 + toUInt32 r.2.length) →
        m' p = (M.appended s e r).image p := by
      intro p hle hp hcov
      rcases hbyte p hle hp with heq | ⟨h₁, h₂, -⟩
      · exact heq
      · exact absurd hcov (not_or.mpr ⟨h₁, h₂⟩)
    obtain ⟨hkeyLength, hvalueLength⟩ := read_lengths hread
    have hsame : (encodeRecord (read m' (e + 8) r.1.length,
        read m' (e + (frame r.1).length + 8) r.2.length)).length = (encodeRecord r).length := by
      rw [PmemKv.length_encodeRecord, hlen, length_read, length_read]
    rw [← hsame]
    apply read_encodeRecord
    · rw [length_read, ← hkeyLength, read_eq_read]
      intro p hle hp
      exact hcovered p hle (by omega) (Or.inl (by omega))
    · rw [length_read]
    · rw [length_frame, length_read, ← hframe, length_read, ← hvalueLength, read_eq_read]
      intro p hle hp
      exact hcovered p (by omega) (by omega) (Or.inr ⟨hle, by omega⟩)
    · rw [length_frame, length_read, ← hframe, length_read]

end Append

/-! ## A session -/

namespace Session

/-- The store was just opened. -/
lemma new (hlog : LogImage m recs) : Session ⟨m, []⟩ m recs [] := by
  refine ⟨hlog, by rwa [List.append_nil], fun _ _ => rfl, fun _ _ => rfl, fun m' _ => ?_,
    fun w hw => absurd hw List.not_mem_nil⟩
  exact ⟨[], .nil, rfl⟩

/-- The pending stores are in front of the end of the log. -/
lemma pending_lt (h : Session s m₀ recs₀ sets) :
    ∀ w ∈ s.pending, w ≠ [] ∧ ∀ q ∈ w, q.1 < endOf (recs₀ ++ sets) := by
  intro w hw
  rcases h.pending w hw with ⟨k, -, -, rfl⟩ | ⟨p, -, hp, rfl⟩
  · refine ⟨by simp [countWrite, le64, leBytes, chunk], fun q hq => ?_⟩
    exact (mem_countWrite hq).trans_le (Nat.le_add_right 8 _)
  · refine ⟨List.cons_ne_nil _ _, fun q hq => ?_⟩
    obtain rfl := List.mem_singleton.mp hq
    exact hp

/-- One more record is appended and counted. -/
theorem appended (hlib : M.useLibpmem = true) (h : Session s m₀ recs₀ sets)
    (hfits : endOf (recs₀ ++ sets) ≤ M.mappedLen) (r : Record) :
    Session (Mapping.counted (M.appended s (endOf (recs₀ ++ sets)) r)) m₀ recs₀ (sets ++ [r]) := by
  have hend : endOf (recs₀ ++ (sets ++ [r])) = endOf (recs₀ ++ sets) + (encodeRecord r).length := by
    rw [← List.append_assoc, endOf_append, encode_singleton]
  have hstart : endOf recs₀ ≤ endOf (recs₀ ++ sets) := by
    rw [endOf_append]
    exact Nat.le_add_right _ _
  have hge : 8 ≤ endOf recs₀ := Nat.le_add_right 8 _
  have hmedium : ∀ p, p < endOf (recs₀ ++ sets) ∨ endOf (recs₀ ++ (sets ++ [r])) ≤ p →
      (Mapping.counted (M.appended s (endOf (recs₀ ++ sets)) r)).medium p = s.medium p := by
    intro p hp
    exact medium_appended_of_notMem hlib s _ r (by omega)
  have himage : ∀ p, 8 ≤ p → p < endOf (recs₀ ++ sets) →
      (Mapping.counted (M.appended s (endOf (recs₀ ++ sets)) r)).image p = s.image p :=
    fun p hp hlt => (image_counted_of_le _ hp).trans (image_appended_of_lt s r hlt)
  constructor
  · exact h.start
  · have := Mapping.logImage_append (M := M) h.image hfits r
    rwa [List.append_assoc] at this
  · intro p hp
    rw [hmedium p (Or.inl (hp.trans_le hstart)), h.medium_start p hp]
  · intro p hp
    rw [hmedium p (Or.inr hp), h.behind p (by omega)]
  · intro m' hm'
    obtain ⟨sets', hleft, hread⟩ := h.left m' fun p hle hp => by
      have := hm' p hle (by omega)
      rwa [hmedium p (Or.inl hp), himage p (by omega) hp] at this
    have hregion : ∀ p, endOf (recs₀ ++ sets) ≤ p →
        p < endOf (recs₀ ++ sets) + (encodeRecord r).length →
        m' p = (M.appended s (endOf (recs₀ ++ sets)) r).medium p ∨
          m' p = (M.appended s (endOf (recs₀ ++ sets)) r).image p := by
      intro p hle hp
      rw [← image_counted_of_le _ (by omega : 8 ≤ p)]
      exact hm' p (by omega) (by omega)
    obtain ⟨r', hr', hreadr⟩ := exists_recordLeft hlib h.behind hregion
    refine ⟨sets' ++ [r'], hleft.snoc ?_, ?_⟩
    · rwa [endOf_append] at hr'
    · rw [encode_append, encode_append, encode_singleton, encode_singleton, List.length_append,
        read_append, hread, ← endOf_append, hreadr]
  · intro w hw
    rcases List.mem_append.mp hw with hw | hw
    · rcases mem_pending_appended hlib h.pending_lt hw with hw | ⟨p, hle, hp, rfl⟩
      · rcases h.pending w hw with ⟨k, hk, hkl, rfl⟩ | ⟨p, hle, hp, rfl⟩
        · refine Or.inl ⟨k, hk, hkl.trans ?_, rfl⟩
          simp only [List.length_append, List.length_singleton]
          omega
        · exact Or.inr ⟨p, hle, by omega, by rw [himage p (by omega) hp]⟩
      · exact Or.inr ⟨p, by omega, by omega, by rw [image_counted_of_le _ (by omega : 8 ≤ p)]⟩
    · -- the new number
      refine Or.inl ⟨(recs₀ ++ (sets ++ [r])).length, ?_, le_rfl, ?_⟩
      · simp only [List.length_append, List.length_singleton]
        omega
      · obtain rfl := List.mem_singleton.mp hw
        have hlt := M.lt
        have hlen := length_le_encode (recs₀ ++ sets)
        have hcounter : read (M.appended s (endOf (recs₀ ++ sets)) r).image 0 8 =
            le64 (recs₀ ++ sets).length := by
          rw [Mapping.image_appended,
            read_applyWrite_chunk_of_disjoint (Or.inl (Nat.le_add_right 8 _))]
          exact h.image.counter
        have hsucc : (recs₀ ++ (sets ++ [r])).length = (recs₀ ++ sets).length + 1 := by
          simp only [List.length_append, List.length_singleton]
          omega
        rw [hcounter, leNat_le64, toUInt64_of_lt (by rw [endOf] at hfits; omega), countWrite, hsucc]

end Session

/-! ## Power failures -/

/-- The memory `s'` is `s` but for what was written from the address `e` on. -/
structure Behind (s : PMem UInt8) (e : ℕ) (s' : PMem UInt8) : Prop where
  /-- The medium in front of the address. -/
  medium_eq : ∀ p < e, s'.medium p = s.medium p
  /-- The stores that are new. -/
  pending : ∀ w ∈ s'.pending, w ∈ s.pending ∨ ∀ q ∈ w, e ≤ q.1

lemma Behind.refl (s : PMem UInt8) (e : ℕ) : Behind s e s := ⟨fun _ _ => rfl, fun _ hw => Or.inl hw⟩

/-- Writing from the address on keeps the condition. -/
lemma keeps_behind (M : Mapping) (hout : ∀ w ∈ s.pending, ∀ q ∈ w, q.1 < e) :
    M.Keeps (Behind s e) e := by
  constructor
  · intro s' a b ha h
    refine ⟨h.medium_eq, fun w hw => ?_⟩
    rcases List.mem_append.mp hw with hw | hw
    · exact h.pending w hw
    · obtain rfl := List.mem_singleton.mp hw
      refine Or.inr fun q hq => ?_
      obtain rfl := List.mem_singleton.mp hq
      exact ha
  · intro s' a n ha h
    unfold Mapping.persisted
    split
    · refine ⟨fun p hp => (if_neg (by omega)).trans (h.medium_eq p hp), fun w hw => ?_⟩
      obtain ⟨hw, -⟩ := List.mem_filter.mp hw
      obtain ⟨v, hv, rfl⟩ := List.mem_map.mp hw
      rcases h.pending v hv with hold | hnew
      · refine Or.inl ?_
        rwa [PMem.trim_eq_self fun q hq => ?_]
        have := hout v hold q hq
        omega
      · exact Or.inr fun q hq => hnew q (List.mem_filter.mp hq).1
    · exact h

namespace Session

/-- The first records survive. -/
lemma surviving (h : Session s m₀ recs₀ sets) (hb : Behind s (endOf (recs₀ ++ sets)) s') :
    Surviving s' recs₀.length (recs₀ ++ sets).length (encode recs₀) := by
  have hstart : endOf recs₀ ≤ endOf (recs₀ ++ sets) := by
    rw [endOf_append]
    exact Nat.le_add_right _ _
  have hge : 8 ≤ endOf recs₀ := Nat.le_add_right 8 _
  have hmedium : ∀ p < endOf recs₀, s'.medium p = m₀ p := fun p hp =>
    (hb.medium_eq p (hp.trans_le hstart)).trans (h.medium_start p hp)
  refine ⟨⟨recs₀.length, le_rfl, ?_, ?_⟩, ?_, fun w hw => ?_⟩
  · rw [List.length_append]
    exact Nat.le_add_right _ _
  · rw [← h.start.counter, read_eq_read]
    exact fun p _ hp => hmedium p (by omega)
  · refine (read_eq_read.mpr fun p _ hp => ?_).trans h.start.records
    exact hmedium p hp
  · rcases hb.pending w hw with hold | hnew
    · rcases h.pending w hold with ⟨k, hk, hkl, rfl⟩ | ⟨p, hle, -, rfl⟩
      · exact Or.inr ⟨k, hk.le, hkl, rfl⟩
      · refine Or.inl fun q hq => ?_
        obtain rfl := List.mem_singleton.mp hq
        exact hle
    · exact Or.inl fun q hq => hstart.trans (hnew q hq)

/-- **A power failure** leaves the first records and the first of the others, or what may be left of
these. -/
theorem crash (h : Session s m₀ recs₀ sets) (hb : Behind s (endOf (recs₀ ++ sets)) s')
    (survives : List Bool) : ∃ sets' k, LogLeft m₀ (endOf recs₀) sets sets' ∧ k ≤ sets.length ∧
      LogImage (s'.crash survives).image (recs₀ ++ sets'.take k) := by
  obtain ⟨n, hn, hle, hcounter, hrecords⟩ := (h.surviving hb).crash survives
  have hge : 8 ≤ endOf recs₀ := Nat.le_add_right 8 _
  obtain ⟨sets', hleft, hread⟩ := h.left (s'.crash survives).medium fun p hp hlt => by
    rcases applyAll_eq_or s'.medium (select survives s'.pending) p with heq | ⟨w, hw, hmem⟩
    · exact Or.inl (heq.trans (hb.medium_eq p hlt))
    · rcases hb.pending w ((select_sublist _ _).subset hw) with hold | hnew
      · rcases h.pending w hold with ⟨k, -, -, rfl⟩ | ⟨q, -, -, rfl⟩
        · have := mem_countWrite hmem
          omega
        · obtain ⟨rfl, hbyte⟩ := Prod.mk.inj (List.mem_singleton.mp hmem)
          exact Or.inr hbyte
      · have := hnew _ hmem
        omega
  refine ⟨sets', n - recs₀.length, hleft, ?_, ?_⟩
  · rw [List.length_append] at hle
    omega
  · have hall : read (s'.crash survives).medium 8 (encode (recs₀ ++ sets')).length =
        encode (recs₀ ++ sets') := by
      rw [encode_append, List.length_append, hleft.length_eq.2, read_append, hrecords]
      exact congrArg (encode recs₀ ++ ·) hread
    rw [← List.take_append_drop (n - recs₀.length) sets', ← List.append_assoc] at hall
    refine ⟨?_, (read_encode_append _ _ hall).1⟩
    change read (s'.crash survives).medium 0 8 = _
    rw [hcounter, List.length_append, List.length_take, hleft.length_eq.1, Nat.min_eq_left]
    · congr 1
      omega
    · rw [List.length_append] at hle
      omega

/-- All records since the last power failure may be lost. -/
lemma crash_nil (h : Session s m₀ recs₀ sets) : LogImage (s.crash []).image recs₀ := by
  have hnil : select ([] : List Bool) s.pending = [] := by
    cases s.pending <;> rfl
  have himage : (s.crash []).image = s.medium := by
    rw [PMem.image_crash, hnil]
    rfl
  rw [himage]
  constructor
  · rw [← h.start.counter, read_eq_read]
    exact fun p _ hp => h.medium_start p (hp.trans_le (Nat.le_add_right 8 _))
  · refine (read_eq_read.mpr fun p _ hp => ?_).trans h.start.records
    exact h.medium_start p hp

/-- Whatever may be left of a record, some power failure leaves it. -/
theorem exists_crash (hlib : M.useLibpmem = true) (h : Session s m₀ recs₀ sets)
    (hfits : endOf (recs₀ ++ sets) ≤ M.mappedLen)
    (hr : RecordLeft m₀ (endOf (recs₀ ++ sets)) r r') :
    ∃ survives, LogImage ((Mapping.counted (M.appended s (endOf (recs₀ ++ sets)) r)).crash
      survives).image (recs₀ ++ sets ++ [r']) := by
  have ht := h.appended hlib hfits r
  have htmedium : ∀ p, (Mapping.counted (M.appended s (endOf (recs₀ ++ sets)) r)).medium p =
      (M.appended s (endOf (recs₀ ++ sets)) r).medium p := fun _ => rfl
  generalize hteq : Mapping.counted (M.appended s (endOf (recs₀ ++ sets)) r) = t at ht htmedium ⊢
  have hrecords := ht.image.records
  rw [← List.append_assoc] at hrecords
  obtain ⟨hold, hnew⟩ := read_encode_append _ _ hrecords
  rw [encode_singleton] at hnew
  have hge : 8 ≤ endOf (recs₀ ++ sets) := Nat.le_add_right 8 _
  -- the bytes that are not lost reach the medium
  obtain ⟨survives, himage⟩ := t.exists_crash (fun p => p < endOf (recs₀ ++ sets) ∨
    (encodeRecord r')[p - endOf (recs₀ ++ sets)]? = some (t.image p)) fun w hw => by
      rcases ht.pending w hw with ⟨k, -, -, rfl⟩ | ⟨p, -, -, rfl⟩
      · exact Or.inl fun q hq => Or.inl ((mem_countWrite hq).trans_le hge)
      · simp only [List.forall_mem_singleton]
        exact em _
  have hlen := hr.length_encodeRecord
  refine ⟨survives, ?_, ?_⟩
  · have hcounter := ht.image.counter
    rw [← List.append_assoc, List.length_append] at hcounter
    rw [List.length_append]
    refine (read_eq_read.mpr fun p _ hp => ?_).trans hcounter
    rw [himage, if_pos (Or.inl (by omega))]
  · have hfirst : read (t.crash survives).image 8 (encode (recs₀ ++ sets)).length =
        encode (recs₀ ++ sets) := by
      refine (read_eq_read.mpr fun p _ hp => ?_).trans hold
      have hlt : p < endOf (recs₀ ++ sets) := hp
      rw [himage, if_pos (Or.inl hlt)]
    have hlast : read (t.crash survives).image (endOf (recs₀ ++ sets)) (encodeRecord r').length =
        encodeRecord r' := by
      rw [read_eq_iff]
      intro i hi
      rw [hlen] at hi
      have hbyte := read_eq_iff.mp hnew i hi
      rw [himage, Nat.add_sub_cancel_left]
      split
      · next hkept =>
        rcases hkept with hlt | heq
        · omega
        · exact heq
      · next hlost =>
        rw [htmedium, medium_appended hlib]
        rcases hr.getElem?_eq hi with heq | ⟨hkey, hvalue, heq⟩
        · exact absurd (Or.inr (heq.trans hbyte)) hlost
        · rw [if_neg (by omega), h.behind _ (Nat.le_add_right _ _), heq]
    rw [encode_append, encode_singleton, List.length_append, read_append, hfirst]
    exact congrArg (encode (recs₀ ++ sets) ++ ·) hlast

end Session

end PmemKv
