import PmemKv.LogStore.Log

/-!
# What the log holds

The log is the sequence of its records; `LogImage` says that a memory holds the bytes of a sequence
of records behind their number.  `Recovery` rebuilds the map and `_end_off` of the records that the
memory holds, and `Append` adds a record.  Both are read off what a program sees; which stores are
durable does not matter here.
-/

namespace PmemKv

open AtomicProg AtomicProg.Prog PersistentMemory

/-- A key and its value. -/
abbrev Record : Type := Bytes × Bytes

/-- What `_push_back` writes. -/
def frame (x : Bytes) : Bytes := le64 x.length ++ x

/-- What `Append` writes. -/
def encodeRecord (r : Record) : Bytes := frame r.1 ++ frame r.2

/-- The bytes of the log. -/
def encode (recs : List Record) : Bytes := recs.flatMap encodeRecord

/-- The address behind the log. -/
def endOf (recs : List Record) : ℕ := 8 + (encode recs).length

/-- The memory holds the records and their number. -/
structure LogImage (m : ℕ → UInt8) (recs : List Record) : Prop where
  /-- The word `sequence`. -/
  counter : read m 0 8 = le64 recs.length
  /-- The bytes behind it. -/
  records : read m 8 (encode recs).length = encode recs

/-- The map after the records at the address `e` were entered. -/
def enter : ℕ → List Record → HashMap → HashMap
  | _, [], hashMap => hashMap
  | e, r :: recs, hashMap =>
    enter (e + (encodeRecord r).length) recs
      (Function.update hashMap r.1 (some ⟨some (e + (frame r.1).length + 8), r.2.length⟩))

/-- The values after the records were set in order. -/
def replayFrom (values : Bytes → Option Bytes) (recs : List Record) : Bytes → Option Bytes :=
  recs.foldl (fun values r => Function.update values r.1 (some r.2)) values

/-- The values that the records set, in a store that was empty. -/
def replay (recs : List Record) : Bytes → Option Bytes := replayFrom (fun _ => none) recs

/-- The bytes that a slice designates. -/
def Slice.bytes (m : ℕ → UInt8) (slice : Slice) : Option Bytes :=
  slice.data.map fun addr => read m addr slice.size

variable {M : Mapping} {s : PMem UInt8} {m m' : ℕ → UInt8} {recs recs' : List Record} {r : Record}
  {x : Bytes} {e : ℕ} {hashMap : HashMap}

/-! ## The bytes of the records -/

@[simp] lemma length_frame (x : Bytes) : (frame x).length = 8 + x.length := by
  rw [frame, List.length_append, length_le64]

lemma length_encodeRecord (r : Record) :
    (encodeRecord r).length = 16 + r.1.length + r.2.length := by
  rw [encodeRecord, List.length_append, length_frame, length_frame]
  omega

lemma encode_append (recs recs' : List Record) :
    encode (recs ++ recs') = encode recs ++ encode recs' :=
  List.flatMap_append

lemma encode_cons (r : Record) (recs : List Record) :
    encode (r :: recs) = encodeRecord r ++ encode recs :=
  List.flatMap_cons

lemma encode_singleton (r : Record) : encode [r] = encodeRecord r := by
  rw [encode_cons]
  exact List.append_nil _

lemma endOf_append (recs recs' : List Record) :
    endOf (recs ++ recs') = endOf recs + (encode recs').length := by
  rw [endOf, endOf, encode_append, List.length_append, Nat.add_assoc]

/-- A log of `n` records takes at least `16 n` bytes. -/
lemma length_le_encode (recs : List Record) : 16 * recs.length ≤ (encode recs).length := by
  induction recs with
  | nil => exact le_rfl
  | cons r recs ih =>
    rw [encode_cons, List.length_append, length_encodeRecord, List.length_cons]
    omega

lemma replay_append (recs : List Record) (r : Record) :
    replay (recs ++ [r]) = Function.update (replay recs) r.1 (some r.2) := by
  rw [replay, replayFrom, List.foldl_append]
  rfl

/-- A memory that holds a log holds the start of the log. -/
lemma read_encode_append (recs recs' : List Record)
    (h : read m e (encode (recs ++ recs')).length = encode (recs ++ recs')) :
    read m e (encode recs).length = encode recs ∧
      read m (e + (encode recs).length) (encode recs').length = encode recs' := by
  rw [encode_append, List.length_append, read_append] at h
  exact List.append_inj h (by simp)

/-- A log of at least one record is this record and the log of the others. -/
lemma read_encode_cons (h : read m e (encode (r :: recs)).length = encode (r :: recs)) :
    read m e (encodeRecord r).length = encodeRecord r ∧
      read m (e + (encodeRecord r).length) (encode recs).length = encode recs := by
  obtain ⟨hr, hrest⟩ := read_encode_append [r] recs h
  rw [encode_singleton] at hr hrest
  exact ⟨hr, hrest⟩

/-- The key of the record at the address `e`. -/
lemma read_key (hread : read m e (encodeRecord r).length = encodeRecord r) :
    read m (e + 8) r.1.length = r.1 := by
  have hparts : encodeRecord r = le64 r.1.length ++ (r.1 ++ frame r.2) := by
    rw [← List.append_assoc]
    rfl
  rw [hparts] at hread
  have := read_part hread
  rwa [length_le64] at this

/-- The value of the record at the address `e`. -/
lemma read_value (hread : read m e (encodeRecord r).length = encodeRecord r) :
    read m (e + (frame r.1).length + 8) r.2.length = r.2 := by
  have hparts : encodeRecord r = (frame r.1 ++ le64 r.2.length) ++ (r.2 ++ []) := by
    rw [List.append_nil, List.append_assoc]
    rfl
  rw [hparts] at hread
  have := read_part hread
  rwa [List.length_append, length_le64, ← Nat.add_assoc] at this

/-! ## Entering the records -/

lemma enter_append (e : ℕ) (recs recs' : List Record) (hashMap : HashMap) :
    enter e (recs ++ recs') hashMap =
      enter (e + (encode recs).length) recs' (enter e recs hashMap) := by
  induction recs generalizing e hashMap with
  | nil => rfl
  | cons r recs ih =>
    rw [List.cons_append, enter, enter, ih, encode_cons, List.length_append, Nat.add_assoc]

/-- The slices of the map designate the last values of the records. -/
lemma bytes_enter {values : Bytes → Option Bytes}
    (hread : read m e (encode recs).length = encode recs)
    (hmap : ∀ key, (hashMap key).map (Slice.bytes m) = (values key).map some) (key : Bytes) :
    (enter e recs hashMap key).map (Slice.bytes m) = (replayFrom values recs key).map some := by
  induction recs generalizing e hashMap values with
  | nil => exact hmap key
  | cons r recs ih =>
    obtain ⟨hr, hrest⟩ := read_encode_cons hread
    have hval := read_value hr
    have hstep : ∀ k, (Function.update hashMap r.1
        (some ⟨some (e + (frame r.1).length + 8), r.2.length⟩) k).map (Slice.bytes m) =
        (Function.update values r.1 (some r.2) k).map some := by
      intro k
      by_cases hk : k = r.1
      · subst hk
        rw [Function.update_self, Function.update_self, Option.map_some, Option.map_some,
          Slice.bytes, Option.map_some, hval]
      · rw [Function.update_of_ne hk, Function.update_of_ne hk]
        exact hmap k
    exact ih hrest hstep

/-- The slices of the map lie inside the log. -/
lemma enter_inside {l : ℕ} (hl : e + (encode recs).length ≤ l)
    (hmap : ∀ key slice, hashMap key = some slice → ∃ a, slice.data = some a ∧ a + slice.size ≤ l)
    (key : Bytes) (slice : Slice) (hslice : enter e recs hashMap key = some slice) :
    ∃ a, slice.data = some a ∧ a + slice.size ≤ l := by
  induction recs generalizing e hashMap with
  | nil => exact hmap key slice hslice
  | cons r recs ih =>
    rw [encode_cons, List.length_append] at hl
    have hlen := length_encodeRecord r
    refine ih (by omega) ?_ hslice
    intro k sl hsl
    by_cases hk : k = r.1
    · subst hk
      rw [Function.update_self] at hsl
      obtain rfl := Option.some.inj hsl
      refine ⟨_, rfl, ?_⟩
      rw [length_frame]
      simp only
      omega
    · rw [Function.update_of_ne hk] at hsl
      exact hmap k sl hsl

/-- The map of a log has exactly the keys of the records, with their last values. -/
theorem LogImage.bytes_enter (h : LogImage m recs) (key : Bytes) :
    (enter 8 recs (fun _ => none) key).map (Slice.bytes m) = (replay recs key).map some :=
  PmemKv.bytes_enter h.records (fun _ => rfl) key

namespace Mapping

/-! ## Recovery -/

lemma run_load {addr len : ℕ} (h : addr + len ≤ M.mappedLen) (s : PMem UInt8) :
    run PMem.exec (M.load addr len) s = .done (read s.image addr len) s := by
  unfold load
  rw [check_bind_of (by simpa using h)]
  rfl

lemma run_loadWord {addr : ℕ} (h : addr + 8 ≤ M.mappedLen) (s : PMem UInt8) :
    run PMem.exec (M.loadWord addr) s = .done (leNat (read s.image addr 8)) s := by
  unfold loadWord
  rw [run_bind_of (run_load h s)]
  rfl

lemma run_toString {addr len : ℕ} (h : addr + len ≤ M.mappedLen) (s : PMem UInt8) :
    run PMem.exec (M.toString ⟨some addr, len⟩) s = .done (read s.image addr len) s :=
  run_load h s

/-- `_get_slice` reads back what `_push_back` wrote. -/
lemma run_getSlice (n c : ℕ) (hread : read s.image e (frame x).length = frame x)
    (hfits : e + (frame x).length ≤ M.mappedLen) :
    run PMem.exec (M.getSlice ⟨e, n, c⟩) s =
      .done (⟨some (e + 8), x.length⟩, ⟨e + (frame x).length, n, c⟩) s := by
  have hlt := M.lt
  rw [length_frame] at hfits
  rw [length_frame, read_append] at hread
  have hlen : read s.image e 8 = le64 x.length := (List.append_inj hread (by simp)).1
  unfold getSlice
  rw [run_bind_of (run_loadWord (by simp only; omega) s), hlen, leNat_le64, length_frame]
  simp only
  rw [toUInt64_of_lt (by omega), toUInt64_of_lt (by omega),
    toUInt64_of_lt (by omega), Nat.add_assoc]
  rfl

/-- `Next` hands out the record at `_end_off`. -/
lemma run_next {n c : ℕ} (hc : c < n)
    (hread : read s.image e (encodeRecord r).length = encodeRecord r)
    (hfits : e + (encodeRecord r).length ≤ M.mappedLen) :
    run PMem.exec (M.next ⟨e, n, c⟩) s = .done
      ((⟨some (e + 8), r.1.length⟩, ⟨some (e + (frame r.1).length + 8), r.2.length⟩),
        ⟨e + (encodeRecord r).length, n, c + 1⟩) s := by
  have hparts := hread
  rw [encodeRecord, List.length_append, read_append] at hparts
  obtain ⟨hkey, hval⟩ := List.append_inj hparts (by simp)
  rw [encodeRecord, List.length_append] at hfits
  unfold next
  rw [if_pos hc, run_bind_of (run_getSlice n (c + 1) hkey (le_trans (by simp) hfits))]
  simp only
  rw [run_bind_of (run_getSlice n (c + 1) hval (by rwa [Nat.add_assoc]))]
  simp only [encodeRecord, List.length_append, ← Nat.add_assoc]
  rfl

/-- Behind the last record `Next` hands out an empty pair. -/
lemma run_next_none (n : ℕ) (s : PMem UInt8) :
    run PMem.exec (M.next ⟨e, n, n⟩) s = .done ((⟨none, 0⟩, ⟨none, 0⟩), ⟨e, n, n⟩) s := by
  unfold next
  rw [if_neg (lt_irrefl n)]
  rfl

/-- `RecoveryHelper` starts at the first record, with the number of the records. -/
lemma run_recoveryHelper (hlog : LogImage s.image recs) (hfits : endOf recs ≤ M.mappedLen) :
    run PMem.exec M.recoveryHelper s = .done ⟨8, recs.length, 0⟩ s := by
  have hlt := M.lt
  have hlen := length_le_encode recs
  rw [endOf] at hfits
  have hseq : leNat (read s.image 0 8) = recs.length := by
    rw [hlog.counter, leNat_le64, toUInt64_of_lt (by omega)]
  unfold recoveryHelper
  rw [run_bind_of (run_loadWord (by omega) s), hseq]
  rfl

/-- The loop of `Recovery` enters the records that are left. -/
lemma run_recoveryLoop {n c : ℕ} (recs : List Record) (hleft : c + recs.length = n)
    (hread : read s.image e (encode recs).length = encode recs)
    (hfits : e + (encode recs).length ≤ M.mappedLen) (fuel : ℕ) (hfuel : recs.length < fuel)
    (hashMap : HashMap) :
    run PMem.exec (M.recoveryLoop fuel ⟨e, n, c⟩ hashMap) s =
      .done (enter e recs hashMap, ⟨e + (encode recs).length, n, n⟩) s := by
  induction recs generalizing e c fuel hashMap with
  | nil =>
    obtain ⟨fuel, rfl⟩ : ∃ f, fuel = f + 1 := ⟨fuel - 1, by simp at hfuel; omega⟩
    obtain rfl : c = n := hleft
    unfold recoveryLoop
    rw [run_bind_of (run_next_none c s)]
    rfl
  | cons r recs ih =>
    obtain ⟨fuel, rfl⟩ : ∃ f, fuel = f + 1 := ⟨fuel - 1, by simp at hfuel; omega⟩
    obtain ⟨hr, hrest⟩ := read_encode_cons hread
    rw [encode_cons, List.length_append] at hfits
    rw [List.length_cons] at hleft hfuel
    have hlen := length_encodeRecord r
    unfold recoveryLoop
    rw [run_bind_of (run_next (by omega) hr (by omega))]
    simp only [reduceCtorEq, if_false]
    rw [run_bind_of (run_toString (by omega) s), read_key hr,
      ih (by omega) hrest (by omega) fuel (by omega), enter, encode_cons, List.length_append,
      ← Nat.add_assoc]

/-- **`Recovery`** rebuilds the map of the log and its end. -/
theorem run_recovery (hlog : LogImage s.image recs) (hfits : endOf recs ≤ M.mappedLen) {fuel : ℕ}
    (hfuel : recs.length < fuel) (hashMap : HashMap) :
    run PMem.exec (M.recovery fuel hashMap) s = .done (enter 8 recs hashMap, endOf recs) s := by
  unfold recovery
  rw [run_bind_of (run_recoveryHelper hlog hfits), run_bind_of
    (run_recoveryLoop recs (Nat.zero_add _) hlog.records hfits fuel hfuel hashMap)]
  rfl

/-- The loop of `decode` hands out the records that are left. -/
lemma run_decodeLoop {n c : ℕ} (recs : List Record) (hleft : c + recs.length = n)
    (hread : read s.image e (encode recs).length = encode recs)
    (hfits : e + (encode recs).length ≤ M.mappedLen) (fuel : ℕ) (hfuel : recs.length < fuel) :
    run PMem.exec (M.decodeLoop fuel ⟨e, n, c⟩) s =
      .done (recs, e + (encode recs).length) s := by
  induction recs generalizing e c fuel with
  | nil =>
    obtain ⟨fuel, rfl⟩ : ∃ f, fuel = f + 1 := ⟨fuel - 1, by simp at hfuel; omega⟩
    obtain rfl : c = n := hleft
    unfold decodeLoop
    rw [run_bind_of (run_next_none c s)]
    rfl
  | cons r recs ih =>
    obtain ⟨fuel, rfl⟩ : ∃ f, fuel = f + 1 := ⟨fuel - 1, by simp at hfuel; omega⟩
    obtain ⟨hr, hrest⟩ := read_encode_cons hread
    rw [encode_cons, List.length_append] at hfits
    rw [List.length_cons] at hleft hfuel
    have hlen := length_encodeRecord r
    unfold decodeLoop
    rw [run_bind_of (run_next (by omega) hr (by omega))]
    simp only [reduceCtorEq, if_false]
    rw [run_bind_of (run_toString (by omega) s), read_key hr,
      run_bind_of (run_toString (by rw [length_frame]; omega) s), read_value hr,
      run_bind_of (ih (by omega) hrest (by omega) fuel (by omega)), encode_cons,
      List.length_append, ← Nat.add_assoc]
    rfl

/-- The records that `Next` hands out on a log are those of the log. -/
theorem run_decode (hlog : LogImage s.image recs) (hfits : endOf recs ≤ M.mappedLen) {fuel : ℕ}
    (hfuel : recs.length < fuel) :
    run PMem.exec (M.decode fuel) s = .done (recs, endOf recs) s := by
  unfold decode
  rw [run_bind_of (run_recoveryHelper hlog hfits)]
  exact run_decodeLoop recs (Nat.zero_add _) hlog.records hfits fuel hfuel

/-! ## Appending -/

/-- The memory after `_persist`. -/
def persisted (s : PMem UInt8) (addr len : ℕ) : PMem UInt8 :=
  if M.useLibpmem then s.persist addr (toUInt32 len) else s

/-- The memory after `_push_back`. -/
def pushed (s : PMem UInt8) (e : ℕ) (x : Bytes) : PMem UInt8 :=
  M.persisted
    ((M.persisted (s.push (singles e (le64 x.length))) e 8).push (singles (e + 8) x)) (e + 8)
    x.length

/-- The memory after both calls of `_push_back` that `Append` makes. -/
def appended (s : PMem UInt8) (e : ℕ) (r : Record) : PMem UInt8 :=
  M.pushed (M.pushed s e r.1) (e + (frame r.1).length) r.2

/-- The memory after `sequence` was increased. -/
def counted (s : PMem UInt8) : PMem UInt8 :=
  s.push [chunk 0 (le64 (leNat (read s.image 0 8) + 1))]

/-- The condition is kept by what `Append` does from the address `e` on. -/
structure Keeps (M : Mapping) (R : PMem UInt8 → Prop) (e : ℕ) : Prop where
  /-- Storing a byte keeps it. -/
  store : ∀ s a b, e ≤ a → R s → R (s.push [[(a, b)]])
  /-- Persisting a range keeps it. -/
  persist : ∀ s a n, e ≤ a → R s → R (M.persisted s a n)

variable {R : PMem UInt8 → Prop} {a : ℕ}

lemma Keeps.mono (h : M.Keeps R e) (hea : e ≤ a) : M.Keeps R a :=
  ⟨fun s c b hc => h.store s c b (hea.trans hc), fun s c n hc => h.persist s c n (hea.trans hc)⟩

/-- Bytes are stored one by one. -/
lemma throughout_storeBytes (hK : M.Keeps R e) (hR : R s) (hfits : e + x.length ≤ M.mappedLen) :
    Throughout PMem.exec R (M.storeBytes e x) s fun _ s' => s' = s.push (singles e x) := by
  unfold storeBytes
  rw [check_bind_of (by simpa using hfits)]
  exact throughout_storeSingles hR (fun s a b hea _ => hK.store s a b hea) fun _ => rfl

lemma throughout_persist (hK : M.Keeps R e) (hR : R s) (n : ℕ) :
    Throughout PMem.exec R (M.persist e n) s fun _ s' => s' = M.persisted s e n := by
  have hR' := hK.persist s e n le_rfl hR
  unfold persisted at hR'
  unfold persist persisted
  split
  · next hlib =>
    rw [if_pos hlib] at hR'
    exact ⟨hR, hR', rfl⟩
  · exact ⟨hR, rfl⟩

/-- **`_push_back`** writes the frame of the slice at `_end_off`. -/
theorem throughout_pushBack (hK : M.Keeps R e) (hR : R s)
    (hfits : e + (frame x).length ≤ M.mappedLen) :
    Throughout PMem.exec R (M.pushBack e x) s fun r s' =>
      r = (⟨some (e + 8), x.length⟩, e + (frame x).length) ∧ s' = M.pushed s e x := by
  have hlt := M.lt
  rw [length_frame] at hfits
  have hK' := hK.mono (Nat.le_add_right e 8)
  unfold pushBack
  refine (throughout_storeBytes hK hR (by rw [length_le64]; omega)).bind_of ?_
  rintro - s₁ hR₁ rfl
  refine (throughout_persist hK hR₁ 8).bind_of ?_
  rintro - s₂ hR₂ rfl
  refine (throughout_storeBytes hK' hR₂ (by omega)).bind_of ?_
  rintro - s₃ hR₃ rfl
  refine (throughout_persist hK' hR₃ x.length).bind_of ?_
  rintro - s₄ hR₄ rfl
  refine ⟨hR₄, ?_, rfl⟩
  rw [toUInt64_of_lt (by omega), length_frame, Nat.add_assoc]

/-- **`Append`** writes a record at `_end_off` and then counts it.  What is kept by writing is kept
until the record is counted. -/
theorem throughout_append (hK : M.Keeps R e) (hR : R s)
    (hfits : e + (encodeRecord r).length ≤ M.mappedLen) :
    Throughout PMem.exec (fun s' => R s' ∨ s' = counted (M.appended s e r)) (M.append e r.1 r.2) s
      fun a s' =>
        a = ((⟨some (e + 8), r.1.length⟩, ⟨some (e + (frame r.1).length + 8), r.2.length⟩),
          e + (encodeRecord r).length) ∧ s' = counted (M.appended s e r) := by
  have hge := M.ge
  rw [encodeRecord, List.length_append] at hfits
  unfold append
  have hkey := throughout_pushBack (x := r.1) hK hR (by omega)
  refine (hkey.mono (fun _ h => Or.inl h) fun _ _ h hQ => And.intro h hQ).bind_of ?_
  rintro - s₁ - ⟨hR₁, rfl, rfl⟩
  have hval := throughout_pushBack (x := r.2) (hK.mono (Nat.le_add_right e (frame r.1).length)) hR₁
    (by omega)
  refine (hval.mono (fun _ h => Or.inl h) fun _ _ h hQ => And.intro h hQ).bind_of ?_
  rintro - s₂ - ⟨hR₂, rfl, rfl⟩
  unfold loadWord load
  rw [check_bind_of (by simpa using hge)]
  refine ⟨Or.inl hR₂, Or.inl hR₂, Or.inr rfl, ?_, rfl⟩
  rw [encodeRecord, List.length_append, ← Nat.add_assoc]

/-! ## What a program sees of it -/

lemma image_persisted (s : PMem UInt8) (addr len : ℕ) :
    (M.persisted s addr len).image = s.image := by
  unfold persisted
  split
  · exact PMem.image_persist s _ _
  · rfl

/-- `_push_back` stores the frame. -/
lemma image_pushed (s : PMem UInt8) (e : ℕ) (x : Bytes) :
    (M.pushed s e x).image = applyWrite s.image (chunk e (frame x)) := by
  unfold pushed
  rw [image_persisted, PMem.image_push, image_persisted, PMem.image_push, applyAll_singles,
    applyAll_singles, frame, chunk_append, applyWrite_append, length_le64]

/-- `Append` stores the record. -/
lemma image_appended (s : PMem UInt8) (e : ℕ) (r : Record) :
    (M.appended s e r).image = applyWrite s.image (chunk e (encodeRecord r)) := by
  unfold appended
  rw [image_pushed, image_pushed, encodeRecord, chunk_append, applyWrite_append]

lemma image_counted (s : PMem UInt8) :
    (counted s).image = applyWrite s.image (chunk 0 (le64 (leNat (read s.image 0 8) + 1))) :=
  PMem.image_push _ _

/-- The log after `Append` holds one more record. -/
theorem logImage_append (hlog : LogImage s.image recs)
    (hfits : endOf recs ≤ M.mappedLen) (r : Record) :
    LogImage (counted (M.appended s (endOf recs) r)).image (recs ++ [r]) := by
  have hlt := M.lt
  have hlen := length_le_encode recs
  have hge : 8 ≤ endOf recs := Nat.le_add_right _ _
  have hcounter : read (M.appended s (endOf recs) r).image 0 8 = le64 recs.length := by
    rw [image_appended, read_applyWrite_chunk_of_disjoint (Or.inl (by omega))]
    exact hlog.counter
  have hseq : leNat (le64 recs.length) = recs.length := by
    rw [leNat_le64, toUInt64_of_lt (by rw [endOf] at hfits; omega)]
  rw [image_counted, hcounter, hseq]
  constructor
  · have := read_applyWrite_chunk (M.appended s (endOf recs) r).image 0 (le64 (recs.length + 1))
    rw [length_le64] at this
    rw [this, List.length_append]
    rfl
  · rw [read_applyWrite_chunk_of_disjoint (Or.inr (by rw [length_le64])), encode_append,
      encode_singleton, List.length_append, read_append, image_appended]
    have hnew : read (applyWrite s.image (chunk (endOf recs) (encodeRecord r)))
        (8 + (encode recs).length) (encodeRecord r).length = encodeRecord r :=
      read_applyWrite_chunk _ _ _
    rw [read_applyWrite_chunk_of_disjoint (Or.inl (le_refl (endOf recs))), hlog.records, hnew]

/-! ## `NvmExample` -/

/-- The store that is open on a log. -/
def storeOf (recs : List Record) : NvmExample := ⟨endOf recs, enter 8 recs fun _ => none⟩

/-- The store after one more record. -/
lemma storeOf_append (recs : List Record) (r : Record) :
    storeOf (recs ++ [r]) = ⟨endOf recs + (encodeRecord r).length,
      Function.update (storeOf recs).hashMap r.1
        (some ⟨some (endOf recs + (frame r.1).length + 8), r.2.length⟩)⟩ := by
  rw [storeOf, endOf_append, encode_singleton, enter_append]
  rfl

/-- Opening a log. -/
theorem run_nvmExample (hlog : LogImage s.image recs) (hfits : endOf recs ≤ M.mappedLen) {fuel : ℕ}
    (hfuel : recs.length < fuel) :
    run PMem.exec (M.nvmExample fuel) s = .done (storeOf recs) s := by
  unfold nvmExample
  rw [run_bind_of (run_recovery hlog hfits hfuel _)]
  rfl

/-- **`Get`** returns the last value of the key. -/
theorem run_get (hlog : LogImage s.image recs) (hfits : endOf recs ≤ M.mappedLen)
    (key value : Bytes) :
    run PMem.exec (M.get (storeOf recs) key value) s = .done
      (match replay recs key with
        | some value => (.Ok, value)
        | none => (.NotFound, value)) s := by
  have hbytes := hlog.bytes_enter key
  unfold get
  cases hslice : (storeOf recs).hashMap key with
  | none =>
    have hnone : enter 8 recs (fun _ => none) key = none := hslice
    rw [hnone, Option.map_none, eq_comm, Option.map_eq_none_iff] at hbytes
    rw [hbytes]
    rfl
  | some slice =>
    have hsome : enter 8 recs (fun _ => none) key = some slice := hslice
    obtain ⟨addr, size⟩ := slice
    obtain ⟨a, ha, hin⟩ := enter_inside (le_refl (endOf recs))
      (fun _ _ h => absurd h (by simp)) key _ hsome
    obtain rfl : addr = some a := ha
    rw [hsome, Option.map_some, Slice.bytes, Option.map_some, eq_comm,
      Option.map_eq_some_iff] at hbytes
    obtain ⟨v, hv, heq⟩ := hbytes
    rw [hv, Option.some.inj heq]
    simp only
    rw [run_bind_of (run_toString (hin.trans hfits) s)]
    rfl

/-- **`Set`** appends the record and enters it. -/
theorem throughout_set (hK : M.Keeps R (endOf recs)) (hR : R s)
    (hfits : endOf recs + (encodeRecord r).length ≤ M.mappedLen) :
    Throughout PMem.exec (fun s' => R s' ∨ s' = counted (M.appended s (endOf recs) r))
      (M.set (storeOf recs) r.1 r.2) s fun a s' =>
        a = (.Ok, storeOf (recs ++ [r])) ∧ s' = counted (M.appended s (endOf recs) r) := by
  have hge : 8 ≤ endOf recs := Nat.le_add_right _ _
  have hlen := length_encodeRecord r
  unfold set
  refine (throughout_append hK hR hfits).bind_of ?_
  rintro - s' hR' ⟨rfl, rfl⟩
  have hkey : read (counted (M.appended s (endOf recs) r)).image (endOf recs + 8) r.1.length =
      r.1 := by
    apply read_key
    rw [image_counted, read_applyWrite_chunk_of_disjoint (Or.inr (by rw [length_le64]; omega)),
      image_appended]
    exact read_applyWrite_chunk _ _ _
  unfold toString load
  simp only
  rw [check_bind_of (decide_eq_true (by omega))]
  refine ⟨hR', hR', ?_, rfl⟩
  rw [storeOf_append]
  change (Status.Ok, NvmExample.mk _ (Function.update _ (read _ _ _) _)) = _
  rw [hkey]

end Mapping

end PmemKv
