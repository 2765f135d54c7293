import PmemKv.ValueStore.Reserving
import PmemKv.ValueStore.ValueRuns

/-!
# What the flag and the counter record

`dcpmm_is_avail_` is cleared when all pools refuse an object.  From then on `dcpmm_avail_size_`
counts the bytes that `FreePmem` is called with, from `KVSFreeValue` or `KVSDumpFromValueRef`, until
they exceed `dcpmm_avail_size_min_`.  In every state after the first `KVSOpen` the flag and the
counter say which bytes were given back since the last refusal.
-/

namespace PmemKv

open PersistentMemory

namespace Libraries

variable (L : Libraries)

/-- All pools refuse the object of a value. -/
def Refuses (s : KVSState) : KvsCall → Prop
  | .encode value compress => s.dcpmmIsAvail = true ∧
      (L.reservePmem (1 + (L.payload compress value).length) s).1 = none
  | _ => False

/-- The size of the reference for which a call of `FreePmem` is made. -/
def givenBack : KvsCall → Option ℕ
  | .free ref => if IsRaw ref then none else some ref.size
  | .dump ref =>
    if ref.encoding = kEncodingPtrCompressed ∨ ref.encoding = kEncodingPtrUncompressed then
      some ref.size
    else none
  | _ => none

/-- The bytes that are given back. -/
def givenBytes : List KvsCall → ℕ
  | [] => 0
  | call :: calls => (givenBack call).getD 0 + givenBytes calls

/-- The bytes that are counted do not exceed the threshold, and are counted only while the flag is
cleared. -/
structure Counted (s : KVSState) : Prop where
  /-- The threshold is a tenth of a size. -/
  min_lt : s.dcpmmAvailSizeMin < 2 ^ 63
  /-- The flag would have been set. -/
  size_le : s.dcpmmAvailSize ≤ s.dcpmmAvailSizeMin
  /-- The count starts when the flag is cleared. -/
  size_zero : s.dcpmmIsAvail = true → s.dcpmmAvailSize = 0

/-- What a call leaves in the counter and in the flag. -/
structure Flagged (s : KVSState) (call : KvsCall) (size : ℕ) (avail : Bool) : Prop where
  /-- Bytes are given back. -/
  given : ∀ n, givenBack call = some n →
    size = (noteFreed n s).dcpmmAvailSize ∧ avail = (noteFreed n s).dcpmmIsAvail
  /-- All pools refuse. -/
  refused : L.Refuses s call → size = s.dcpmmAvailSize ∧ avail = false
  /-- Anything else. -/
  other : givenBack call = none → ¬L.Refuses s call → size = s.dcpmmAvailSize ∧
    avail = s.dcpmmIsAvail

variable {L} {count i n size : ℕ} {s s' : KVSState} {r r' : KvsRun} {call : KvsCall}

/-- The bytes that the last call gives back are added. -/
lemma givenBytes_concat (calls : List KvsCall) (call : KvsCall) :
    givenBytes (calls ++ [call]) = givenBytes calls + (givenBack call).getD 0 := by
  induction calls with
  | nil => exact Nat.add_comm _ 0
  | cons c calls ih => rw [List.cons_append, givenBytes, givenBytes, ih, Nat.add_assoc]

/-! ## One call -/

lemma noteFreed_congr (n : ℕ) (hmin : s'.dcpmmAvailSizeMin = s.dcpmmAvailSizeMin)
    (hsize : s'.dcpmmAvailSize = s.dcpmmAvailSize) (havail : s'.dcpmmIsAvail = s.dcpmmIsAvail) :
    (noteFreed n s').dcpmmAvailSize = (noteFreed n s).dcpmmAvailSize ∧
      (noteFreed n s').dcpmmIsAvail = (noteFreed n s).dcpmmIsAvail := by
  unfold noteFreed
  rw [hmin, hsize, havail]
  split
  · exact ⟨hsize, havail⟩
  · split <;> exact ⟨rfl, rfl⟩

lemma noteFreed_of_avail (havail : s.dcpmmIsAvail = true) : noteFreed n s = s := if_pos havail

/-- Enough bytes set the flag. -/
lemma noteFreed_of_lt (havail : s.dcpmmIsAvail = false) (hword : s.dcpmmAvailSize + n < 2 ^ 64)
    (hlt : s.dcpmmAvailSizeMin < s.dcpmmAvailSize + n) :
    (noteFreed n s).dcpmmAvailSize = 0 ∧ (noteFreed n s).dcpmmIsAvail = true := by
  unfold noteFreed
  rw [toUInt64_of_lt hword, havail, if_neg Bool.false_ne_true, if_pos hlt]
  exact ⟨rfl, rfl⟩

/-- Fewer are counted. -/
lemma noteFreed_of_le (havail : s.dcpmmIsAvail = false) (hword : s.dcpmmAvailSize + n < 2 ^ 64)
    (hle : s.dcpmmAvailSize + n ≤ s.dcpmmAvailSizeMin) :
    (noteFreed n s).dcpmmAvailSize = s.dcpmmAvailSize + n ∧
    (noteFreed n s).dcpmmIsAvail = false := by
  unfold noteFreed
  rw [toUInt64_of_lt hword, havail, if_neg Bool.false_ne_true, if_neg (Nat.not_lt.mpr hle)]
  exact ⟨rfl, rfl⟩

/-- `ReservePmem` changes the pools and, if all of them refuse, the flag. -/
lemma reserveLoop_frame {res : Option (ℕ × ℕ)} (h : L.reserveLoop size n i s = (res, s')) :
    ∃ objects t, s' = { s with
      objects := objects, reserves := t, dcpmmIsAvail := s.dcpmmIsAvail && res.isSome } := by
  induction n generalizing i s with
  | zero =>
    cases h
    exact ⟨s.objects, s.reserves, by rw [Option.isSome_none, Bool.and_false]⟩
  | succ n ih =>
    unfold reserveLoop at h
    cases hres : L.reserve s.reserves s.objects i size with
    | some off =>
      rw [hres] at h
      cases h
      exact ⟨_, _, by rw [Option.isSome_some, Bool.and_true]⟩
    | none =>
      rw [hres] at h
      exact ih (s := { s with reserves := s.reserves + 1 }) h

/-- `FreePmem` changes the objects, the counter and the flag. -/
lemma freePmem_frame {ref : KVSRef} (h : L.freePmem ref s = .ok s') :
    ∃ objects, s' = noteFreed ref.size { s with objects := objects } := by
  obtain ⟨pool, hpool, -⟩ := bind_eq_ok.mp h
  rw [freePmem_eq hpool] at h
  cases h
  exact ⟨_, rfl⟩

/-- What a call leaves besides the counter and the flag. -/
structure CallFrame (s s' : KVSState) : Prop where
  /-- The table of the pools. -/
  pools_eq : s'.pools = s.pools
  /-- The number of the pools. -/
  poolCount_eq : s'.poolCount = s.poolCount
  /-- The addresses of the pools. -/
  opens_eq : s'.opens = s.opens
  /-- The threshold. -/
  min_eq : s'.dcpmmAvailSizeMin = s.dcpmmAvailSizeMin

lemma CallFrame.refl (s : KVSState) : CallFrame s s := ⟨rfl, rfl, rfl, rfl⟩

lemma CallFrame.trans {s'' : KVSState} (h : CallFrame s s') (h' : CallFrame s' s'') :
    CallFrame s s'' :=
  ⟨h'.pools_eq.trans h.pools_eq, h'.poolCount_eq.trans h.poolCount_eq,
    h'.opens_eq.trans h.opens_eq, h'.min_eq.trans h.min_eq⟩

lemma CallFrame.noteFreed (h : CallFrame s s') (n : ℕ) : CallFrame s (noteFreed n s') := by
  obtain ⟨m, b, heq⟩ := noteFreed_eq n s'
  rw [heq]
  obtain ⟨h₁, h₂, h₃, h₄⟩ := h
  exact ⟨h₁, h₂, h₃, h₄⟩

/-- Giving bytes back. -/
lemma flagged_noteFreed (hgiven : givenBack call = some n) (hrefuses : ¬L.Refuses s call)
    (hmin : s'.dcpmmAvailSizeMin = s.dcpmmAvailSizeMin)
    (hsize : s'.dcpmmAvailSize = s.dcpmmAvailSize) (havail : s'.dcpmmIsAvail = s.dcpmmIsAvail) :
    L.Flagged s call (noteFreed n s').dcpmmAvailSize (noteFreed n s').dcpmmIsAvail := by
  constructor
  · intro m hm
    rw [hgiven] at hm
    cases hm
    exact noteFreed_congr n hmin hsize havail
  · intro h
    exact absurd h hrefuses
  · intro h
    rw [hgiven] at h
    cases h

/-- Most calls leave the counter and the flag alone. -/
lemma flagged_of_not (hgiven : givenBack call = none) (hrefuses : ¬L.Refuses s call) :
    L.Flagged s call s.dcpmmAvailSize s.dcpmmIsAvail := by
  constructor
  · intro n hn
    rw [hgiven] at hn
    cases hn
  · intro h
    exact absurd h hrefuses
  · intro _ _
    exact ⟨rfl, rfl⟩

/-- Either branch of `KVSEncodeValue` changes the pools and, if all of them refuse, the flag. -/
lemma encodePayload_frame {code : UInt8} {bs : Bytes} {res : Option (KVSRef × PobjAction)}
    (h : L.encodePayload code bs s = .ok (res, s')) :
    res.isSome = (L.reservePmem (1 + bs.length) s).1.isSome ∧ ∃ next mem objects t, s' = { s with
      nextPoolIndex := next, mem := mem, objects := objects, reserves := t
      dcpmmIsAvail := s.dcpmmIsAvail && res.isSome } := by
  unfold encodePayload at h
  rcases hres : L.reservePmem (1 + bs.length) s with ⟨found, s₁⟩
  have hloop := hres
  unfold reservePmem at hloop
  obtain ⟨objects, t, rfl⟩ := reserveLoop_frame hloop
  rw [hres] at h
  cases found with
  | none =>
    cases h
    exact ⟨rfl, _, _, _, _, rfl⟩
  | some found =>
    obtain ⟨pool, -, h⟩ := bind_eq_ok.mp h
    obtain ⟨-, -, h⟩ := bind_eq_ok.mp h
    cases h
    exact ⟨Option.isSome_some, _, _, _, _, by rw [Option.isSome_some, Option.isSome_some]⟩

/-- `KVSEncodeValue` clears the flag when all pools refuse. -/
lemma flagged_encode {value : Bytes} {compress : Bool}
    (hrun : L.runCall (.encode value compress) r = .ok r') :
    CallFrame r.s r'.s ∧
      L.Flagged r.s (.encode value compress) r'.s.dcpmmAvailSize r'.s.dcpmmIsAvail := by
  obtain ⟨⟨res, s'⟩, hres, hrun⟩ := bind_eq_ok.mp hrun
  obtain ⟨_, hopen, -⟩ := bind_eq_ok.mp hres
  rw [kvsEncodeValue_eq (require_eq_ok.mp hopen)] at hres
  by_cases havail : r.s.dcpmmIsAvail = true
  · rw [if_pos havail] at hres
    obtain ⟨hsome, next, mem, objects, t, hs'⟩ := encodePayload_frame hres
    cases res with
    | none =>
      cases hrun
      have hrefuses : L.Refuses r.s (.encode value compress) :=
        ⟨havail, Option.isNone_iff_eq_none.mp (Option.isSome_eq_false_iff.mp hsome.symm)⟩
      rw [hs']
      refine ⟨⟨rfl, rfl, rfl, rfl⟩, ?_, fun _ => ⟨rfl, Bool.and_false _⟩, ?_⟩
      · intro n hn
        cases hn
      · intro _ h
        exact absurd hrefuses h
    | some result =>
      cases hrun
      have hrefuses : ¬L.Refuses r.s (.encode value compress) := by
        rintro ⟨-, hnone⟩
        rw [hnone] at hsome
        cases hsome
      rw [hs']
      refine ⟨⟨rfl, rfl, rfl, rfl⟩, ?_⟩
      simp only [Option.isSome_some, Bool.and_true]
      exact flagged_of_not rfl hrefuses
  · rw [if_neg havail] at hres
    cases hres
    cases hrun
    exact ⟨CallFrame.refl _, flagged_of_not rfl fun h => havail h.1⟩

/-- `KVSPublish` changes the objects. -/
lemma flagged_publish {pacts : List PobjAction} (hrun : L.runCall (.publish pacts) r = .ok r') :
    CallFrame r.s r'.s ∧ L.Flagged r.s (.publish pacts) r'.s.dcpmmAvailSize r'.s.dcpmmIsAvail := by
  obtain ⟨s', hpublish, hrun⟩ := bind_eq_ok.mp hrun
  obtain ⟨-, -, hpublish⟩ := bind_eq_ok.mp hpublish
  obtain ⟨-, -, hpublish⟩ := bind_eq_ok.mp hpublish
  obtain ⟨objects, -, hpublish⟩ := bind_eq_ok.mp hpublish
  cases hpublish
  cases hrun
  exact ⟨⟨rfl, rfl, rfl, rfl⟩, flagged_of_not rfl id⟩

/-- `KVSFreeValue` gives bytes back. -/
lemma flagged_free {ref : KVSRef} (hrun : L.runCall (.free ref) r = .ok r') :
    CallFrame r.s r'.s ∧ L.Flagged r.s (.free ref) r'.s.dcpmmAvailSize r'.s.dcpmmIsAvail := by
  obtain ⟨s', hfree, hrun⟩ := bind_eq_ok.mp hrun
  cases hrun
  unfold kvsFreeValue at hfree
  by_cases hraw : IsRaw ref
  · rw [if_neg fun hne => hraw.elim hne.1 hne.2] at hfree
    cases hfree
    exact ⟨CallFrame.refl _, flagged_of_not (if_pos hraw) id⟩
  · rw [if_pos (not_or.mp hraw)] at hfree
    obtain ⟨objects, rfl⟩ := freePmem_frame hfree
    have hframe : CallFrame r.s { r.s with objects := objects } := ⟨rfl, rfl, rfl, rfl⟩
    exact ⟨hframe.noteFreed ref.size, flagged_noteFreed (if_neg hraw) id rfl rfl rfl⟩

/-- `KVSDumpFromValueRef` gives bytes back. -/
lemma flagged_dump {ref : KVSRef} (hrun : L.runCall (.dump ref) r = .ok r') :
    CallFrame r.s r'.s ∧ L.Flagged r.s (.dump ref) r'.s.dcpmmAvailSize r'.s.dcpmmIsAvail := by
  obtain ⟨⟨added, s'⟩, hdump, hrun⟩ := bind_eq_ok.mp hrun
  cases hrun
  obtain ⟨-, -, hdump⟩ := bind_eq_ok.mp hdump
  by_cases hptr : ref.encoding = kEncodingPtrCompressed ∨ ref.encoding = kEncodingPtrUncompressed
  · rw [if_pos hptr] at hdump
    obtain ⟨pool, -, hdump⟩ := bind_eq_ok.mp hdump
    obtain ⟨s₁, hfree, hdump⟩ := bind_eq_ok.mp hdump
    cases hdump
    obtain ⟨objects, rfl⟩ := freePmem_frame hfree
    have hframe : ∀ mem, CallFrame r.s { r.s with mem := mem, objects := objects } :=
      fun _ => ⟨rfl, rfl, rfl, rfl⟩
    exact ⟨(hframe _).noteFreed ref.size, flagged_noteFreed (if_pos hptr) id rfl rfl rfl⟩
  · rw [if_neg hptr] at hdump
    cases hdump
    exact ⟨CallFrame.refl _, flagged_of_not (if_neg hptr) id⟩

/-- **Every call** treats the counter and the flag so, and leaves the pools open. -/
lemma flagged_runCall (hrun : L.runCall call r = .ok r') :
    CallFrame r.s r'.s ∧ L.Flagged r.s call r'.s.dcpmmAvailSize r'.s.dcpmmIsAvail := by
  cases call with
  | encode value compress => exact flagged_encode hrun
  | publish pacts => exact flagged_publish hrun
  | free ref => exact flagged_free hrun
  | dump ref => exact flagged_dump hrun

lemma Refuses.avail (h : L.Refuses s call) : s.dcpmmIsAvail = true := by
  cases call with
  | encode value compress => exact h.1
  | _ => exact absurd h id

/-- Nothing is tried, and refused, while the flag is cleared. -/
lemma not_refuses (havail : s.dcpmmIsAvail = false) : ¬L.Refuses s call := fun h =>
  absurd (havail.symm.trans h.avail) Bool.false_ne_true

/-- The counter is zero while the flag is set, and far from wrapping around. -/
structure Counting (s : KVSState) : Prop where
  /-- A threshold is a tenth of a size. -/
  min_lt : s.dcpmmAvailSizeMin < 2 ^ 63
  /-- The counter does not exceed all thresholds. -/
  size_lt : s.dcpmmAvailSize < 2 ^ 63
  /-- The count starts when the flag is cleared. -/
  size_zero : s.dcpmmIsAvail = true → s.dcpmmAvailSize = 0

/-- What a call does to the counter and to the flag, by what was in them before. -/
inductive FlagCase (L : Libraries) (call : KvsCall) (s s' : KVSState) : Prop
  /-- The flag stays set. -/
  | accepted (avail : s.dcpmmIsAvail = true) (refuses : ¬L.Refuses s call)
      (avail' : s'.dcpmmIsAvail = true) (size' : s'.dcpmmAvailSize = 0)
  /-- It is cleared. -/
  | refused (refuses : L.Refuses s call) (avail' : s'.dcpmmIsAvail = false)
      (size' : s'.dcpmmAvailSize = 0)
  /-- It stays cleared, and nothing is given back. -/
  | idle (avail : s.dcpmmIsAvail = false) (given : givenBack call = none)
      (avail' : s'.dcpmmIsAvail = false) (size' : s'.dcpmmAvailSize = s.dcpmmAvailSize)
  /-- It stays cleared, and bytes are counted. -/
  | counted (avail : s.dcpmmIsAvail = false) (n : ℕ) (given : givenBack call = some n)
      (le : s.dcpmmAvailSize + n ≤ s.dcpmmAvailSizeMin)
      (avail' : s'.dcpmmIsAvail = false) (size' : s'.dcpmmAvailSize = s.dcpmmAvailSize + n)
  /-- It is set again. -/
  | restored (avail : s.dcpmmIsAvail = false) (n : ℕ) (given : givenBack call = some n)
      (lt : s.dcpmmAvailSizeMin < s.dcpmmAvailSize + n)
      (avail' : s'.dcpmmIsAvail = true) (size' : s'.dcpmmAvailSize = 0)

/-- The flag and the counter after a call. -/
lemma Counting.flagCase (hs : Counting r.s) (hlt : ∀ n, givenBack call = some n → n < 2 ^ 32)
    (hrun : L.runCall call r = .ok r') : FlagCase L call r.s r'.s := by
  obtain ⟨-, hflag⟩ := flagged_runCall hrun
  by_cases hrefuses : L.Refuses r.s call
  · obtain ⟨hsize, havail⟩ := hflag.refused hrefuses
    exact .refused hrefuses havail (hsize.trans (hs.size_zero hrefuses.avail))
  · cases hgiven : givenBack call with
    | none =>
      obtain ⟨hsize, havail⟩ := hflag.other hgiven hrefuses
      cases hset : r.s.dcpmmIsAvail with
      | true => exact .accepted hset hrefuses (havail.trans hset) (hsize.trans (hs.size_zero hset))
      | false => exact .idle hset hgiven (havail.trans hset) hsize
    | some n =>
      have hn := hlt n hgiven
      have hword := hs.size_lt
      obtain ⟨hsize, havail⟩ := hflag.given n hgiven
      cases hset : r.s.dcpmmIsAvail with
      | true =>
        rw [noteFreed_of_avail hset] at hsize havail
        exact .accepted hset hrefuses (havail.trans hset) (hsize.trans (hs.size_zero hset))
      | false =>
        by_cases hle : r.s.dcpmmAvailSize + n ≤ r.s.dcpmmAvailSizeMin
        · obtain ⟨h₁, h₂⟩ := noteFreed_of_le hset (by omega) hle
          exact .counted hset n hgiven hle (havail.trans h₂) (hsize.trans h₁)
        · obtain ⟨h₁, h₂⟩ := noteFreed_of_lt hset (by omega) (Nat.lt_of_not_le hle)
          exact .restored hset n hgiven (Nat.lt_of_not_le hle) (havail.trans h₂) (hsize.trans h₁)

lemma Counted.counting (hs : Counted s) : Counting s := by
  have hmin := hs.min_lt
  have hle := hs.size_le
  exact ⟨hmin, by omega, hs.size_zero⟩

/-- The counter does not wrap around. -/
lemma Counting.runCall (hs : Counting r.s) (hlt : ∀ n, givenBack call = some n → n < 2 ^ 32)
    (hrun : L.runCall call r = .ok r') : Counting r'.s := by
  have hmin := (flagged_runCall hrun).1.min_eq
  have hbound : r'.s.dcpmmAvailSizeMin < 2 ^ 63 := hmin.trans_lt hs.min_lt
  have hpos : 0 < 2 ^ 63 := Nat.two_pow_pos 63
  cases hs.flagCase hlt hrun with
  | accepted _ _ _ hsize' => exact ⟨hbound, hsize'.trans_lt hpos, fun _ => hsize'⟩
  | refused _ _ hsize' => exact ⟨hbound, hsize'.trans_lt hpos, fun _ => hsize'⟩
  | idle _ _ havail' hsize' =>
    exact ⟨hbound, hsize'.trans_lt hs.size_lt,
      fun htrue => absurd (havail'.symm.trans htrue) Bool.false_ne_true⟩
  | counted _ n _ hle' havail' hsize' =>
    exact ⟨hbound, hsize'.trans_lt (hle'.trans_lt hs.min_lt),
      fun htrue => absurd (havail'.symm.trans htrue) Bool.false_ne_true⟩
  | restored _ _ _ _ _ hsize' => exact ⟨hbound, hsize'.trans_lt hpos, fun _ => hsize'⟩

/-- The bytes stay counted. -/
lemma Counted.runCall (hs : Counted r.s) (hlt : ∀ n, givenBack call = some n → n < 2 ^ 32)
    (hrun : L.runCall call r = .ok r') : Counted r'.s := by
  have hmin := (flagged_runCall hrun).1.min_eq
  have hle := hs.size_le
  obtain ⟨hbound, -, hzero⟩ := hs.counting.runCall hlt hrun
  refine ⟨hbound, ?_, hzero⟩
  cases hs.counting.flagCase hlt hrun with
  | accepted _ _ _ hsize' => exact hsize'.trans_le (Nat.zero_le _)
  | refused _ _ hsize' => exact hsize'.trans_le (Nat.zero_le _)
  | idle _ _ _ hsize' => exact hsize'.trans_le (hle.trans hmin.ge)
  | counted _ n _ hle' _ hsize' => exact hsize'.trans_le (hle'.trans hmin.ge)
  | restored _ _ _ _ _ hsize' => exact hsize'.trans_le (Nat.zero_le _)

/-! ## A sequence of calls -/

/-- The sizes in the references are `unsigned int`s. -/
def SizesFit (calls : List KvsCall) : Prop :=
  ∀ call ∈ calls, ∀ n, givenBack call = some n → n < 2 ^ 32

lemma runEvents_append (events events' : List KvsEvent) (r : KvsRun) :
    L.runEvents (events ++ events') r = L.runEvents events r >>= L.runEvents events' := by
  induction events generalizing r with
  | nil => rfl
  | cons event events ih =>
    rw [List.cons_append, runEvents, runEvents, bind_assoc]
    congr 1
    funext r₁
    exact ih r₁

/-- The first part of a run, and the rest. -/
lemma runEvents_append_ok {events events' : List KvsEvent}
    (hrun : L.runEvents (events ++ events') r = .ok r') :
    ∃ r₁, L.runEvents events r = .ok r₁ ∧ L.runEvents events' r₁ = .ok r' := by
  rw [runEvents_append] at hrun
  exact bind_eq_ok.mp hrun

lemma runEvents_cons_ok {event : KvsEvent} {events : List KvsEvent}
    (hrun : L.runEvents (event :: events) r = .ok r') :
    ∃ r₁, L.runEvent event r = .ok r₁ ∧ L.runEvents events r₁ = .ok r' :=
  bind_eq_ok.mp hrun

/-- The calls before the last one, and the last one. -/
lemma runEvents_concat_ok {calls : List KvsCall}
    (hrun : L.runEvents ((calls ++ [call]).map KvsEvent.call) r = .ok r') :
    ∃ r₁, L.runEvents (calls.map KvsEvent.call) r = .ok r₁ ∧ L.runCall call r₁ = .ok r' := by
  rw [List.map_append] at hrun
  obtain ⟨r₁, hfirst, hlast⟩ := runEvents_append_ok hrun
  obtain ⟨r₂, hcall, hnil⟩ := runEvents_cons_ok hlast
  cases hnil
  exact ⟨r₁, hfirst, hcall⟩

/-- A run of calls keeps the threshold and the table of the pools, and counts. -/
lemma Counted.runCalls (hs : Counted r.s) {calls : List KvsCall} (hfit : SizesFit calls)
    (hrun : L.runEvents (calls.map KvsEvent.call) r = .ok r') :
    Counted r'.s ∧ CallFrame r.s r'.s := by
  induction calls generalizing r with
  | nil =>
    cases hrun
    exact ⟨hs, CallFrame.refl _⟩
  | cons call calls ih =>
    obtain ⟨r₁, hcall, hrest⟩ := runEvents_cons_ok hrun
    have hframe := (flagged_runCall hcall).1
    obtain ⟨h, hframe'⟩ := ih (hs.runCall (hfit call List.mem_cons_self) hcall)
      (fun c hc => hfit c (List.mem_cons_of_mem call hc)) hrest
    exact ⟨h, hframe.trans hframe'⟩

/-- While the flag is cleared, the counter has every byte that was given back since. -/
lemma Counted.runCalls_cleared (hs : Counted r.s) (havail : r.s.dcpmmIsAvail = false)
    {calls : List KvsCall} (hfit : SizesFit calls)
    (hrun : L.runEvents (calls.map KvsEvent.call) r = .ok r')
    (hle : r.s.dcpmmAvailSize + givenBytes calls ≤ r.s.dcpmmAvailSizeMin) :
    r'.s.dcpmmIsAvail = false ∧ r'.s.dcpmmAvailSize = r.s.dcpmmAvailSize + givenBytes calls := by
  induction calls generalizing r with
  | nil =>
    cases hrun
    exact ⟨havail, rfl⟩
  | cons call calls ih =>
    obtain ⟨r₁, hcall, hrest⟩ := runEvents_cons_ok hrun
    have hlt := hfit call List.mem_cons_self
    have hmin := (flagged_runCall hcall).1.min_eq
    have hfit₁ : SizesFit calls := fun c hc => hfit c (List.mem_cons_of_mem call hc)
    have hs₁ := hs.runCall hlt hcall
    rw [givenBytes] at hle ⊢
    cases hs.counting.flagCase hlt hcall with
    | accepted htrue => exact absurd (havail.symm.trans htrue) Bool.false_ne_true
    | refused hrefuses => exact absurd hrefuses (not_refuses havail)
    | idle _ hgiven havail₁ hsize₁ =>
      rw [hgiven, Option.getD_none] at hle ⊢
      obtain ⟨h₁, h₂⟩ := ih hs₁ havail₁ hfit₁ hrest (by omega)
      exact ⟨h₁, by omega⟩
    | counted _ n hgiven _ havail₁ hsize₁ =>
      rw [hgiven, Option.getD_some] at hle ⊢
      obtain ⟨h₁, h₂⟩ := ih hs₁ havail₁ hfit₁ hrest (by omega)
      exact ⟨h₁, by omega⟩
    | restored _ n hgiven hgt =>
      rw [hgiven, Option.getD_some] at hle
      omega

/-- The call with which they exceed the threshold sets the flag. -/
lemma Counted.runCalls_restored (hs : Counted r.s) (havail : r.s.dcpmmIsAvail = false)
    {calls : List KvsCall} (hfit : SizesFit (calls ++ [call]))
    (hrun : L.runEvents ((calls ++ [call]).map KvsEvent.call) r = .ok r')
    (hle : r.s.dcpmmAvailSize + givenBytes calls ≤ r.s.dcpmmAvailSizeMin)
    (hlt : r.s.dcpmmAvailSizeMin < r.s.dcpmmAvailSize + givenBytes (calls ++ [call])) :
    r'.s.dcpmmIsAvail = true ∧ r'.s.dcpmmAvailSize = 0 := by
  obtain ⟨r₁, hfirst, hcall⟩ := runEvents_concat_ok hrun
  have hfit₁ : SizesFit calls := fun c hc => hfit c (List.mem_append_left _ hc)
  obtain ⟨hs₁, hframe⟩ := hs.runCalls hfit₁ hfirst
  have hmin := hframe.min_eq
  obtain ⟨havail₁, hsize₁⟩ := hs.runCalls_cleared havail hfit₁ hfirst hle
  have hbytes := givenBytes_concat calls call
  cases hs₁.counting.flagCase (hfit call (List.mem_append_right _ List.mem_cons_self)) hcall with
  | accepted htrue => exact absurd (havail₁.symm.trans htrue) Bool.false_ne_true
  | refused hrefuses => exact absurd hrefuses (not_refuses havail₁)
  | idle _ hgiven =>
    rw [hgiven, Option.getD_none] at hbytes
    omega
  | counted _ n hgiven hle₁ =>
    rw [hgiven, Option.getD_some] at hbytes
    omega
  | restored _ _ _ _ havail₂ hsize₂ => exact ⟨havail₂, hsize₂⟩

/-- What the flag and the counter say about the calls that led from one state to another. -/
structure Accounted (L : Libraries) (r₀ : KvsRun) (calls : List KvsCall) (r : KvsRun) : Prop where
  /-- Nothing is counted while the flag is set. -/
  available : r.s.dcpmmIsAvail = true → r.s.dcpmmAvailSize = 0
  /-- Since the flag was cleared the bytes that are given back are counted, up to the threshold. -/
  exhausted : r.s.dcpmmIsAvail = false → ∃ before call after r₁, calls = before ++ call :: after ∧
    L.runEvents (before.map KvsEvent.call) r₀ = .ok r₁ ∧ L.Refuses r₁.s call ∧
    r.s.dcpmmAvailSize = givenBytes after ∧ givenBytes after ≤ r.s.dcpmmAvailSizeMin
  /-- The flag stays cleared as long as they do not exceed the threshold, -/
  cleared : ∀ before call after r₁, calls = before ++ call :: after →
    L.runEvents (before.map KvsEvent.call) r₀ = .ok r₁ → L.Refuses r₁.s call →
    givenBytes after ≤ r.s.dcpmmAvailSizeMin →
    r.s.dcpmmIsAvail = false ∧ r.s.dcpmmAvailSize = givenBytes after
  /-- and the call with which they do sets it. -/
  restored : ∀ before call after last r₁, calls = before ++ call :: (after ++ [last]) →
    L.runEvents (before.map KvsEvent.call) r₀ = .ok r₁ → L.Refuses r₁.s call →
    givenBytes after ≤ r.s.dcpmmAvailSizeMin →
    r.s.dcpmmAvailSizeMin < givenBytes (after ++ [last]) →
    r.s.dcpmmIsAvail = true ∧ r.s.dcpmmAvailSize = 0
  /-- While it is cleared, `KVSEncodeValue` returns `false` and changes nothing. -/
  refuses : r.s.dcpmmIsAvail = false → ∀ p : Process, p.s = r.s → ∀ value compress out,
    L.kvsEncodeValueInto value compress out p = .ok (false, out, p)

/-- A refusal starts the count. -/
lemma Counted.refused (hs : Counted r.s) {before after : List KvsCall} {r₁ : KvsRun}
    (hfit : SizesFit (before ++ call :: after))
    (hbefore : L.runEvents (before.map KvsEvent.call) r = .ok r₁) (hrefuses : L.Refuses r₁.s call)
    (hrun : L.runEvents ((before ++ call :: after).map KvsEvent.call) r = .ok r') :
    ∃ r₂, L.runEvents (after.map KvsEvent.call) r₂ = .ok r' ∧ Counted r₂.s ∧
      r₂.s.dcpmmIsAvail = false ∧ r₂.s.dcpmmAvailSize = 0 := by
  rw [List.map_append, List.map_cons] at hrun
  obtain ⟨r₁', hbefore', hrest⟩ := runEvents_append_ok hrun
  rw [hbefore] at hbefore'
  cases hbefore'
  obtain ⟨r₂, hcall, hafter⟩ := runEvents_cons_ok hrest
  have hfit₁ : SizesFit before := fun c hc => hfit c (List.mem_append_left _ hc)
  have hlt := hfit call (List.mem_append_right _ List.mem_cons_self)
  have hs₁ := (hs.runCalls hfit₁ hbefore).1
  refine ⟨r₂, hafter, hs₁.runCall hlt hcall, ?_⟩
  obtain ⟨hsize, havail⟩ := (flagged_runCall hcall).2.refused hrefuses
  exact ⟨havail, hsize.trans (hs₁.size_zero hrefuses.avail)⟩

/-- The last refusal, if the flag is cleared. -/
lemma Counted.exists_refusal (hs : Counted r.s) (havail : r.s.dcpmmIsAvail = true)
    {calls : List KvsCall} (hfit : SizesFit calls)
    (hrun : L.runEvents (calls.map KvsEvent.call) r = .ok r')
    (hcleared : r'.s.dcpmmIsAvail = false) :
    ∃ before call after r₁, calls = before ++ call :: after ∧
      L.runEvents (before.map KvsEvent.call) r = .ok r₁ ∧ L.Refuses r₁.s call ∧
      r'.s.dcpmmAvailSize = givenBytes after := by
  induction calls using List.reverseRecOn generalizing r' with
  | nil =>
    cases hrun
    rw [havail] at hcleared
    cases hcleared
  | append_singleton calls last ih =>
    obtain ⟨r₁, hfirst, hcall⟩ := runEvents_concat_ok hrun
    have hfit₁ : SizesFit calls := fun c hc => hfit c (List.mem_append_left _ hc)
    have hlt := hfit last (List.mem_append_right _ List.mem_cons_self)
    have hs₁ := (hs.runCalls hfit₁ hfirst).1
    -- a call that counts is added to those behind the refusal
    have hcounted : r₁.s.dcpmmIsAvail = false →
        r'.s.dcpmmAvailSize = r₁.s.dcpmmAvailSize + (givenBack last).getD 0 →
        ∃ before call after r₀, calls ++ [last] = before ++ call :: after ∧
          L.runEvents (before.map KvsEvent.call) r = .ok r₀ ∧ L.Refuses r₀.s call ∧
          r'.s.dcpmmAvailSize = givenBytes after := by
      intro havail₁ hsize
      obtain ⟨before, call, after, r₀, rfl, hbefore, hrefuses, hsize₁⟩ := ih hfit₁ hfirst havail₁
      refine ⟨before, call, after ++ [last], r₀, ?_, hbefore, hrefuses, ?_⟩
      · rw [List.append_assoc, List.cons_append]
      · rw [hsize, hsize₁, givenBytes_concat]
    cases hs₁.counting.flagCase hlt hcall with
    | accepted _ _ htrue => exact absurd (hcleared.symm.trans htrue) Bool.false_ne_true
    | refused hrefuses _ hsize => exact ⟨calls, last, [], r₁, rfl, hfirst, hrefuses, hsize⟩
    | idle havail₁ hgiven _ hsize =>
      refine hcounted havail₁ ?_
      rw [hsize, hgiven]
      rfl
    | counted havail₁ n hgiven _ _ hsize =>
      refine hcounted havail₁ ?_
      rw [hsize, hgiven]
      rfl
    | restored _ _ _ _ htrue => exact absurd (hcleared.symm.trans htrue) Bool.false_ne_true

/-- The flag and the counter say what they should, from any state in which nothing is counted. -/
lemma Counted.accounted (hs : Counted r.s) (hopen : r.s.pools.isSome = true)
    (havail : r.s.dcpmmIsAvail = true) {calls : List KvsCall} (hfit : SizesFit calls)
    (hrun : L.runEvents (calls.map KvsEvent.call) r = .ok r') : Accounted L r calls r' := by
  obtain ⟨hs', hframe⟩ := hs.runCalls hfit hrun
  constructor
  · exact hs'.size_zero
  · intro hcleared
    obtain ⟨before, call, after, r₁, hcalls, hbefore, hrefuses, hsize⟩ :=
      hs.exists_refusal havail hfit hrun hcleared
    exact ⟨before, call, after, r₁, hcalls, hbefore, hrefuses, hsize, hsize ▸ hs'.size_le⟩
  · rintro before call after r₁ rfl hbefore hrefuses hle
    obtain ⟨r₂, hafter, hs₂, havail₂, hsize₂⟩ := hs.refused hfit hbefore hrefuses hrun
    have hfit₂ : SizesFit after := fun c hc =>
      hfit c (List.mem_append_right _ (List.mem_cons_of_mem _ hc))
    have hmin := (hs₂.runCalls hfit₂ hafter).2.min_eq
    obtain ⟨h₁, h₂⟩ := hs₂.runCalls_cleared havail₂ hfit₂ hafter (by omega)
    exact ⟨h₁, by omega⟩
  · rintro before call after last r₁ rfl hbefore hrefuses hle hlt
    obtain ⟨r₂, hafter, hs₂, havail₂, hsize₂⟩ := hs.refused hfit hbefore hrefuses hrun
    have hfit₂ : SizesFit (after ++ [last]) := fun c hc =>
      hfit c (List.mem_append_right _ (List.mem_cons_of_mem _ hc))
    have hmin := (hs₂.runCalls hfit₂ hafter).2.min_eq
    exact hs₂.runCalls_restored havail₂ hfit₂ hafter (by omega) (by omega)
  · intro hcleared p hp value compress out
    rw [← hp] at hcleared
    refine kvsEncodeValueInto_of_not value compress out ?_ hcleared
    rw [hp, hframe.pools_eq]
    exact hopen

/-! ## The first session of a process -/

/-- What `KVSOpen` does. -/
lemma kvsOpen_ok {res : Bool} (hopen : L.kvsOpen size count s = .ok (res, s')) :
    s.pools = none ∧ 0 < count ∧
      (res = false ∧ s' = { s with poolCount := count, tries := s.tries + 1 } ∨
        res = true ∧ ∃ pools, L.openLoop (s.tries + 1) (s.opens + 1) (size / count) count 0
            (fun _ => ⟨0, 0⟩) = some pools ∧
          s' = { s with
            pools := some pools
            poolCount := count
            dcpmmAvailSizeMin := size / 10
            mem := L.mapped (s.opens + 1) s.objects s.mem
            objects := s.objects.filter fun o => o.published
            tries := s.tries + 1
            opens := s.opens + 1 }) := by
  obtain ⟨_, hclosed, hopen⟩ := bind_eq_ok.mp hopen
  obtain ⟨_, hcount, hopen⟩ := bind_eq_ok.mp hopen
  refine ⟨Option.isNone_iff_eq_none.mp (require_eq_ok.mp hclosed),
    Nat.pos_of_ne_zero (require_eq_ok.mp hcount), ?_⟩
  dsimp only at hopen
  split at hopen
  · cases hopen
    exact Or.inl ⟨rfl, rfl⟩
  · next pools hpools =>
    cases hopen
    exact Or.inr ⟨rfl, pools, hpools, rfl⟩

/-- What the first `KVSOpen` of a process leaves. -/
lemma kvsOpen_restart (hopen : L.kvsOpen size count s.restart = .ok (true, s')) :
    0 < count ∧ s'.pools.isSome = true ∧ s'.dcpmmIsAvail = true ∧ s'.dcpmmAvailSize = 0 ∧
      s'.dcpmmAvailSizeMin = size / 10 := by
  obtain ⟨-, hcount, ⟨hfalse, -⟩ | ⟨-, pools, -, rfl⟩⟩ := kvsOpen_ok hopen
  · cases hfalse
  · exact ⟨hcount, rfl, rfl, rfl, rfl⟩

/-- Nothing is counted after the first `KVSOpen`. -/
lemma counted_of_open (hsize : size < 2 ^ 64) (hzero : s.dcpmmAvailSize = 0)
    (hmin : s.dcpmmAvailSizeMin = size / 10) : Counted s :=
  ⟨by omega, by omega, fun _ => hzero⟩

/-- **Availability is accounted for.**  After the first `KVSOpen` of a process and any calls, the
flag and the counter record exactly the bytes that were given back since all pools refused an
object. -/
theorem availability_accounted (hsize : size < 2 ^ 64)
    (hopen : L.kvsOpen size count s.restart = .ok (true, s')) (live : List StoredValue)
    (calls : List KvsCall) (hfit : SizesFit calls)
    (hrun : L.runEvents (calls.map KvsEvent.call) ⟨s', live⟩ = .ok r) :
    Accounted L ⟨s', live⟩ calls r := by
  obtain ⟨-, hpools, havail, hzero, hmin⟩ := kvsOpen_restart hopen
  have hs : Counted s' := counted_of_open hsize hzero hmin
  exact hs.accounted (r := ⟨s', live⟩) hpools havail hfit hrun

/-- Pools that find room for one object only. -/
def onceLibraries : Libraries :=
  { sampleLibraries with
    reserve := fun t objects i _ => if t = 0 then some (poolTop objects i) else none }

/-- A value is stored, the next two are refused, and the first one is freed. -/
def onceCalls : List KvsCall :=
  [.encode [5, 6] false, .encode [7] false, .encode [8] true,
    .free ⟨kEncodingPtrUncompressed, 2, 0, 4096⟩]

/-- Two bytes are counted behind the refusal. -/
theorem availability_accounted_once :
    ∃ s' r, onceLibraries.kvsOpen 50 2 (KVSState.start fun _ => 0).restart = .ok (true, s') ∧
      onceLibraries.runEvents (onceCalls.map KvsEvent.call) ⟨s', []⟩ = .ok r ∧
      r.s.dcpmmAvailSize = 2 ∧ Accounted onceLibraries ⟨s', []⟩ onceCalls r := by
  have hsize : 50 < 2 ^ 64 := by decide
  have hfit : SizesFit onceCalls := by
    intro call hcall n hn
    simp only [onceCalls, List.mem_cons, List.not_mem_nil, or_false] at hcall
    rcases hcall with rfl | rfl | rfl | rfl <;> cases hn
    decide
  refine ⟨_, _, rfl, rfl, rfl, ?_⟩
  have hopen : onceLibraries.kvsOpen 50 2 (KVSState.start fun _ => 0).restart = .ok (true, _) := rfl
  exact availability_accounted hsize hopen [] onceCalls hfit rfl

end Libraries

end PmemKv
