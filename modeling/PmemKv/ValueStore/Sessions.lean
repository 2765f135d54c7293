import PmemKv.ValueStore.Availability

/-!
# Closing and opening again

`KVSOpen` sets the threshold of its session, but neither it nor `KVSCLose` touches the flag and the
counter.  A session starts like the first one of its process exactly if every refusal in the history
was made up for: some later call gave bytes back with which those that were given back since
exceeded the threshold at that time, in the same session or in a later one.
-/

namespace PmemKv

open PersistentMemory

namespace Libraries

variable (L : Libraries)

/-- The bytes that a step gives back. -/
def eventGives : KvsEvent → Option ℕ
  | .call call => givenBack call
  | _ => none

/-- In a step all pools refuse the object of a value. -/
def EventRefuses (s : KVSState) : KvsEvent → Prop
  | .call call => L.Refuses s call
  | _ => False

/-- With some step that gives bytes back, those that were given back, and `n` more, exceed the
threshold at that time. -/
def MakesUp : ℕ → List KvsEvent → KvsRun → Prop
  | _, [], _ => False
  | n, event :: events, r =>
    (∃ k, eventGives event = some k ∧ r.s.dcpmmAvailSizeMin < n + k) ∨
      match L.runEvent event r with
      | .ok r => MakesUp (n + (eventGives event).getD 0) events r
      | .error _ => False

/-- Every refusal is made up for. -/
def AllMadeUp : List KvsEvent → KvsRun → Prop
  | [], _ => True
  | event :: events, r =>
    match L.runEvent event r with
    | .ok r' => (L.EventRefuses r.s event → L.MakesUp 0 events r') ∧ AllMadeUp events r'
    | .error _ => True

/-- The refusal that cleared the flag, if it is cleared, is made up for, and so is every later
one. -/
def MadeUpFrom (events : List KvsEvent) (r : KvsRun) : Prop :=
  (r.s.dcpmmIsAvail = false → L.MakesUp r.s.dcpmmAvailSize events r) ∧ L.AllMadeUp events r

/-- The arguments of a step are machine words, and the process does not end with it. -/
def InProcess : KvsEvent → Prop
  | .call call => ∀ n, givenBack call = some n → n < 2 ^ 32
  | .kvsOpen size _ => size < 2 ^ 64
  | .kvsCLose => True
  | .restart => False

/-- A session starts like the first one: nothing was refused, and `KVSEncodeValue` returns `true`
exactly if some pool finds room when it comes to it. -/
structure FreshSession (size count : ℕ) (s : KVSState) : Prop where
  /-- The flag is set. -/
  avail : s.dcpmmIsAvail = true
  /-- Nothing is counted. -/
  size_eq : s.dcpmmAvailSize = 0
  /-- The threshold is that of the session. -/
  min_eq : s.dcpmmAvailSizeMin = size / 10
  /-- Values are accepted. -/
  encode : ∀ value compress, ∃ res s', L.kvsEncodeValue value compress s = .ok (res, s') ∧
    (res.isSome = true ↔ ∃ k < count, (L.reserve (s.reserves + k) s.objects
      ((s.nextPoolIndex + k) % count) (1 + (L.payload compress value).length)).isSome = true)

variable {L} {count size n : ℕ} {s s' : KVSState} {r r' : KvsRun} {event : KvsEvent}
  {events : List KvsEvent}

/-! ## One step -/

/-- `KVSCLose` touches neither the flag nor the counter. -/
lemma counting_kvsCLose (hs : Counting s) : Counting (kvsCLose s) :=
  ⟨hs.min_lt, hs.size_lt, hs.size_zero⟩

lemma kvsOpen_counting (hs : Counting s) (hsize : size < 2 ^ 64) {res : Bool}
    (hopen : L.kvsOpen size count s = .ok (res, s')) :
    Counting s' ∧ s'.dcpmmIsAvail = s.dcpmmIsAvail ∧ s'.dcpmmAvailSize = s.dcpmmAvailSize := by
  obtain ⟨hmin, hlt, hzero⟩ := hs
  obtain ⟨-, -, ⟨-, rfl⟩ | ⟨-, pools, -, rfl⟩⟩ := kvsOpen_ok hopen
  · exact ⟨⟨hmin, hlt, hzero⟩, rfl, rfl⟩
  · refine ⟨⟨?_, hlt, hzero⟩, rfl, rfl⟩
    change size / 10 < 2 ^ 63
    omega

/-- A step that leaves the flag and the counter alone. -/
lemma makesUp_cons_of_eq (hevent : L.runEvent event r = .ok r') (hgives : eventGives event = none) :
    L.MakesUp n (event :: events) r ↔ L.MakesUp n events r' := by
  rw [MakesUp, hgives, hevent, Option.getD_none, Nat.add_zero]
  simp

/-- A step without a refusal. -/
lemma allMadeUp_cons_of_not (hevent : L.runEvent event r = .ok r')
    (hrefuses : ¬L.EventRefuses r.s event) :
    L.AllMadeUp (event :: events) r ↔ L.AllMadeUp events r' := by
  rw [AllMadeUp, hevent]
  simp [hrefuses]

/-- A step that leaves the flag and the counter alone leaves as much to be made up for. -/
lemma madeUpFrom_cons_of_eq (hevent : L.runEvent event r = .ok r')
    (havail : r'.s.dcpmmIsAvail = r.s.dcpmmIsAvail)
    (hsize : r'.s.dcpmmAvailSize = r.s.dcpmmAvailSize) (hgives : eventGives event = none)
    (hrefuses : ¬L.EventRefuses r.s event) :
    L.MadeUpFrom events r' ↔ L.MadeUpFrom (event :: events) r := by
  unfold MadeUpFrom
  rw [makesUp_cons_of_eq hevent hgives, allMadeUp_cons_of_not hevent hrefuses, havail, hsize]

/-- What a call leaves to be made up for. -/
lemma Counting.madeUpFrom_call (hs : Counting r.s) {call : KvsCall}
    (hlt : ∀ n, givenBack call = some n → n < 2 ^ 32) (hcall : L.runCall call r = .ok r') :
    L.MadeUpFrom events r' ↔ L.MadeUpFrom (.call call :: events) r := by
  have hevent : L.runEvent (.call call) r = .ok r' := hcall
  cases hs.flagCase hlt hcall with
  | accepted havail hrefuses havail' =>
    unfold MadeUpFrom
    rw [allMadeUp_cons_of_not hevent hrefuses]
    simp [havail, havail']
  | refused hrefuses havail' hsize' =>
    have hmade : L.AllMadeUp (.call call :: events) r ↔
        L.MakesUp 0 events r' ∧ L.AllMadeUp events r' := by
      rw [AllMadeUp, hevent]
      have hevents : L.EventRefuses r.s (.call call) := hrefuses
      simp [hevents]
    unfold MadeUpFrom
    rw [hmade, hsize']
    simp [hrefuses.avail, havail']
  | idle havail hgiven havail' hsize' =>
    exact madeUpFrom_cons_of_eq hevent (havail'.trans havail.symm) hsize' hgiven
      (not_refuses havail)
  | counted havail n hgiven hle havail' hsize' =>
    have hrefuses : ¬L.EventRefuses r.s (.call call) := not_refuses havail
    have hgives : eventGives (.call call) = some n := hgiven
    unfold MadeUpFrom
    rw [allMadeUp_cons_of_not hevent hrefuses, MakesUp, hevent, hgives, hsize']
    simp [havail, havail', Nat.not_lt.mpr hle]
  | restored havail n hgiven hlt havail' =>
    have hrefuses : ¬L.EventRefuses r.s (.call call) := not_refuses havail
    have hgives : eventGives (.call call) = some n := hgiven
    unfold MadeUpFrom
    rw [allMadeUp_cons_of_not hevent hrefuses, MakesUp, hevent, hgives]
    simp [havail', hlt]

/-- **A step** keeps the counter from wrapping around, and what the history is to make up for before
it is what is left of it afterwards. -/
lemma Counting.runEvent (hs : Counting r.s) (hproc : InProcess event)
    (hevent : L.runEvent event r = .ok r') :
    Counting r'.s ∧ (L.MadeUpFrom events r' ↔ L.MadeUpFrom (event :: events) r) := by
  cases event with
  | restart => exact absurd hproc id
  | kvsCLose =>
    have hclosed : r' = { r with s := kvsCLose r.s } := by
      cases hevent
      rfl
    subst hclosed
    exact ⟨counting_kvsCLose hs, madeUpFrom_cons_of_eq hevent rfl rfl rfl id⟩
  | kvsOpen size poolCount =>
    obtain ⟨⟨res, s'⟩, hopen, hr'⟩ := bind_eq_ok.mp hevent
    cases hr'
    obtain ⟨hs', havail, hsize⟩ := kvsOpen_counting hs hproc hopen
    exact ⟨hs', madeUpFrom_cons_of_eq hevent havail hsize rfl id⟩
  | call call => exact ⟨hs.runCall hproc hevent, hs.madeUpFrom_call hproc hevent⟩

/-! ## A history -/

/-- **After a history** the flag is set exactly if every refusal was made up for, also one before
it. -/
lemma Counting.avail_iff (hs : Counting r.s) (hproc : ∀ event ∈ events, InProcess event)
    (hrun : L.runEvents events r = .ok r') :
    Counting r'.s ∧ (r'.s.dcpmmIsAvail = true ↔ L.MadeUpFrom events r) := by
  induction events generalizing r with
  | nil =>
    cases hrun
    refine ⟨hs, ?_⟩
    unfold MadeUpFrom MakesUp AllMadeUp
    cases r'.s.dcpmmIsAvail <;> simp
  | cons event events ih =>
    obtain ⟨r₁, hevent, hrest⟩ := runEvents_cons_ok hrun
    obtain ⟨hs₁, hstep⟩ := hs.runEvent (hproc event List.mem_cons_self) hevent
    obtain ⟨hs', hiff⟩ := ih hs₁ (fun e he => hproc e (List.mem_cons_of_mem event he)) hrest
    exact ⟨hs', hiff.trans hstep⟩

/-! ## Sessions -/

/-- The pools are open after `KVSOpen`. -/
lemma kvsOpen_opened (hopen : L.kvsOpen size count s = .ok (true, s')) : Opened L count s' := by
  obtain ⟨-, -, ⟨hfalse, -⟩ | ⟨-, pools, hpools, rfl⟩⟩ := kvsOpen_ok hopen
  · cases hfalse
  · refine ⟨rfl, rfl, fun i hi => ?_⟩
    unfold KVSState.pool
    simp only
    rw [if_pos hi, openLoop_some hpools, if_pos (by omega)]

/-- With open pools and the flag set, `KVSEncodeValue` returns `true` exactly if some pool finds
room. -/
lemma Opened.encode_isSome_iff (hL : L.Lawful count) (h : Opened L count s) (hpos : 0 < count)
    (havail : s.dcpmmIsAvail = true) (value : Bytes) (compress : Bool) :
    ∃ res s', L.kvsEncodeValue value compress s = .ok (res, s') ∧
      (res.isSome = true ↔ ∃ k < count, (L.reserve (s.reserves + k) s.objects
        ((s.nextPoolIndex + k) % count) (1 + (L.payload compress value).length)).isSome =
          true) := by
  have hiff := reservePmem_isSome_iff (L := L) (s := s) (1 + (L.payload compress value).length)
    (by rw [h.poolCount_eq]; exact hpos)
  rw [kvsEncodeValue_eq h.isSome, if_pos havail]
  rw [h.poolCount_eq] at hiff
  rw [← hiff]
  rcases hres : L.reservePmem (1 + (L.payload compress value).length) s with ⟨_ | ⟨j, off⟩, s'⟩
  · exact ⟨_, _, (encodePayload_none (ptrEncoding compress) hres).1, by simp⟩
  · obtain ⟨n, t, -, -, heq⟩ := encodePayload_some hL h (ptrEncoding compress) hres
    exact ⟨_, _, heq, by simp⟩

/-- A session is like the first one if the flag is set and nothing is counted. -/
lemma freshSession_of_avail (hL : L.Lawful count) (hopen : L.kvsOpen size count s = .ok (true, s'))
    (havail : s'.dcpmmIsAvail = true) (hzero : s'.dcpmmAvailSize = 0) :
    L.FreshSession size count s' := by
  have hopened := kvsOpen_opened hopen
  obtain ⟨-, hpos, ⟨hfalse, -⟩ | ⟨-, pools, -, hs'⟩⟩ := kvsOpen_ok hopen
  · cases hfalse
  · exact ⟨havail, hzero, by rw [hs'], hopened.encode_isSome_iff hL hpos havail⟩

/-- The first session of a process. -/
lemma freshSession_first (hL : L.Lawful count)
    (hopen : L.kvsOpen size count s.restart = .ok (true, s')) : L.FreshSession size count s' := by
  obtain ⟨-, -, havail, hzero, -⟩ := kvsOpen_restart hopen
  exact freshSession_of_avail hL hopen havail hzero

/-- **When a session starts like the first one.**  After any history of a process, and `KVSCLose`,
`KVSOpen` opens a session like the first one if and only if every refusal in the history was made up
for. -/
theorem freshSession_iff (hL : L.Lawful count) (live : List StoredValue)
    (hproc : ∀ event ∈ events, InProcess event)
    (hrun : L.runEvents events ⟨s.restart, live⟩ = .ok r) (hsize : size < 2 ^ 64)
    (hopen : L.kvsOpen size count (kvsCLose r.s) = .ok (true, s')) :
    L.FreshSession size count s' ↔ L.AllMadeUp events ⟨s.restart, live⟩ := by
  have hstart : Counting (KvsRun.mk s.restart live).s := by
    refine ⟨?_, ?_, fun _ => rfl⟩
    · exact Nat.two_pow_pos 63
    · exact Nat.two_pow_pos 63
  obtain ⟨hs, hiff⟩ := hstart.avail_iff hproc hrun
  obtain ⟨hs', havail, -⟩ := kvsOpen_counting (counting_kvsCLose hs) hsize hopen
  have hflag : s'.dcpmmIsAvail = true ↔ L.AllMadeUp events ⟨s.restart, live⟩ := by
    have hset : (KvsRun.mk s.restart live).s.dcpmmIsAvail = true := rfl
    rw [havail]
    change r.s.dcpmmIsAvail = true ↔ _
    rw [hiff, MadeUpFrom, hset]
    simp
  rw [← hflag]
  exact ⟨fun h => h.avail, fun h => freshSession_of_avail hL hopen h (hs'.size_zero h)⟩

/-- The pools of a process are opened again, for a session that gives out little: a value is stored,
another one is refused, and the first one is freed. -/
def sampleSession (value : Bytes) : List KvsEvent :=
  [.kvsOpen (2 ^ 24) 2, .kvsCLose, .kvsOpen 20 2, .call (.encode [5, 6, 7] false),
    .call (.encode value false), .call (.free ⟨kEncodingPtrUncompressed, 3, 0, 4096⟩)]

/-- A value that no pool is large enough for is refused, which is made up for when the first one is
freed. -/
lemma sampleSession_madeUp (value : Bytes) (hlen : 2 ^ 23 ≤ value.length) :
    (∃ r s', sampleLibraries.runEvents (sampleSession value) (KvsRun.start fun _ => 0) = .ok r ∧
      sampleLibraries.kvsOpen (2 ^ 24) 2 (kvsCLose r.s) = .ok (true, s')) ∧
    ¬sampleLibraries.AllMadeUp ((sampleSession value).take 5) (KvsRun.start fun _ => 0) ∧
    sampleLibraries.AllMadeUp (sampleSession value) (KvsRun.start fun _ => 0) := by
  -- the run up to the value that is refused, and behind it
  obtain ⟨r₁, r₂, r₃, r₄, h₁, h₂, h₃, h₄, haccepts, hopen, havail, hmin, hrest⟩ : ∃ r₁ r₂ r₃ r₄,
      sampleLibraries.runEvent (.kvsOpen (2 ^ 24) 2) (KvsRun.start fun _ => 0) = .ok r₁ ∧
      sampleLibraries.runEvent .kvsCLose r₁ = .ok r₂ ∧
      sampleLibraries.runEvent (.kvsOpen 20 2) r₂ = .ok r₃ ∧
      sampleLibraries.runEvent (.call (.encode [5, 6, 7] false)) r₃ = .ok r₄ ∧
      ¬sampleLibraries.EventRefuses r₃.s (.call (.encode [5, 6, 7] false)) ∧
      r₄.s.pools.isSome = true ∧ r₄.s.dcpmmIsAvail = true ∧ r₄.s.dcpmmAvailSizeMin = 2 ∧
      ∀ n t, ∃ r s', sampleLibraries.runEvent (.call (.free ⟨kEncodingPtrUncompressed, 3, 0, 4096⟩))
          ⟨{ r₄.s with nextPoolIndex := n, dcpmmIsAvail := false, reserves := t }, r₄.live⟩ =
            .ok r ∧
        sampleLibraries.kvsOpen (2 ^ 24) 2 (kvsCLose r.s) = .ok (true, s') := by
    refine ⟨_, _, _, _, rfl, rfl, rfl, rfl, ?_, rfl, rfl, rfl, fun n t => ⟨_, _, rfl, rfl⟩⟩
    rintro ⟨-, hnone⟩
    cases hnone
  obtain ⟨hrefuses, n, t, h₅⟩ := sampleLibraries_refuses r₄.live hopen havail value hlen
  obtain ⟨r, s', h₆, hopen'⟩ := hrest n t
  have hfirst : ∀ events, sampleLibraries.AllMadeUp (.kvsOpen (2 ^ 24) 2 :: .kvsCLose ::
      .kvsOpen 20 2 :: .call (.encode [5, 6, 7] false) :: events) (KvsRun.start fun _ => 0) ↔
        sampleLibraries.AllMadeUp events r₄ := by
    intro events
    rw [allMadeUp_cons_of_not h₁ id, allMadeUp_cons_of_not h₂ id, allMadeUp_cons_of_not h₃ id,
      allMadeUp_cons_of_not h₄ haccepts]
  refine ⟨⟨r, s', ?_, hopen'⟩, fun hmade => ?_, ?_⟩
  · unfold sampleSession
    simp only [runEvents, h₁, h₂, h₃, h₄, h₅, h₆, bind, Except.bind]
  · have hevent := (hfirst [.call (.encode value false)]).mp hmade
    rw [AllMadeUp, h₅] at hevent
    exact hevent.1 hrefuses
  · refine (hfirst _).mpr ?_
    rw [AllMadeUp, h₅]
    refine ⟨fun _ => Or.inl ⟨3, rfl, ?_⟩, (allMadeUp_cons_of_not h₆ id).mpr trivial⟩
    change r₄.s.dcpmmAvailSizeMin < 0 + 3
    omega

/-- A session behind a refusal that was made up for is like the first one. -/
theorem freshSession_iff_sample :
    ∃ r s', sampleLibraries.runEvents (sampleSession oversized) (KvsRun.start fun _ => 0) = .ok r ∧
      sampleLibraries.kvsOpen (2 ^ 24) 2 (kvsCLose r.s) = .ok (true, s') ∧
      ¬sampleLibraries.AllMadeUp ((sampleSession oversized).take 5) (KvsRun.start fun _ => 0) ∧
      sampleLibraries.AllMadeUp (sampleSession oversized) (KvsRun.start fun _ => 0) ∧
      sampleLibraries.FreshSession (2 ^ 24) 2 s' := by
  have hproc : ∀ event ∈ sampleSession oversized, InProcess event := by
    intro event hevent
    simp only [sampleSession, List.mem_cons, List.not_mem_nil, or_false] at hevent
    rcases hevent with rfl | rfl | rfl | rfl | rfl | rfl
    · exact (by decide : 2 ^ 24 < 2 ^ 64)
    · trivial
    · exact (by decide : 20 < 2 ^ 64)
    · intro n hn
      cases hn
    · intro n hn
      cases hn
    · intro n hn
      cases hn
      decide
  have hlen : 2 ^ 23 ≤ oversized.length := by
    unfold oversized
    rw [List.length_replicate]
  obtain ⟨⟨r, s', hrun, hopen⟩, hnot, hmade⟩ := sampleSession_madeUp oversized hlen
  have hsize : 2 ^ 24 < 2 ^ 64 := by decide
  have hstart : (KvsRun.start fun _ => 0) = ⟨(KVSState.start fun _ => 0).restart, []⟩ := rfl
  refine ⟨r, s', hrun, hopen, hnot, hmade, ?_⟩
  rw [hstart] at hrun hmade
  exact (freshSession_iff sampleLibraries_lawful [] hproc hrun hsize hopen).mpr hmade

/-- After a value that no pool is large enough for, a new session refuses a value of one byte for
which there is room. -/
lemma large_closes (value : Bytes) (hlen : 2 ^ 23 ≤ value.length) :
    ∃ r s', sampleLibraries.runEvents [.kvsOpen (2 ^ 24) 2, .call (.encode value false)]
        (KvsRun.start fun _ => 0) = .ok r ∧
      sampleLibraries.kvsOpen (2 ^ 24) 2 (kvsCLose r.s) = .ok (true, s') ∧
      s'.dcpmmIsAvail = false ∧ sampleLibraries.kvsEncodeValue [1] false s' = .ok (none, s') ∧
      ∀ t, (sampleLibraries.reserve t s'.objects (s'.nextPoolIndex % 2) 2).isSome = true := by
  obtain ⟨-, n, t, hrun⟩ := sampleLibraries_refuses (s := sampleOpened) [] rfl rfl value hlen
  have hsession : ∀ n t, ∃ s', sampleLibraries.kvsOpen (2 ^ 24) 2 (kvsCLose { sampleOpened with
      nextPoolIndex := n, dcpmmIsAvail := false, reserves := t }) = .ok (true, s') ∧
      s'.pools.isSome = true ∧ s'.dcpmmIsAvail = false ∧
      ∀ t, (sampleLibraries.reserve t s'.objects (s'.nextPoolIndex % 2) 2).isSome = true := by
    intro n t
    refine ⟨_, rfl, rfl, rfl, fun t => ?_⟩
    rfl
  obtain ⟨s', hopen', hpools, havail, hroom⟩ := hsession n t
  refine ⟨⟨_, []⟩, s', ?_, hopen', havail, ?_, hroom⟩
  · have hopen : sampleLibraries.runEvent (.kvsOpen (2 ^ 24) 2) (KvsRun.start fun _ => 0) =
        .ok ⟨sampleOpened, []⟩ := rfl
    rw [runEvents, hopen]
    simp only [bind, Except.bind]
    rw [runEvents, hrun]
    rfl
  · rw [kvsEncodeValue_eq hpools, havail, if_neg Bool.false_ne_true]

/-- The value of the size of a pool closes all later sessions. -/
theorem oversized_closes :
    sampleLibraries.Lawful 2 ∧
    ∃ r s', sampleLibraries.runEvents [.kvsOpen (2 ^ 24) 2, .call (.encode oversized false)]
        (KvsRun.start fun _ => 0) = .ok r ∧
      sampleLibraries.kvsOpen (2 ^ 24) 2 (kvsCLose r.s) = .ok (true, s') ∧
      sampleLibraries.kvsEncodeValue [1] false s' = .ok (none, s') ∧
      (∀ t, (sampleLibraries.reserve t s'.objects (s'.nextPoolIndex % 2) 2).isSome = true) ∧
      ¬sampleLibraries.FreshSession (2 ^ 24) 2 s' := by
  have hlen : 2 ^ 23 ≤ oversized.length := by
    unfold oversized
    rw [List.length_replicate]
  obtain ⟨r, s', hrun, hopen, havail, hencode, hroom⟩ := large_closes oversized hlen
  refine ⟨sampleLibraries_lawful, r, s', hrun, hopen, hencode, hroom, fun h => ?_⟩
  exact absurd (havail.symm.trans h.avail) Bool.false_ne_true

end Libraries

end PmemKv
