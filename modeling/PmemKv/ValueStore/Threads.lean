import PmemKv.ValueStore.OwnedValues
import PmemKv.ValueStore.Sessions

/-!
# Threads that share the value store

Any number of threads store, publish, read and give back values, each one those that it stored
itself or was given at the start, in any interleaving of their accesses.  No assertion fails, every
thread reads what it stored, and at every point of a run the values are intact that no call in
progress gives back; so are the published ones when the process ends at this point and the pools are
opened again.
-/

namespace PmemKv

open AtomicProg AtomicProg.Prog PersistentMemory

/-- A call of a thread. -/
inductive KvsRequest : Type
  /-- A call that stores, publishes or gives back values. -/
  | call (call : KvsCall)
  /-- `KVSDecodeValueRef`, of a reference. -/
  | decode (ref : KVSRef)

/-- What a call answers. -/
inductive KvsReply : Type
  /-- `KVSEncodeValue`. -/
  | encoded (res : Option (KVSRef × PobjAction))
  /-- `KVSPublish`. -/
  | published
  /-- `KVSFreeValue`. -/
  | freed
  /-- `KVSDumpFromValueRef`, with the bytes that are handed to `add`. -/
  | dumped (added : Option Bytes)
  /-- `KVSDecodeValueRef`, with what it assigns to `dst`. -/
  | decoded (dst : Bytes)

/-- The call gives the value of the reference back. -/
def KvsRequest.GivesBack (request : KvsRequest) (ref : KVSRef) : Prop :=
  request = .call (.free ref) ∨ request = .call (.dump ref)

namespace Shared

variable (L : Libraries)

/-- The values of a thread after a call. -/
def liveAfter (live : List StoredValue) : KvsRequest → KvsReply → List StoredValue
  | .call (.encode value compress), .encoded (some (ref, pact)) =>
    ⟨ref, pact, value, compress, false⟩ :: live
  | .call (.publish pacts), _ =>
    live.map fun x => if x.pact ∈ pacts then { x with published := true } else x
  | .call (.free ref), _ => live.filter fun x => decide (x.ref ≠ ref)
  | .call (.dump ref), _ => live.filter fun x => decide (x.ref ≠ ref)
  | _, _ => live

/-- The reply is that of a value store that holds the values of this thread only; new values may be
refused. -/
def Answers (live : List StoredValue) : KvsRequest → KvsReply → Prop
  | .call (.encode _ _), .encoded _ => True
  | .call (.publish _), .published => True
  | .call (.free _), .freed => True
  | .call (.dump ref), .dumped added => Libraries.IsRaw ref ∧ added = none ∨
    ∃ x ∈ live, x.ref = ref ∧ added =
      some (Libraries.rawEncoding x.compress :: (L.payload x.compress x.value).take ref.size)
  | .decode ref, .decoded dst => ∃ x ∈ live, x.ref = ref ∧ dst = x.value
  | _, _ => False

/-- The replies that a thread has received, and the values that it has stored then and not given
back. -/
inductive Explained (client : List KvsReply → Option KvsRequest) (start : List StoredValue) :
    List KvsReply → List StoredValue → Prop
  /-- It has made no call yet. -/
  | start : Explained client start [] start
  /-- One more call. -/
  | reply {replies : List KvsReply} {live : List StoredValue} {request : KvsRequest}
      {reply : KvsReply}
    (h : Explained client start replies live) (hrequest : client replies = some request)
    (hanswers : Answers L live request reply) :
    Explained client start (replies ++ [reply]) (liveAfter live request reply)

variable {L} {T : Type} {count e : ℕ} {live : List StoredValue} {w : Set OwnedObj}
  {x y : StoredValue}

/-! ## The objects of values -/

/-- The object of a value, with its bytes. -/
def valueBlock (L : Libraries) (x : StoredValue) : OwnedObj :=
  ⟨L.valueObj x, Libraries.ptrEncoding x.compress :: L.payload x.compress x.value⟩

/-- The reference is that of the value. -/
structure Refers (L : Libraries) (count : ℕ) (x : StoredValue) : Prop where
  /-- The encoding. -/
  encoding_eq : x.ref.encoding = Libraries.ptrEncoding x.compress
  /-- The size of the payload. -/
  size_eq : x.ref.size = toUInt32 (L.payload x.compress x.value).length
  /-- The pool. -/
  poolIndex_eq : x.ref.poolIndex = x.pact.poolIndex
  /-- The offset. -/
  offInPool_eq : x.ref.offInPool = x.pact.off
  /-- The pool is there. -/
  pool_lt : x.pact.poolIndex < count

/-- The values have references and places of their own. -/
structure Distinct (L : Libraries) (count : ℕ) (live : List StoredValue) : Prop where
  /-- The references are those of the values. -/
  refers : ∀ x ∈ live, Refers L count x
  /-- A value is determined by its reservation. -/
  eq_of_pact : ∀ x ∈ live, ∀ y ∈ live, x.pact = y.pact → x = y

/-- The thread owns the objects of its values. -/
structure Holds (L : Libraries) (count : ℕ) (live : List StoredValue) (w : Set OwnedObj) :
    Prop extends
    Distinct L count live where
  /-- The objects are those of the values. -/
  owns_eq : w = valueBlock L '' {x | x ∈ live}

lemma Refers.size_le (h : Refers L count x) :
    x.ref.size ≤ (L.payload x.compress x.value).length := by
  rw [h.size_eq]
  exact Nat.mod_le _ _

lemma Refers.not_isRaw (h : Refers L count x) : ¬Libraries.IsRaw x.ref := by
  obtain ⟨hne₁, hne₂⟩ := Libraries.ptrEncoding_ne x.compress
  rw [← h.encoding_eq] at hne₁ hne₂
  exact fun hraw => hraw.elim hne₁ hne₂

/-- References are those of one value only. -/
lemma Holds.eq_of_ref (h : Holds L count live w) (hx : x ∈ live) (hy : y ∈ live)
    (href : x.ref = y.ref) : x = y := by
  refine h.eq_of_pact x hx y hy ?_
  have hp := (h.refers x hx).poolIndex_eq
  have ho := (h.refers x hx).offInPool_eq
  rw [href, (h.refers y hy).poolIndex_eq] at hp
  rw [href, (h.refers y hy).offInPool_eq] at ho
  cases hxp : x.pact
  cases hyp : y.pact
  simp_all

/-- No value has a raw reference. -/
lemma Holds.filter_raw (h : Holds L count live w) {ref : KVSRef} (hraw : Libraries.IsRaw ref) :
    (live.filter fun x => decide (x.ref ≠ ref)) = live := by
  rw [List.filter_eq_self]
  intro x hx
  refine decide_eq_true ?_
  rintro rfl
  exact (h.refers x hx).not_isRaw hraw

/-- A value is put aside. -/
lemma Holds.split (h : Holds L count live w) (hx : x ∈ live) :
    ∃ rest, w = insert (valueBlock L x) rest ∧ Elsewhere (L.valueObj x) rest ∧
      Holds L count (live.filter fun y => decide (y.ref ≠ x.ref)) rest := by
  have hmem : ∀ y, (y ∈ live.filter fun y => decide (y.ref ≠ x.ref)) ↔ y ∈ live ∧
      y.ref ≠ x.ref := by
    intro y
    rw [List.mem_filter, decide_eq_true_iff]
  refine ⟨valueBlock L '' {y | y ∈ live.filter fun y => decide (y.ref ≠ x.ref)}, ?_, ?_,
    ⟨fun y hy => h.refers y ((hmem y).mp hy).1,
      fun y hy z hz => h.eq_of_pact y ((hmem y).mp hy).1 z ((hmem z).mp hz).1⟩, rfl⟩
  · rw [h.owns_eq, ← Set.image_insert_eq]
    congr 1
    ext y
    rw [Set.mem_insert_iff, Set.mem_ofPred_eq, Set.mem_ofPred_eq, hmem]
    constructor
    · intro hy
      by_cases href : y.ref = x.ref
      · exact Or.inl (h.eq_of_ref hy hx href)
      · exact Or.inr ⟨hy, href⟩
    · rintro (rfl | ⟨hy, -⟩)
      · exact hx
      · exact hy
  · rintro _ ⟨y, hy, rfl⟩ hp ho
    obtain ⟨hy, hne⟩ := (hmem y).mp hy
    refine hne (congrArg StoredValue.ref (h.eq_of_pact y hy x hx ?_))
    cases hyp : y.pact
    cases hxp : x.pact
    simp_all [valueBlock, Libraries.valueObj]

/-- A new value. -/
lemma Holds.encoded (h : Holds L count live w) {value : Bytes} {compress : Bool} {ref : KVSRef}
    {pact : PobjAction} {w' : Set OwnedObj}
    (hnew : Encoded count w (Libraries.ptrEncoding compress)
      (L.payload compress value) ref pact w') :
    Holds L count (⟨ref, pact, value, compress, false⟩ :: live) w' := by
  obtain ⟨rfl, hlt, helse, rfl⟩ := hnew
  -- the new object is at a new place
  have hne : ∀ x ∈ live, x.pact ≠ pact := by
    rintro x hx rfl
    refine helse (valueBlock L x) ?_ rfl rfl
    rw [h.owns_eq]
    exact ⟨x, hx, rfl⟩
  refine ⟨⟨fun x hx => ?_, fun x hx y hy heq => ?_⟩, ?_⟩
  · rcases List.mem_cons.mp hx with rfl | hx
    · exact ⟨rfl, rfl, rfl, rfl, hlt⟩
    · exact h.refers x hx
  · rcases List.mem_cons.mp hx with rfl | hx
    · rcases List.mem_cons.mp hy with rfl | hy
      · rfl
      · exact absurd heq.symm (hne y hy)
    · rcases List.mem_cons.mp hy with rfl | hy
      · exact absurd heq (hne x hx)
      · exact h.eq_of_pact x hx y hy heq
  · rw [h.owns_eq]
    have hset : ∀ x₀ : StoredValue, {x | x ∈ x₀ :: live} = insert x₀ {x | x ∈ live} := by
      intro x₀
      ext x
      exact List.mem_cons
    rw [hset, Set.image_insert_eq]
    rfl

/-- Values are published. -/
lemma Holds.publish (h : Holds L count live w) (pacts : List PobjAction) :
    Holds L count (live.map fun x => if x.pact ∈ pacts then { x with published := true } else x)
      (publishOwned pacts w) := by
  -- only the flag changes
  have hpact : ∀ x : StoredValue,
      (if x.pact ∈ pacts then { x with published := true } else x).pact = x.pact := by
    intro x
    split <;> rfl
  refine ⟨⟨fun y hy => ?_, fun y hy z hz heq => ?_⟩, ?_⟩
  · obtain ⟨x, hx, rfl⟩ := List.mem_map.mp hy
    obtain ⟨h₁, h₂, h₃, h₄, h₅⟩ := h.refers x hx
    split <;> exact ⟨h₁, h₂, h₃, h₄, h₅⟩
  · obtain ⟨x, hx, rfl⟩ := List.mem_map.mp hy
    obtain ⟨x', hx', rfl⟩ := List.mem_map.mp hz
    rw [hpact, hpact] at heq
    rw [h.eq_of_pact x hx x' hx' heq]
  · rw [h.owns_eq]
    unfold publishOwned
    rw [Set.image_image]
    ext b
    simp only [Set.mem_image, Set.mem_ofPred_eq, List.mem_map, exists_exists_and_eq_and]
    refine exists_congr fun x => and_congr_right fun _ => ?_
    have hblock : valueBlock L (if x.pact ∈ pacts then { x with published := true } else x) =
        ⟨Libraries.publishIf (x.pact ∈ pacts) (L.valueObj x),
          Libraries.ptrEncoding x.compress :: L.payload x.compress x.value⟩ := by
      unfold Libraries.publishIf
      split <;> rfl
    rw [hblock]
    rfl

/-! ## Calls -/

/-- The objects of the values that a call does not give back. -/
def frameOf (L : Libraries) (live : List StoredValue) (request : KvsRequest) : Set OwnedObj :=
  valueBlock L '' {x | x ∈ live ∧ ¬request.GivesBack x.ref}

lemma Holds.keeps (h : Holds L count live w) (request : KvsRequest) :
    Keeps (frameOf L live request) w := by
  rw [h.owns_eq]
  exact keeps_of_subset (Set.image_mono fun _ hx => hx.1)

variable [DecidableEq T] {t : T}

variable {client : T → List KvsReply → Option KvsRequest} {start : T → List StoredValue}

/-- What a thread knows between two calls. -/
def Ready (L : Libraries) (count : ℕ) (client : List KvsReply → Option KvsRequest)
    (start : List StoredValue) (replies : List KvsReply) (_ : Unit) (w : Set OwnedObj) : Prop :=
  ∃ live, Explained L client start replies live ∧ Holds L count live w

/-- What a thread knows inside a call. -/
def During (L : Libraries) (count : ℕ) (client : List KvsReply → Option KvsRequest)
    (start : List StoredValue) (replies : List KvsReply) (request : KvsRequest) (w : Set OwnedObj) :
    Prop :=
  ∃ live, Explained L client start replies live ∧ Distinct L count live ∧
    Keeps (frameOf L live request) w

lemma Explained.nil {client : List KvsReply → Option KvsRequest} {start : List StoredValue}
    (h : Explained L client start [] live) : live = start := by
  generalize hnil : [] = replies at h
  cases h with
  | start => rfl
  | reply h hrequest hanswers => simp at hnil

lemma Explained.snoc {client : List KvsReply → Option KvsRequest} {start : List StoredValue}
    {replies : List KvsReply} {reply : KvsReply}
    (h : Explained L client start (replies ++ [reply]) live) :
    ∃ live' request, Explained L client start replies live' ∧ client replies = some request ∧
      live = liveAfter live' request reply := by
  generalize happ : replies ++ [reply] = replies' at h
  cases h with
  | start => simp at happ
  | reply h hrequest hanswers =>
    obtain ⟨rfl, hlast⟩ := List.append_inj' happ rfl
    cases hlast
    exact ⟨_, _, h, hrequest, rfl⟩

end Shared

end PmemKv
