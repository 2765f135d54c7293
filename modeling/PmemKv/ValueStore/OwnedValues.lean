import PmemKv.ValueStore.OwnedObjects

/-!
# Values that threads own

What each function of the value store does to the objects of the thread that runs it, whatever the
other threads do: `KVSEncodeValue` adds an object that holds the value, `KVSDecodeValueRef` reads
the value, `KVSPublish` publishes objects, and `KVSFreeValue` and `KVSDumpFromValueRef` remove one.
-/

namespace PmemKv

open AtomicProg AtomicProg.Prog PersistentMemory

namespace Shared

variable {T : Type} [DecidableEq T] {L : Libraries} {count e : ℕ} {t : T}
  {frame w rest : Set OwnedObj} {o : Obj} {bs : Bytes}

/-! ## Copying -/

/-- A thread has reserved an object. -/
def Reserved (count size : ℕ) (w : Set OwnedObj) (bs : Bytes) (i off : ℕ) (w' : Set OwnedObj) :
    Prop :=
  i < count ∧ Elsewhere ⟨i, off, size, false⟩ w ∧ w' = insert ⟨⟨i, off, size, false⟩, bs⟩ w

/-- A thread has stored bytes behind a header, and has a reference to them. -/
def Encoded (count : ℕ) (w : Set OwnedObj) (encoding : UInt8) (payload : Bytes) (ref : KVSRef)
    (pact : PobjAction) (w' : Set OwnedObj) : Prop :=
  ref = ⟨encoding, toUInt32 payload.length, pact.poolIndex, pact.off⟩ ∧
    Reserved count (1 + payload.length) w (encoding :: payload) pact.poolIndex pact.off w'

/-- The reference points to the object. -/
structure PointsTo (count : ℕ) (ref : KVSRef) (o : Obj) : Prop where
  /-- The pool is there. -/
  pool_lt : ref.poolIndex < count
  /-- The pool. -/
  pool_eq : ref.poolIndex = o.pool
  /-- The offset. -/
  off_eq : ref.offInPool = o.off

/-- The reservations are the thread's. -/
def OwnReservations (pacts : List PobjAction) (w : Set OwnedObj) : Prop :=
  ∀ pact ∈ pacts, ∃ b ∈ w, b.obj.pool = pact.poolIndex ∧ b.obj.off = pact.off

lemma OwnReservations.publishOwned {pacts : List PobjAction} (h : OwnReservations pacts w)
    (pacts' : List PobjAction) : OwnReservations pacts (publishOwned pacts' w) :=
  fun pact hpact => exists_mem_publishOwned (h pact hpact)

end Shared

end PmemKv
