import PmemKv.Library.Ownership
import PmemKv.ValueStore.Ledger
import PmemKv.ValueStore.SharedPools

/-!
# Objects that threads own

A thread owns the objects that it has reserved, each with the bytes it is known to begin with.  No
two threads own the same object, and objects do not overlap, so what a thread does to its objects
leaves those of the others as they are.  The rules here say what each access does to what the thread
owns; the static variables may change under its hands at any time.  Some of the objects are a frame:
the thread owns them as long as its call runs, and does no more to them than publish them.
-/

namespace PmemKv

open AtomicProg AtomicProg.Prog PersistentMemory

/-- An object that a thread owns. -/
structure OwnedObj where
  /-- The object. -/
  obj : Obj
  /-- The bytes that it is known to begin with. -/
  bytes : Bytes

/-- The object after it was published. -/
def OwnedObj.publish (b : OwnedObj) : OwnedObj := ⟨{ b.obj with published := true }, b.bytes⟩

/-- The objects of the frame are there; they may have been published. -/
def Keeps (frame w : Set OwnedObj) : Prop := ∀ b ∈ frame, b ∈ w ∨ b.publish ∈ w

lemma Keeps.insert {frame w : Set OwnedObj} (h : Keeps frame w) (b : OwnedObj) :
    Keeps frame (insert b w) :=
  fun b' hb' => (h b' hb').imp (Set.mem_insert_of_mem b) (Set.mem_insert_of_mem b)

lemma keeps_of_subset {frame w : Set OwnedObj} (h : frame ⊆ w) : Keeps frame w :=
  fun _ hb => Or.inl (h hb)

/-- The object is at another place than the objects of the set. -/
def Elsewhere (o : Obj) (rest : Set OwnedObj) : Prop :=
  ∀ b ∈ rest, b.obj.pool = o.pool → b.obj.off ≠ o.off

namespace Shared

variable {T : Type} {L : Libraries} {count e : ℕ}

/-- What the threads own while the pools are open for the `e`-th time. -/
structure Owns (L : Libraries) (count e : ℕ) (owned : T → Set OwnedObj) (s : KVSState) : Prop where
  /-- The pools are open. -/
  opened : L.Opened count s
  /-- They are open for the `e`-th time. -/
  opens_eq : s.opens = e
  /-- The objects do not overlap. -/
  objects : Libraries.Objects L count s.objects
  /-- What is owned is there. -/
  obj_mem : ∀ t, ∀ b ∈ owned t, b.obj ∈ s.objects
  /-- Every object is owned. -/
  covered : ∀ o ∈ s.objects, ∃ t, ∃ b ∈ owned t, b.obj = o
  /-- The known bytes are bytes of the object. -/
  length_le : ∀ t, ∀ b ∈ owned t, b.bytes.length ≤ b.obj.size
  /-- The object begins with them. -/
  bytes_eq : ∀ t, ∀ b ∈ owned t,
    read s.mem (Libraries.objAddr L e b.obj) b.bytes.length = b.bytes
  /-- No object is owned twice. -/
  own : ∀ t u, ∀ b ∈ owned t, ∀ b' ∈ owned u, b.obj.pool = b'.obj.pool → b.obj.off = b'.obj.off →
    t = u ∧ b = b'

variable {owned : T → Set OwnedObj} {s s' : KVSState} {t : T}
  {frame w rest : Set OwnedObj} {o : Obj}
  {bs : Bytes}

variable [DecidableEq T]

/-- What a thread owns changes, and what the others own stays. -/
lemma Owns.update (h : Owns L count e owned s) {w' : Set OwnedObj}
    (hopened : L.Opened count s') (hopens : s'.opens = s.opens)
    (hobjects : Libraries.Objects L count s'.objects)
    (hmem : ∀ u ≠ t, ∀ b ∈ owned u, b.obj ∈ s'.objects ∧
      read s'.mem (Libraries.objAddr L e b.obj) b.bytes.length = b.bytes)
    (hcovered : ∀ o ∈ s'.objects, (∃ b ∈ w', b.obj = o) ∨ ∃ u ≠ t, ∃ b ∈ owned u, b.obj = o)
    (hmine : ∀ b ∈ w', b.obj ∈ s'.objects ∧ b.bytes.length ≤ b.obj.size ∧
      read s'.mem (Libraries.objAddr L e b.obj) b.bytes.length = b.bytes)
    (hown : ∀ b ∈ w', ∀ b' ∈ w', b.obj.pool = b'.obj.pool → b.obj.off = b'.obj.off → b = b')
    (hothers : ∀ b ∈ w', ∀ u ≠ t, ∀ b' ∈ owned u, b'.obj.pool = b.obj.pool →
      b'.obj.off ≠ b.obj.off) :
    Owns L count e (Function.update owned t w') s' := by
  have hcases : ∀ u b, b ∈ Function.update owned t w' u → u = t ∧ b ∈ w' ∨ u ≠ t ∧ b ∈ owned u := by
    intro u b hb
    by_cases hut : u = t
    · subst hut
      rw [Function.update_self] at hb
      exact Or.inl ⟨rfl, hb⟩
    · rw [Function.update_of_ne hut] at hb
      exact Or.inr ⟨hut, hb⟩
  refine ⟨hopened, hopens.trans h.opens_eq, hobjects, fun u b hb => ?_, fun o ho => ?_,
    fun u b hb => ?_, fun u b hb => ?_, fun u v b hb b' hb' hp ho => ?_⟩
  · rcases hcases u b hb with ⟨-, hb⟩ | ⟨hut, hb⟩
    · exact (hmine b hb).1
    · exact (hmem u hut b hb).1
  · rcases hcovered o ho with ⟨b, hb, heq⟩ | ⟨u, hut, b, hb, heq⟩
    · exact ⟨t, b, by rwa [Function.update_self], heq⟩
    · exact ⟨u, b, by rwa [Function.update_of_ne hut], heq⟩
  · rcases hcases u b hb with ⟨-, hb⟩ | ⟨hut, hb⟩
    · exact (hmine b hb).2.1
    · exact h.length_le u b hb
  · rcases hcases u b hb with ⟨-, hb⟩ | ⟨hut, hb⟩
    · exact (hmine b hb).2.2
    · exact (hmem u hut b hb).2
  · rcases hcases u b hb with ⟨hut, hb₁⟩ | ⟨hut, hb₁⟩
    · rcases hcases v b' hb' with ⟨hvt, hb₁'⟩ | ⟨hvt, hb₁'⟩
      · exact ⟨hut.trans hvt.symm, hown b hb₁ b' hb₁' hp ho⟩
      · exact absurd ho.symm (hothers b hb₁ v hvt b' hb₁' hp.symm)
    · rcases hcases v b' hb' with ⟨hvt, hb₁'⟩ | ⟨hvt, hb₁'⟩
      · exact absurd ho (hothers b' hb₁' u hut b hb₁ hp)
      · exact h.own u v b hb₁ b' hb₁' hp ho

omit [DecidableEq T] in
/-- Objects at different places are apart. -/
lemma Owns.apart (h : Owns L count e owned s) {u : T} {b b' : OwnedObj} (hb : b ∈ owned t)
    (hb' : b' ∈ owned u) (hne : b.obj.pool = b'.obj.pool → b.obj.off ≠ b'.obj.off) :
    Libraries.Apart b.obj b'.obj := by
  refine h.objects.apart.forall (h.obj_mem t b hb) (h.obj_mem u b' hb') fun heq => ?_
  rw [heq] at hne
  exact hne rfl rfl

/-- What a thread owns after the objects of some reservations were published. -/
def publishOwned (pacts : List PobjAction) (w : Set OwnedObj) : Set OwnedObj :=
  (fun b => ⟨Libraries.publishIf (⟨b.obj.off, b.obj.pool⟩ ∈ pacts) b.obj, b.bytes⟩) '' w

/-- The place of an object stays when some are published. -/
lemma exists_mem_publishOwned {i off : ℕ} {pacts : List PobjAction}
    (h : ∃ b ∈ w, b.obj.pool = i ∧ b.obj.off = off) :
    ∃ b ∈ publishOwned pacts w, b.obj.pool = i ∧ b.obj.off = off := by
  obtain ⟨b, hb, rfl, rfl⟩ := h
  exact ⟨_, ⟨b, hb, rfl⟩, Libraries.publishIf_pool _ _, Libraries.publishIf_off _ _⟩

end Shared

end PmemKv
