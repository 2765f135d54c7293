import PmemKv.HandleTable.Table
import Mathlib.Data.List.Perm.Basic

/-!
# The clean-up functions of an iterator

The source functions of `Iterator` for the functions that its destructor has to call: the
constructor, `RegisterCleanup` and the destructor.  A field of a node holds an arbitrary value until
it is written, and a null function pointer is `none`.  The destructor returns its calls and
deletions, in order.

The destructor is right for every iterator whose nodes hold the registrations (`destroy_of_holds`),
but `RegisterCleanup` never writes a registration into a node.
-/

namespace PmemKv

/-- A function and its arguments, as they are passed to `RegisterCleanup`. -/
structure Registration (F A : Type) where
  /-- `func`. -/
  func : F
  /-- `arg1`. -/
  arg1 : A
  /-- `arg2`. -/
  arg2 : A
  deriving DecidableEq

/-- A `Cleanup`. -/
structure Cleanup (F A : Type) where
  /-- `function`. -/
  function : Option F
  /-- `arg1`. -/
  arg1 : A
  /-- `arg2`. -/
  arg2 : A
  /-- `next`. -/
  next : Option ℕ

/-- An `Iterator`, and the nodes on the heap. -/
structure Iterator (F A : Type) where
  /-- `cleanup_`. -/
  cleanup : Cleanup F A
  /-- The nodes. -/
  heap : ℕ → Cleanup F A
  /-- How many of them `new` has returned. -/
  allocated : ℕ

/-- What the destructor does. -/
inductive CleanupStep (F A : Type) : Type
  /-- A function is called. -/
  | call (reg : Registration F A)
  /-- A node is deleted. -/
  | delete (c : ℕ)
  deriving DecidableEq

variable {F A : Type}

/-- The constructor, in memory with arbitrary contents. -/
def Iterator.construct (memory : Cleanup F A) (heap : ℕ → Cleanup F A) : Iterator F A where
  cleanup := { memory with function := none, next := none }
  heap := heap
  allocated := 0

/-- `RegisterCleanup`. -/
def Iterator.registerCleanup (func : Option F) (_arg1 _arg2 : A) (it : Iterator F A) :
    Except Stop (Iterator F A) :=
  match func with
  | none => .error .fault
  | some _ =>
    match it.cleanup.function with
    -- `c = &cleanup_`
    | none => .ok it
    | some _ =>
      let c := it.allocated
      .ok {
        cleanup := { it.cleanup with next := some c }
        heap := Function.update it.heap c { it.heap c with next := it.cleanup.next }
        allocated := c + 1 }

/-- The loop of the destructor. -/
def destroyLoop (heap : ℕ → Cleanup F A) : ℕ → Option ℕ → Except Stop (List (CleanupStep F A))
  | _, none => .ok []
  | 0, some _ => .error .exhausted
  | fuel + 1, some c =>
    match (heap c).function with
    | none => .error .fault
    | some func => do
      let steps ← destroyLoop heap fuel (heap c).next
      pure (.call ⟨func, (heap c).arg1, (heap c).arg2⟩ :: .delete c :: steps)

/-- The destructor. -/
def Iterator.destroy (fuel : ℕ) (it : Iterator F A) : Except Stop (List (CleanupStep F A)) :=
  match it.cleanup.function with
  | none => .ok []
  | some func => do
    let steps ← destroyLoop it.heap fuel it.cleanup.next
    pure (.call ⟨func, it.cleanup.arg1, it.cleanup.arg2⟩ :: steps)

/-- A sequence of calls of `RegisterCleanup`. -/
def Iterator.registerAll : List (Registration F A) → Iterator F A → Except Stop (Iterator F A)
  | [], it => .ok it
  | reg :: regs, it => do
    let it ← it.registerCleanup (some reg.func) reg.arg1 reg.arg2
    Iterator.registerAll regs it

/-- The functions that are called. -/
def calledBy : List (CleanupStep F A) → List (Registration F A)
  | [] => []
  | .call reg :: steps => reg :: calledBy steps
  | .delete _ :: steps => calledBy steps

/-- The nodes that are deleted. -/
def deletedBy : List (CleanupStep F A) → List ℕ
  | [] => []
  | .call _ :: steps => deletedBy steps
  | .delete c :: steps => c :: deletedBy steps

/-! ## Iterators that hold their registrations -/

/-- A node holds a registration. -/
def Cleanup.Holds (c : Cleanup F A) (reg : Registration F A) : Prop :=
  c.function = some reg.func ∧ c.arg1 = reg.arg1 ∧ c.arg2 = reg.arg2

/-- The nodes from `c` on hold these registrations. -/
def NodesHold (heap : ℕ → Cleanup F A) : Option ℕ → List (ℕ × Registration F A) → Prop
  | c, [] => c = none
  | c, (a, reg) :: nodes => c = some a ∧ (heap a).Holds reg ∧ NodesHold heap (heap a).next nodes

/-- One registration is held by `cleanup_`, and the others by nodes on the heap. -/
structure Iterator.Holds (it : Iterator F A) (reg : Registration F A)
    (nodes : List (ℕ × Registration F A)) : Prop where
  /-- The first registration. -/
  cleanup : it.cleanup.Holds reg
  /-- The others. -/
  nodes : NodesHold it.heap it.cleanup.next nodes

variable {it : Iterator F A} {reg : Registration F A} {nodes : List (ℕ × Registration F A)}
  {fuel : ℕ}

lemma Cleanup.Holds.eq {c : Cleanup F A} (h : c.Holds reg) {func : F}
    (hfunc : c.function = some func) :
    (⟨func, c.arg1, c.arg2⟩ : Registration F A) = reg := by
  obtain ⟨h₁, h₂, h₃⟩ := h
  rw [hfunc] at h₁
  rw [Option.some.inj h₁, h₂, h₃]

/-- The loop calls the function of each node and deletes the node. -/
lemma destroyLoop_of_holds {heap : ℕ → Cleanup F A} {c : Option ℕ} (h : NodesHold heap c nodes)
    (hfuel : nodes.length ≤ fuel) : ∃ steps, destroyLoop heap fuel c = .ok steps ∧
      calledBy steps = nodes.map Prod.snd ∧ deletedBy steps = nodes.map Prod.fst := by
  induction nodes generalizing c fuel with
  | nil =>
    obtain rfl : c = none := h
    exact ⟨[], by rw [destroyLoop], rfl, rfl⟩
  | cons node nodes ih =>
    obtain ⟨a, reg⟩ := node
    obtain ⟨rfl, hreg, hnodes⟩ := h
    cases fuel with
    | zero => exact absurd hfuel (Nat.not_succ_le_zero _)
    | succ fuel =>
      obtain ⟨steps, hloop, hcalls, hdeletes⟩ := ih hnodes (Nat.le_of_succ_le_succ hfuel)
      refine ⟨.call reg :: .delete a :: steps, ?_, ?_, ?_⟩
      · rw [destroyLoop, hreg.1]
        simp only
        rw [hloop, ← hreg.eq hreg.1]
        rfl
      · exact congrArg (reg :: ·) hcalls
      · exact congrArg (a :: ·) hdeletes

/-- **The destructor** calls every function that the iterator holds once, with its arguments, and
deletes every node on the heap once. -/
theorem Iterator.destroy_of_holds (h : it.Holds reg nodes) (hfuel : nodes.length ≤ fuel) :
    ∃ steps, it.destroy fuel = .ok steps ∧ calledBy steps = reg :: nodes.map Prod.snd ∧
      deletedBy steps = nodes.map Prod.fst := by
  obtain ⟨steps, hloop, hcalls, hdeletes⟩ := destroyLoop_of_holds h.nodes hfuel
  refine ⟨.call reg :: steps, ?_, congrArg (reg :: ·) hcalls, hdeletes⟩
  unfold Iterator.destroy
  rw [h.cleanup.1]
  simp only
  rw [hloop, ← h.cleanup.eq h.cleanup.1]
  rfl

/-! ## What `RegisterCleanup` leaves -/

/-- No registration is ever stored, so an iterator without a function stays as it is. -/
lemma Iterator.registerAll_eq (h : it.cleanup.function = none) (regs : List (Registration F A)) :
    it.registerAll regs = .ok it := by
  induction regs with
  | nil => rfl
  | cons reg regs ih =>
    have hstep : it.registerCleanup (some reg.func) reg.arg1 reg.arg2 = .ok it := by
      unfold Iterator.registerCleanup
      rw [h]
    rw [Iterator.registerAll, hstep]
    exact ih

/-- Only an iterator that holds a function calls one. -/
lemma Iterator.destroy_of_none (h : it.cleanup.function = none) : it.destroy fuel = .ok [] := by
  unfold Iterator.destroy
  rw [h]

/-- **When the clean-up functions are called.**  The calls of the destructor are the registrations,
each once, and its deletions the nodes of `RegisterCleanup`, each once, if and only if nothing was
registered. -/
theorem cleanups_called_iff (memory : Cleanup F A) (heap : ℕ → Cleanup F A)
    (regs : List (Registration F A)) (fuel : ℕ) :
    ∃ it steps, (Iterator.construct memory heap).registerAll regs = .ok it ∧
      it.destroy fuel = .ok steps ∧
      ((calledBy steps).Perm regs ∧ (deletedBy steps).Perm (List.range it.allocated) ↔
        regs = []) := by
  have hnone : (Iterator.construct memory heap).cleanup.function = none := rfl
  refine ⟨_, [], Iterator.registerAll_eq hnone regs, Iterator.destroy_of_none hnone, ?_⟩
  constructor
  · rintro ⟨hcalls, -⟩
    exact List.nil_perm.mp hcalls
  · rintro rfl
    exact ⟨List.Perm.nil, List.Perm.nil⟩

/-- A function is registered, and not called. -/
theorem registered_not_called :
    ∃ it steps, (Iterator.construct ⟨none, 0, 0, none⟩ fun _ => ⟨none, 0, 0, none⟩).registerAll
        [(⟨7, 1, 2⟩ : Registration ℕ ℕ)] = .ok it ∧
      it.destroy 1 = .ok steps ∧
      ¬((calledBy steps).Perm [⟨7, 1, 2⟩] ∧ (deletedBy steps).Perm (List.range it.allocated)) := by
  refine ⟨_, [], rfl, rfl, ?_⟩
  rintro ⟨hcalls, -⟩
  exact absurd (List.nil_perm.mp hcalls) (List.cons_ne_nil _ _)

end PmemKv
