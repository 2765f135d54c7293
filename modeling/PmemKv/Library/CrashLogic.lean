import PmemKv.Library.AtomicProg

/-!
# Programs that can be interrupted

A program over atomic operations that runs alone can be stopped between any two of its operations,
for instance by a power failure.  `Prog.stateAfter` is the state it leaves behind, and
`Prog.Throughout` is the weakest precondition for a postcondition together with a condition on all
states in which the program can be stopped.
-/

namespace AtomicProg

namespace Prog

variable {Op : Type} {Ret : Op → Type} {α β σ : Type} (exec : (o : Op) → σ → Ret o × σ)

/-- The state after the first `j` operations of a program, or at its end if it has fewer. -/
def stateAfter : ℕ → Prog Op Ret α → σ → σ
  | 0, _, s => s
  | _ + 1, done _, s => s
  | _ + 1, fault, s => s
  | _ + 1, exhausted, s => s
  | j + 1, step o k, s => stateAfter j (k (exec o s).1) (exec o s).2

/-- What is left of a program after its first `j` operations. -/
def restAfter : ℕ → Prog Op Ret α → σ → Prog Op Ret α
  | 0, p, _ => p
  | _ + 1, done a, _ => done a
  | _ + 1, fault, _ => fault
  | _ + 1, exhausted, _ => exhausted
  | j + 1, step o k, s => restAfter j (k (exec o s).1) (exec o s).2

/-- The program returns from the state `s`, with a result and a state that satisfy `Q`, and `R`
holds in all states on the way. -/
def Throughout (R : σ → Prop) : Prog Op Ret α → σ → (α → σ → Prop) → Prop
  | done a, s, Q => R s ∧ Q a s
  | fault, _, _ => False
  | exhausted, _, _ => False
  | step o k, s, Q => R s ∧ Throughout R (k (exec o s).1) (exec o s).2 Q

variable {exec} {R R' : σ → Prop} {p : Prog Op Ret α} {f : α → Prog Op Ret β} {s : σ}

/-- A program that was stopped does what it would have done. -/
lemma run_restAfter (j : ℕ) (p : Prog Op Ret α) (s : σ) :
    run exec (restAfter exec j p s) (stateAfter exec j p s) = run exec p s := by
  induction j generalizing p s with
  | zero => rfl
  | succ j ih =>
    cases p with
    | done a => rfl
    | fault => rfl
    | exhausted => rfl
    | step o k => exact ih _ _

/-- One more operation. -/
lemma after_succ {j : ℕ} {o : Op} {k : Ret o → Prog Op Ret α}
    (h : restAfter exec j p s = step o k) :
    stateAfter exec (j + 1) p s = (exec o (stateAfter exec j p s)).2 ∧
      restAfter exec (j + 1) p s = k (exec o (stateAfter exec j p s)).1 := by
  induction j generalizing p s with
  | zero =>
    obtain rfl : p = step o k := h
    exact ⟨rfl, rfl⟩
  | succ j ih =>
    cases p with
    | done a => exact nomatch h
    | fault => exact nomatch h
    | exhausted => exact nomatch h
    | step o' k' => exact ih h

/-- A program that returns can be stopped at its end. -/
lemma exists_stateAfter {a : α} {s' : σ} (h : run exec p s = .done a s') :
    ∃ j, stateAfter exec j p s = s' := by
  induction p generalizing s with
  | done b =>
    cases h
    exact ⟨0, rfl⟩
  | fault => cases h
  | exhausted => cases h
  | step o k ih =>
    obtain ⟨j, hj⟩ := ih _ h
    exact ⟨j + 1, hj⟩

namespace Throughout

/-- The condition holds where the program starts. -/
lemma start {Q : α → σ → Prop} (h : Throughout exec R p s Q) : R s := by
  cases p with
  | done a => exact h.1
  | fault => exact h.elim
  | exhausted => exact h.elim
  | step o k => exact h.1

/-- The condition holds wherever the program is stopped. -/
theorem stateAfter {Q : α → σ → Prop} (h : Throughout exec R p s Q) (j : ℕ) :
    R (stateAfter exec j p s) := by
  induction j generalizing p s with
  | zero => exact h.start
  | succ j ih =>
    cases p with
    | done a => exact h.1
    | fault => exact h.elim
    | exhausted => exact h.elim
    | step o k => exact ih h.2

/-- The program returns. -/
lemma returns {Q : α → σ → Prop} (h : Throughout exec R p s Q) : Returns exec p s Q := by
  induction p generalizing s with
  | done a => exact h.2
  | fault => exact h
  | exhausted => exact h
  | step o k ih => exact ih _ h.2

/-- The rule of consequence. -/
lemma mono {Q Q' : α → σ → Prop} (h : Throughout exec R p s Q) (hR : ∀ s', R s' → R' s')
    (hQ : ∀ a s', R s' → Q a s' → Q' a s') : Throughout exec R' p s Q' := by
  induction p generalizing s with
  | done a => exact ⟨hR s h.1, hQ a s h.1 h.2⟩
  | fault => exact h
  | exhausted => exact h
  | step o k ih => exact ⟨hR s h.1, ih _ h.2⟩

/-- The rule of sequential composition. -/
lemma bind {Q : β → σ → Prop}
    (h : Throughout exec R p s fun a s' => Throughout exec R (f a) s' Q) :
    Throughout exec R (p >>= f) s Q := by
  induction p generalizing s with
  | done a => exact h.2
  | fault => exact h
  | exhausted => exact h
  | step o k ih => exact ⟨h.1, ih _ h.2⟩

/-- Composition after a program whose specification is known. -/
lemma bind_of {P : α → σ → Prop} {Q : β → σ → Prop} (h : Throughout exec R p s P)
    (hf : ∀ a s', R s' → P a s' → Throughout exec R (f a) s' Q) :
    Throughout exec R (p >>= f) s Q :=
  (h.mono (fun _ hR => hR) hf).bind

end Throughout

end Prog

end AtomicProg
