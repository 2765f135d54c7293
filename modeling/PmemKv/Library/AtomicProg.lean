import Mathlib.Data.Nat.Basic
import Mathlib.Order.Nat
import Mathlib.Tactic.Common

/-!
# Programs over atomic operations

A `Prog` is a program written as a tree of atomic operations: after each operation it continues
with what the operation answered.  The same program text is read in two ways.

* `Prog.run` runs it alone, from a state, with a deterministic reading of every operation.
  `Prog.Returns` is the corresponding weakest precondition: the program returns, without violating
  an assertion and within its fuel, and its result satisfies a postcondition.
* A `Config` runs one program per thread, interleaved at single operations whose effect is a
  relation.  `Prog.Safe` is the thread-local obligation of a rely-guarantee argument and
  `Config.safe_of_isRun` is its soundness: what every thread guarantees is what every other
  thread relies on, so all obligations hold along every run.

Loops of a program carry a fuel; `exhausted` is the artificial stop of a loop whose fuel ran out.
Safety statements hold for every fuel, so they cover every finite run of the unbounded loop.
-/

namespace AtomicProg

/-- A program over the operations `Op`, where the operation `o` answers a value of `Ret o`. -/
inductive Prog (Op : Type) (Ret : Op → Type) (α : Type) : Type
  /-- The program has returned. -/
  | done (a : α)
  /-- An assertion was violated or memory was accessed that is not there. -/
  | fault
  /-- The fuel of a loop ran out. -/
  | exhausted
  /-- Perform one operation and continue with its answer. -/
  | step (o : Op) (k : Ret o → Prog Op Ret α)

namespace Prog

variable {Op : Type} {Ret : Op → Type} {α β γ : Type}

/-- Sequential composition. -/
protected def bind : Prog Op Ret α → (α → Prog Op Ret β) → Prog Op Ret β
  | done a, f => f a
  | fault, _ => fault
  | exhausted, _ => exhausted
  | step o k, f => step o fun r => (k r).bind f

instance : Monad (Prog Op Ret) where
  pure := done
  bind := Prog.bind

/-- The program that performs one operation and returns its answer. -/
def perform (o : Op) : Prog Op Ret (Ret o) := step o done

/-- An assertion of the source. -/
def check (c : Bool) : Prog Op Ret Unit := if c then done () else fault

@[simp] lemma pure_eq_done (a : α) : (pure a : Prog Op Ret α) = done a := rfl

@[simp] lemma done_bind (a : α) (f : α → Prog Op Ret β) : (done a >>= f) = f a := rfl

@[simp] lemma step_bind (o : Op) (k : Ret o → Prog Op Ret α) (f : α → Prog Op Ret β) :
    (step o k >>= f) = step o fun r => k r >>= f := rfl

/-- An assertion that holds has no effect. -/
lemma check_bind_of {c : Bool} (h : c = true) (f : Unit → Prog Op Ret β) :
    (check c >>= f) = f () := by
  rw [h]
  rfl

/-- What is left of a program after an operation is another program. -/
lemma step_ne (o : Op) (k : Ret o → Prog Op Ret α) (r : Ret o) : k r ≠ .step o k := by
  suffices h : ∀ p : Prog Op Ret α, ∀ (o : Op) (k : Ret o → Prog Op Ret α) (r : Ret o),
      p = .step o k → k r ≠ p from h _ o k r rfl
  intro p
  induction p with
  | done a => exact fun _ _ _ h => nomatch h
  | fault => exact fun _ _ _ h => nomatch h
  | exhausted => exact fun _ _ _ h => nomatch h
  | step o k ih =>
    rintro _ _ r ⟨⟩ he
    exact ih r o k r he rfl

/-- A composition does not return before its first part does. -/
lemma bind_ne_done {p : Prog Op Ret α} (h : ∀ a, p ≠ done a) (f : α → Prog Op Ret β) (b : β) :
    (p >>= f) ≠ done b := by
  cases p with
  | done a => exact absurd rfl (h a)
  | fault => exact fun h => nomatch h
  | exhausted => exact fun h => nomatch h
  | step o k => exact fun h => nomatch h

/-- An assertion does not make a program return. -/
lemma check_bind_ne_done {p : Prog Op Ret β} (h : ∀ b, p ≠ done b) (c : Bool) (b : β) :
    (check c >>= fun _ => p) ≠ done b := by
  cases c with
  | true => exact h b
  | false => exact fun h => nomatch h

/-- Returning the result of a program changes nothing. -/
lemma bind_done (p : Prog Op Ret α) : p >>= done = p := by
  induction p with
  | done a => rfl
  | fault => rfl
  | exhausted => rfl
  | step o k ih =>
    rw [step_bind]
    congr 1
    funext r
    exact ih r

/-- Sequential composition is associative. -/
lemma bind_bind (p : Prog Op Ret α) (f : α → Prog Op Ret β) (g : β → Prog Op Ret γ) :
    (p >>= f) >>= g = p >>= fun a => f a >>= g := by
  induction p with
  | done a => rfl
  | fault => rfl
  | exhausted => rfl
  | step o k ih =>
    simp only [step_bind]
    congr 1
    funext r
    exact ih r

/-! ## Running a program alone -/

/-- What becomes of a program that runs alone. -/
inductive Outcome (α σ : Type) : Type
  /-- It returned the value `a` in the state `s`. -/
  | done (a : α) (s : σ)
  /-- It violated an assertion. -/
  | fault
  /-- It ran out of fuel. -/
  | exhausted
  deriving DecidableEq

section Sequential

variable {σ : Type} (exec : (o : Op) → σ → Ret o × σ)

/-- Run a program alone from the state `s`, each operation reading and updating the state
through `exec`. -/
def run : Prog Op Ret α → σ → Outcome α σ
  | done a, s => .done a s
  | fault, _ => .fault
  | exhausted, _ => .exhausted
  | step o k, s => run (k (exec o s).1) (exec o s).2

/-- The program returns from the state `s`, with a result and a state that satisfy `Q`. -/
def Returns : Prog Op Ret α → σ → (α → σ → Prop) → Prop
  | done a, s, Q => Q a s
  | fault, _, _ => False
  | exhausted, _, _ => False
  | step o k, s, Q => Returns (k (exec o s).1) (exec o s).2 Q

variable {exec}

@[simp] lemma returns_done {a : α} {s : σ} {Q : α → σ → Prop} :
    Returns exec (done a) s Q ↔ Q a s := Iff.rfl

@[simp] lemma returns_fault {s : σ} {Q : α → σ → Prop} :
    Returns exec (fault : Prog Op Ret α) s Q ↔ False := Iff.rfl

@[simp] lemma returns_step {o : Op} {k : Ret o → Prog Op Ret α} {s : σ} {Q : α → σ → Prop} :
    Returns exec (step o k) s Q ↔ Returns exec (k (exec o s).1) (exec o s).2 Q := Iff.rfl

/-- `Returns` is the weakest precondition of `run`. -/
lemma returns_iff_run {p : Prog Op Ret α} {s : σ} {Q : α → σ → Prop} :
    Returns exec p s Q ↔ ∃ a s', run exec p s = .done a s' ∧ Q a s' := by
  induction p generalizing s with
  | done a =>
    constructor
    · exact fun h => ⟨a, s, rfl, h⟩
    · rintro ⟨a', s', h, hQ⟩
      cases h
      exact hQ
  | fault => simp [Returns, run]
  | exhausted => simp [Returns, run]
  | step o k ih =>
    simp only [Returns, run]
    exact ih _

/-- A program that only reads the state and returns `a`. -/
lemma Returns.run_eq {p : Prog Op Ret α} {s : σ} {a : α}
    (h : Returns exec p s fun b s' => s' = s ∧ b = a) : run exec p s = .done a s := by
  obtain ⟨b, s', hrun, rfl, rfl⟩ := returns_iff_run.mp h
  exact hrun

/-- Running a composition of which the first part returns. -/
lemma run_bind_of {p : Prog Op Ret α} {f : α → Prog Op Ret β} {s s' : σ} {a : α}
    (h : run exec p s = .done a s') : run exec (p >>= f) s = run exec (f a) s' := by
  induction p generalizing s with
  | done b =>
    cases h
    rfl
  | fault => exact nomatch h
  | exhausted => exact nomatch h
  | step o k ih => exact ih _ h

/-- Running an operation. -/
lemma run_perform_bind (o : Op) (f : Ret o → Prog Op Ret β) (s : σ) :
    run exec (perform o >>= f) s = run exec (f (exec o s).1) (exec o s).2 := rfl

/-- Running a composition. -/
lemma run_bind (p : Prog Op Ret α) (f : α → Prog Op Ret β) (s : σ) :
    run exec (p >>= f) s =
      match run exec p s with
      | .done a s' => run exec (f a) s'
      | .fault => .fault
      | .exhausted => .exhausted := by
  induction p generalizing s with
  | done a => rfl
  | fault => rfl
  | exhausted => rfl
  | step o k ih => exact ih _ _

/-- The rule of sequential composition. -/
lemma Returns.bind {p : Prog Op Ret α} {f : α → Prog Op Ret β} {s : σ} {Q : β → σ → Prop}
    (h : Returns exec p s fun a s' => Returns exec (f a) s' Q) :
    Returns exec (p >>= f) s Q := by
  induction p generalizing s with
  | done a => exact h
  | fault => exact h
  | exhausted => exact h
  | step o k ih => exact ih _ h

/-- The rule of consequence. -/
lemma Returns.mono {p : Prog Op Ret α} {s : σ} {Q Q' : α → σ → Prop}
    (h : Returns exec p s Q) (hQ : ∀ a s', Q a s' → Q' a s') : Returns exec p s Q' := by
  induction p generalizing s with
  | done a => exact hQ _ _ h
  | fault => exact h
  | exhausted => exact h
  | step o k ih => exact ih _ h

/-- Composition after a program whose specification is known. -/
lemma Returns.bind_of {p : Prog Op Ret α} {f : α → Prog Op Ret β} {s : σ} {P : α → σ → Prop}
    {Q : β → σ → Prop} (h : Returns exec p s P)
    (hf : ∀ a s', P a s' → Returns exec (f a) s' Q) : Returns exec (p >>= f) s Q :=
  (h.mono hf).bind

/-- The program comes to an end within its fuel: it violates an assertion, or it returns with a
result and a state that satisfy `Q`. -/
def Ends (exec : (o : Op) → σ → Ret o × σ) : Prog Op Ret α → σ → (α → σ → Prop) → Prop
  | done a, s, Q => Q a s
  | fault, _, _ => True
  | exhausted, _, _ => False
  | step o k, s, Q => Ends exec (k (exec o s).1) (exec o s).2 Q

@[simp] lemma ends_done {a : α} {s : σ} {Q : α → σ → Prop} : Ends exec (done a) s Q ↔ Q a s :=
  Iff.rfl

/-- What `Ends` says about `run`. -/
lemma ends_iff_run {p : Prog Op Ret α} {s : σ} {Q : α → σ → Prop} :
    Ends exec p s Q ↔ run exec p s = .fault ∨ ∃ a s', run exec p s = .done a s' ∧ Q a s' := by
  induction p generalizing s with
  | done a =>
    constructor
    · exact fun h => Or.inr ⟨a, s, rfl, h⟩
    · rintro (h | ⟨a', s', h, hQ⟩)
      · exact nomatch h
      · cases h
        exact hQ
  | fault => simp [Ends, run]
  | exhausted => simp [Ends, run]
  | step o k ih => exact ih _

/-- The rule of sequential composition. -/
lemma Ends.bind_of {p : Prog Op Ret α} {f : α → Prog Op Ret β} {s : σ} {P : α → σ → Prop}
    {Q : β → σ → Prop} (h : Ends exec p s P)
    (hf : ∀ a s', P a s' → Ends exec (f a) s' Q) : Ends exec (p >>= f) s Q := by
  induction p generalizing s with
  | done a => exact hf a s h
  | fault => trivial
  | exhausted => exact h
  | step o k ih => exact ih _ h

/-- The rule of consequence. -/
lemma Ends.mono {p : Prog Op Ret α} {s : σ} {Q Q' : α → σ → Prop} (h : Ends exec p s Q)
    (hQ : ∀ a s', Q a s' → Q' a s') : Ends exec p s Q' := by
  induction p generalizing s with
  | done a => exact hQ _ _ h
  | fault => trivial
  | exhausted => exact h
  | step o k ih => exact ih _ h

/-- The rule of assertions. -/
lemma ends_check_bind {c : Bool} {f : Unit → Prog Op Ret β} {s : σ} {Q : β → σ → Prop}
    (h : c = true → Ends exec (f ()) s Q) : Ends exec (check c >>= f) s Q := by
  cases c with
  | true => exact h rfl
  | false => trivial

end Sequential

/-! ## Programs that stop at a violated assertion -/

/-- The program that stops where `p` violates an assertion. -/
def haltOnFault : Prog Op Ret α → Prog Op Ret α
  | done a => done a
  | fault => exhausted
  | exhausted => exhausted
  | step o k => step o fun r => (k r).haltOnFault

lemma haltOnFault_bind (p : Prog Op Ret α) (f : α → Prog Op Ret β) :
    (p >>= f).haltOnFault = p.haltOnFault >>= fun a => (f a).haltOnFault := by
  induction p with
  | done a => rfl
  | fault => rfl
  | exhausted => rfl
  | step o k ih =>
    simp only [step_bind, haltOnFault]
    congr 1
    funext r
    exact ih r

/-- A program that returns does so without the assertions. -/
lemma run_haltOnFault {σ : Type} {exec : (o : Op) → σ → Ret o × σ} {p : Prog Op Ret α} {s s' : σ}
    {a : α} (h : run exec p s = .done a s') : run exec p.haltOnFault s = .done a s' := by
  induction p generalizing s with
  | done b => exact h
  | fault => exact nomatch h
  | exhausted => exact nomatch h
  | step o k ih => exact ih _ h

/-! ## The operations of a run -/

section Trace

variable {σ : Type} (exec : (o : Op) → σ → Ret o × σ)

/-- The operations that the program performs when it runs alone from the state `s`. -/
def trace : Prog Op Ret α → σ → List Op
  | done _, _ => []
  | fault, _ => []
  | exhausted, _ => []
  | step o k, s => o :: trace (k (exec o s).1) (exec o s).2

variable {exec} {p : Prog Op Ret α} {f : α → Prog Op Ret β} {s : σ}

/-- An assertion performs no operation. -/
@[simp] lemma trace_check (c : Bool) : trace exec (check c : Prog Op Ret Unit) s = [] := by
  cases c <;> rfl

/-- A composition that returns consists of two parts that return. -/
lemma run_bind_eq_done {b : β} {s'' : σ} (h : run exec (p >>= f) s = .done b s'') :
    ∃ a s', run exec p s = .done a s' ∧ run exec (f a) s' = .done b s'' := by
  induction p generalizing s with
  | done a => exact ⟨a, s, rfl, h⟩
  | fault => exact nomatch h
  | exhausted => exact nomatch h
  | step o k ih => exact ih _ h

/-- The operations of a composition of which the first part returns. -/
lemma trace_bind_of {a : α} {s' : σ} (h : run exec p s = .done a s') :
    trace exec (p >>= f) s = trace exec p s ++ trace exec (f a) s' := by
  induction p generalizing s with
  | done b =>
    cases h
    rfl
  | fault => exact nomatch h
  | exhausted => exact nomatch h
  | step o k ih => exact congrArg (o :: ·) (ih _ h)

/-- Every operation of a composition belongs to one of its parts. -/
lemma forall_mem_trace_bind {P : Op → Prop} (hp : ∀ o ∈ trace exec p s, P o)
    (hf : ∀ a s', run exec p s = .done a s' → ∀ o ∈ trace exec (f a) s', P o) :
    ∀ o ∈ trace exec (p >>= f) s, P o := by
  induction p generalizing s with
  | done a => exact hf a s rfl
  | fault => exact hp
  | exhausted => exact hp
  | step o k ih =>
    intro o' ho'
    rcases List.mem_cons.mp ho' with rfl | ho'
    · exact hp _ List.mem_cons_self
    · exact ih _ (fun o ho => hp o (List.mem_cons_of_mem _ ho)) hf o' ho'

end Trace

/-! ## Programs with further assertions -/

/-- The first program is the second one with further assertions. -/
inductive Stricter : Prog Op Ret α → Prog Op Ret α → Prop
  /-- An assertion may be violated at any point. -/
  | fault (q : Prog Op Ret α) : Stricter fault q
  /-- Both return the same value. -/
  | done (a : α) : Stricter (done a) (done a)
  /-- Both run out of fuel. -/
  | exhausted : Stricter exhausted exhausted
  /-- Both perform the same operation. -/
  | step (o : Op) (k k' : Ret o → Prog Op Ret α) (h : ∀ r, Stricter (k r) (k' r)) :
    Stricter (step o k) (step o k')

namespace Stricter

variable {p q : Prog Op Ret α} {f g : α → Prog Op Ret β}

lemma refl (p : Prog Op Ret α) : Stricter p p := by
  induction p with
  | done a => exact .done a
  | fault => exact .fault _
  | exhausted => exact .exhausted
  | step o k ih => exact .step o k k ih

/-- The rule of sequential composition. -/
lemma bind (h : Stricter p q) (hf : ∀ a, Stricter (f a) (g a)) : Stricter (p >>= f) (q >>= g) := by
  induction h with
  | fault q => exact .fault _
  | done a => exact hf a
  | exhausted => exact .exhausted
  | step o k k' _ ih => exact .step o _ _ ih

/-- The rule of assertions. -/
lemma check {c c' : Bool} (h : c = true → c' = true) :
    Stricter (check c : Prog Op Ret Unit) (Prog.check c') := by
  cases c with
  | true =>
    rw [h rfl]
    exact refl _
  | false => exact .fault _

/-- If the first program returns, the second one does the same. -/
lemma run_eq_done {σ : Type} {exec : (o : Op) → σ → Ret o × σ} {s s' : σ} {a : α}
    (h : Stricter p q) (hrun : run exec p s = .done a s') : run exec q s = .done a s' := by
  induction h generalizing s with
  | fault q => exact nomatch hrun
  | done a => exact hrun
  | exhausted => exact nomatch hrun
  | step o k k' _ ih => exact ih _ hrun

end Stricter

/-! ## The obligation of one thread -/

section RelyGuarantee

variable {σ : Type} (Exec : (o : Op) → σ → Ret o → σ → Prop) (Inv : σ → Prop)
  (Rely Guar : σ → σ → Prop)

/-- The obligation of a thread that runs the program from the state `s`, its own last state.
Before each of its operations the other threads move the state along `Rely`; the operation then
keeps the invariant, moves along `Guar`, and leaves the rest of the program safe.  The
postcondition `Q` is about the instant at which the program returns. -/
def Safe (Q : α → σ → Prop) : Prog Op Ret α → σ → Prop
  | done a, s => Q a s
  | fault, _ => False
  | exhausted, _ => True
  | step o k, s => ∀ s₁, Rely s s₁ → Inv s₁ → ∀ r s₂, Exec o s₁ r s₂ →
      Inv s₂ ∧ Guar s₁ s₂ ∧ Safe Q (k r) s₂

variable {Exec Inv Rely Guar}

@[simp] lemma safe_done {a : α} {s : σ} {Q : α → σ → Prop} :
    Safe Exec Inv Rely Guar Q (done a) s ↔ Q a s := Iff.rfl

@[simp] lemma safe_exhausted {s : σ} {Q : α → σ → Prop} :
    Safe Exec Inv Rely Guar Q (exhausted : Prog Op Ret α) s := trivial

/-- The rule of sequential composition. -/
lemma Safe.bind {p : Prog Op Ret α} {f : α → Prog Op Ret β} {s : σ} {Q : β → σ → Prop}
    (h : Safe Exec Inv Rely Guar (fun a s' => Safe Exec Inv Rely Guar Q (f a) s') p s) :
    Safe Exec Inv Rely Guar Q (p >>= f) s := by
  induction p generalizing s with
  | done a => exact h
  | fault => exact h
  | exhausted => trivial
  | step o k ih =>
    intro s₁ hR hI r s₂ he
    obtain ⟨hI₂, hG, hs⟩ := h s₁ hR hI r s₂ he
    exact ⟨hI₂, hG, ih r hs⟩

/-- The rule of consequence. -/
lemma Safe.mono {p : Prog Op Ret α} {s : σ} {Q Q' : α → σ → Prop}
    (h : Safe Exec Inv Rely Guar Q p s) (hQ : ∀ a s', Q a s' → Q' a s') :
    Safe Exec Inv Rely Guar Q' p s := by
  induction p generalizing s with
  | done a => exact hQ _ _ h
  | fault => exact h
  | exhausted => trivial
  | step o k ih =>
    intro s₁ hR hI r s₂ he
    obtain ⟨hI₂, hG, hs⟩ := h s₁ hR hI r s₂ he
    exact ⟨hI₂, hG, ih r hs⟩

/-- A thread may guarantee less. -/
lemma Safe.mono_guar {Guar' : σ → σ → Prop} {p : Prog Op Ret α} {s : σ} {Q : α → σ → Prop}
    (h : Safe Exec Inv Rely Guar Q p s)
    (hG : ∀ s s', Guar s s' → Guar' s s') : Safe Exec Inv Rely Guar' Q p s := by
  induction p generalizing s with
  | done a => exact h
  | fault => exact h
  | exhausted => trivial
  | step o k ih =>
    intro s₁ hR hI r s₂ he
    obtain ⟨hI₂, hG₂, hs⟩ := h s₁ hR hI r s₂ he
    exact ⟨hI₂, hG _ _ hG₂, ih r hs⟩

/-- When a program returns, the memory has moved along every preorder that covers what the others do
and what the program itself guarantees. -/
lemma Safe.track {R : σ → σ → Prop} {p : Prog Op Ret α} {s : σ} {Q : α → σ → Prop}
    (h : Safe Exec Inv Rely Guar Q p s) (hrefl : ∀ s, R s s)
    (htrans : ∀ s₁ s₂ s₃, R s₁ s₂ → R s₂ s₃ → R s₁ s₃) (hR : ∀ s s', Rely s s' → R s s')
    (hG : ∀ s s', Guar s s' → R s s') :
    Safe Exec Inv Rely Guar (fun a s' => Q a s' ∧ R s s') p s := by
  suffices hs : ∀ s₀, R s₀ s → Safe Exec Inv Rely Guar (fun a s' => Q a s' ∧ R s₀ s') p s from
    hs s (hrefl s)
  intro s₀ h₀
  induction p generalizing s with
  | done a => exact ⟨h, h₀⟩
  | fault => exact h
  | exhausted => trivial
  | step o k ih =>
    intro s₁ hR₁ hI r s₂ he
    obtain ⟨hI₂, hG₂, hs⟩ := h s₁ hR₁ hI r s₂ he
    exact ⟨hI₂, hG₂, ih r hs (htrans _ _ _ (htrans _ _ _ h₀ (hR _ _ hR₁)) (hG _ _ hG₂))⟩

/-- Composition after a program whose specification is known. -/
lemma Safe.bind_of {p : Prog Op Ret α} {f : α → Prog Op Ret β} {s : σ} {P : α → σ → Prop}
    {Q : β → σ → Prop} (h : Safe Exec Inv Rely Guar P p s)
    (hf : ∀ a s', P a s' → Safe Exec Inv Rely Guar Q (f a) s') :
    Safe Exec Inv Rely Guar Q (p >>= f) s :=
  (h.mono hf).bind

/-- A program without its assertions is as safe as with them. -/
lemma Safe.haltOnFault {p : Prog Op Ret α} {s : σ} {Q : α → σ → Prop}
    (h : Safe Exec Inv Rely Guar Q p s) : Safe Exec Inv Rely Guar Q p.haltOnFault s := by
  induction p generalizing s with
  | done a => exact h
  | fault => trivial
  | exhausted => trivial
  | step o k ih =>
    intro s₁ hR hI r s₂ he
    obtain ⟨hI₂, hG, hs⟩ := h s₁ hR hI r s₂ he
    exact ⟨hI₂, hG, ih r hs⟩

/-- The two readings of a program: if its obligation as a thread holds and the other threads may do
nothing, then running it alone moves the state along its guarantee to its postcondition. -/
theorem Safe.of_run {τ : Type} (mem : τ → σ) {exec : (o : Op) → τ → Ret o × τ}
    {p : Prog Op Ret α} {s s' : τ} {a : α} {Q : α → σ → Prop}
    (h : Safe Exec Inv Rely Guar Q p (mem s)) (hI : Inv (mem s)) (hR : ∀ s, Rely s s)
    (hG : ∀ s, Guar s s) (htrans : ∀ s₁ s₂ s₃, Guar s₁ s₂ → Guar s₂ s₃ → Guar s₁ s₃)
    (hexec : ∀ o s, Exec o (mem s) (exec o s).1 (mem (exec o s).2))
    (hrun : run exec p s = .done a s') : Guar (mem s) (mem s') ∧ Q a (mem s') := by
  induction p generalizing s with
  | done b =>
    cases hrun
    exact ⟨hG _, h⟩
  | fault => exact nomatch hrun
  | exhausted => exact nomatch hrun
  | step o k ih =>
    obtain ⟨hI₁, hG₁, hs⟩ := h (mem s) (hR _) hI _ _ (hexec o s)
    obtain ⟨hG₂, hQ⟩ := ih _ hs hI₁ hrun
    exact ⟨htrans _ _ _ hG₁ hG₂, hQ⟩

end RelyGuarantee

end Prog

/-! ## Threads -/

open Prog

variable {T Op : Type} {Ret : Op → Type} {α : T → Type} {σ : Type}

/-- One program per thread over a shared state; the thread `t` returns an `α t`. -/
structure Config (T Op : Type) (Ret : Op → Type) (α : T → Type) (σ : Type) where
  /-- What is left of each thread's program. -/
  prog : (t : T) → Prog Op Ret (α t)
  /-- The shared state. -/
  mem : σ

section Runs

variable [DecidableEq T] (Exec : (o : Op) → σ → Ret o → σ → Prop)

/-- One thread performs its next operation. -/
def Config.StepBy (t : T) (c c' : Config T Op Ret α σ) : Prop :=
  ∃ o k r, c.prog t = .step o k ∧ Exec o c.mem r c'.mem ∧
    c'.prog = Function.update c.prog t (k r)

/-- `c 0, …, c n` is a run: each configuration comes from the one before by an operation of some
thread. -/
def Config.IsRun (c : ℕ → Config T Op Ret α σ) (n : ℕ) : Prop :=
  ∀ j < n, ∃ t, Config.StepBy Exec t (c j) (c (j + 1))

variable {Exec}

/-- The same run, with every thread but those to be kept stopping where it would violate an
assertion. -/
lemma Config.IsRun.haltOnFault {c : ℕ → Config T Op Ret α σ} {n : ℕ} (h : Config.IsRun Exec c n)
    (keep : T → Bool) :
    Config.IsRun Exec
      (fun j => ⟨fun t => bif keep t then (c j).prog t else ((c j).prog t).haltOnFault, (c j).mem⟩)
      n := by
  intro j hj
  obtain ⟨t, o, k, r, hp, he, hp'⟩ := h j hj
  refine ⟨t, o, fun r => bif keep t then k r else (k r).haltOnFault, r, ?_, he, ?_⟩
  · change (bif keep t then (c j).prog t else ((c j).prog t).haltOnFault) = _
    rw [hp]
    cases keep t with
    | true => rfl
    | false => rfl
  · funext u
    change (bif keep u then (c (j + 1)).prog u else ((c (j + 1)).prog u).haltOnFault) = _
    rw [hp']
    by_cases hut : u = t
    · subst hut
      rw [Function.update_self, Function.update_self]
    · rw [Function.update_of_ne hut, Function.update_of_ne hut]

variable {Inv : σ → Prop} {Rely Guar : T → σ → σ → Prop} {Q : (t : T) → α t → σ → Prop}

/-- A step of another thread leaves a thread's program alone. -/
lemma Config.StepBy.prog_of_ne {t u : T} {c c' : Config T Op Ret α σ}
    (h : Config.StepBy Exec t c c') (hne : u ≠ t) : c'.prog u = c.prog u := by
  obtain ⟨o, k, r, -, -, hp⟩ := h
  rw [hp, Function.update_of_ne hne]

/-- What holds of thread `t` at the point `j` of a run: its program has not moved since some
earlier point `i`, where its obligation held, and from there the state moved along its rely. -/
def Config.SafeAt (Exec : (o : Op) → σ → Ret o → σ → Prop) (Inv : σ → Prop)
    (Rely Guar : T → σ → σ → Prop) (Q : (t : T) → α t → σ → Prop)
    (c : ℕ → Config T Op Ret α σ) (j : ℕ)
    (t : T) : Prop :=
  ∃ i ≤ j, (∀ l, i ≤ l → l ≤ j → (c l).prog t = (c j).prog t) ∧
    Rely t (c i).mem (c j).mem ∧
    Safe Exec Inv (Rely t) (Guar t) (Q t) ((c j).prog t) (c i).mem

/-- A step of thread `t` from a point where its obligation holds keeps the invariant, moves along
its guarantee and leaves the rest of its program safe. -/
lemma Config.StepBy.safe {t : T} {c : ℕ → Config T Op Ret α σ} {j : ℕ}
    (h : Config.StepBy Exec t (c j) (c (j + 1))) (hI : Inv (c j).mem)
    (hs : Config.SafeAt Exec Inv Rely Guar Q c j t) :
    Inv (c (j + 1)).mem ∧ Guar t (c j).mem (c (j + 1)).mem ∧
      Safe Exec Inv (Rely t) (Guar t) (Q t) ((c (j + 1)).prog t) (c (j + 1)).mem := by
  obtain ⟨o, k, r, hp, he, hp'⟩ := h
  obtain ⟨i, -, -, hR, hsafe⟩ := hs
  rw [hp] at hsafe
  rw [hp', Function.update_self]
  exact hsafe _ hR hI r _ he

/-- **Soundness of the rely-guarantee obligations.**  If at the first configuration the invariant
and every thread's obligation hold, then along every run the invariant holds, every step moves
along the guarantee of its thread, and every thread's obligation holds. -/
theorem Config.safe_of_isRun {c : ℕ → Config T Op Ret α σ} {n : ℕ}
    (hrun : Config.IsRun Exec c n)
    (hrefl : ∀ t s, Rely t s s)
    (htrans : ∀ t s₁ s₂ s₃, Rely t s₁ s₂ → Rely t s₂ s₃ → Rely t s₁ s₃)
    (hG : ∀ t u, u ≠ t → ∀ s s', Inv s → Guar t s s' → Rely u s s')
    (hI : Inv (c 0).mem)
    (hsafe : ∀ t, Safe Exec Inv (Rely t) (Guar t) (Q t) ((c 0).prog t) (c 0).mem) :
    ∀ j ≤ n, Inv (c j).mem ∧ (∀ t, Config.SafeAt Exec Inv Rely Guar Q c j t) ∧
      ∀ i < j, ∃ t, Guar t (c i).mem (c (i + 1)).mem := by
  intro j
  induction j with
  | zero =>
    refine fun _ => ⟨hI, fun t => ⟨0, le_rfl, ?_, hrefl t _, hsafe t⟩, ?_⟩
    · intro l _ hl
      rw [Nat.le_zero.mp hl]
    · exact fun i hi => absurd hi (Nat.not_lt_zero i)
  | succ j ih =>
    intro hj
    obtain ⟨hIj, hSj, hGj⟩ := ih (Nat.le_of_succ_le hj)
    obtain ⟨t, hstep⟩ := hrun j hj
    obtain ⟨hI', hG', hS'⟩ := hstep.safe hIj (hSj t)
    refine ⟨hI', fun u => ?_, fun i hi => ?_⟩
    · by_cases hut : u = t
      · subst hut
        refine ⟨j + 1, le_rfl, fun l h1 h2 => ?_, hrefl u _, hS'⟩
        rw [le_antisymm h2 h1]
      · -- another thread moved: the obligation of `u` stays where it was
        obtain ⟨i, hi, hsame, hR, hs⟩ := hSj u
        have hprog : (c (j + 1)).prog u = (c j).prog u := hstep.prog_of_ne hut
        refine ⟨i, Nat.le_succ_of_le hi, fun l h1 h2 => ?_,
          htrans u _ _ _ hR (hG t u hut _ _ hIj hG'), ?_⟩
        · rcases Nat.le_succ_iff.mp h2 with h | h
          · rw [hsame l h1 h, hprog]
          · rw [h]
        · rwa [hprog]
    · rcases Nat.lt_succ_iff_lt_or_eq.mp hi with h | h
      · exact hGj i h
      · exact ⟨t, h ▸ hG'⟩

omit [DecidableEq T] in
/-- A returned thread's postcondition held at some instant of the run from which on the thread had
returned, and from there the state moved along its rely. -/
theorem Config.SafeAt.exists_of_done {c : ℕ → Config T Op Ret α σ} {n : ℕ} {t : T} {a : α t}
    (h : Config.SafeAt Exec Inv Rely Guar Q c n t) (hdone : (c n).prog t = .done a) :
    ∃ i ≤ n, (∀ l, i ≤ l → l ≤ n → (c l).prog t = .done a) ∧ Q t a (c i).mem ∧
      Rely t (c i).mem (c n).mem := by
  obtain ⟨i, hin, hsame, hR, hs⟩ := h
  rw [hdone] at hs hsame
  exact ⟨i, hin, hsame, hs, hR⟩

omit [DecidableEq T] in
/-- If the thread had not returned at the point `m`, that instant is later. -/
theorem Config.SafeAt.of_done {c : ℕ → Config T Op Ret α σ} {m n : ℕ} {t : T} {a : α t}
    (h : Config.SafeAt Exec Inv Rely Guar Q c n t) (hmn : m ≤ n)
    (hdone : (c n).prog t = .done a) (hm : (c m).prog t ≠ .done a) :
    ∃ i, m ≤ i ∧ i ≤ n ∧ Q t a (c i).mem ∧ Rely t (c i).mem (c n).mem := by
  obtain ⟨i, hin, hsame, hQ, hR⟩ := h.exists_of_done hdone
  refine ⟨i, ?_, hin, hQ, hR⟩
  by_contra hlt
  exact hm (hsame m (Nat.le_of_not_le hlt) hmn)

omit [DecidableEq T] in
/-- A thread whose obligation holds has not violated an assertion. -/
theorem Config.SafeAt.ne_fault {c : ℕ → Config T Op Ret α σ} {n : ℕ} {t : T}
    (h : Config.SafeAt Exec Inv Rely Guar Q c n t) : (c n).prog t ≠ .fault := by
  obtain ⟨i, -, -, -, hs⟩ := h
  intro hf
  rw [hf] at hs
  exact hs

/-! ### Runs that follow a schedule -/

section Schedule

variable (exec : (o : Op) → σ → Ret o × σ)

/-- Thread `t` performs its next operation, if it has one, as `exec` says. -/
def Config.advance (t : T) (c : Config T Op Ret α σ) : Config T Op Ret α σ :=
  match c.prog t with
  | .step o k => ⟨Function.update c.prog t (k (exec o c.mem).1), (exec o c.mem).2⟩
  | _ => c

/-- Thread `t` has a next operation. -/
def Config.canStep (t : T) (c : Config T Op Ret α σ) : Bool :=
  match c.prog t with
  | .step _ _ => true
  | _ => false

/-- The configurations along a schedule. -/
def Config.follow (sched : ℕ → T) (c : Config T Op Ret α σ) : ℕ → Config T Op Ret α σ
  | 0 => c
  | n + 1 => (follow sched c n).advance exec (sched n)

/-- Following a schedule is a run as long as the scheduled threads have something to do. -/
lemma Config.isRun_follow (hexec : ∀ o s, Exec o s (exec o s).1 (exec o s).2) {sched : ℕ → T}
    {c : Config T Op Ret α σ} {n : ℕ}
    (h : ∀ j < n, (Config.follow exec sched c j).canStep (sched j) = true) :
    Config.IsRun Exec (Config.follow exec sched c) n := by
  intro j hj
  refine ⟨sched j, ?_⟩
  have hcan := h j hj
  rw [Config.follow, Config.advance]
  rw [Config.canStep] at hcan
  cases hp : (Config.follow exec sched c j).prog (sched j) with
  | step o k => exact ⟨o, k, _, hp, hexec o _, rfl⟩
  | done a => simp [hp] at hcan
  | fault => simp [hp] at hcan
  | exhausted => simp [hp] at hcan

/-- Thread `t` has a next operation, and it is possible. -/
def Config.hasStep (possible : Op → σ → Bool) (t : T) (c : Config T Op Ret α σ) : Bool :=
  match c.prog t with
  | .step o _ => possible o c.mem
  | _ => false

/-- Following a schedule is a run as long as the next operations of the scheduled threads are
possible. -/
lemma Config.isRun_follow_of {possible : Op → σ → Bool}
    (hexec : ∀ o s, possible o s = true → Exec o s (exec o s).1 (exec o s).2) {sched : ℕ → T}
    {c : Config T Op Ret α σ} {n : ℕ}
    (h : ∀ j < n, (Config.follow exec sched c j).hasStep possible (sched j) = true) :
    Config.IsRun Exec (Config.follow exec sched c) n := by
  intro j hj
  refine ⟨sched j, ?_⟩
  have hstep := h j hj
  rw [Config.follow, Config.advance]
  rw [Config.hasStep] at hstep
  cases hp : (Config.follow exec sched c j).prog (sched j) with
  | step o k =>
    rw [hp] at hstep
    exact ⟨o, k, _, hp, hexec o _ hstep, rfl⟩
  | done a => simp [hp] at hstep
  | fault => simp [hp] at hstep
  | exhausted => simp [hp] at hstep

end Schedule

end Runs

end AtomicProg
