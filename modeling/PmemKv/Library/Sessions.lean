import PmemKv.Library.AtomicProg

/-!
# Threads that make one call after another

A client chooses its next call from the replies that it has received so far.  A `session` is the
program of a thread that runs the calls of its client one after another, with a local state that
only this thread sees.

The history of a thread in a run is the list of its calls: each `CallRecord` says at which point of
the run the call began, and at which point and with which reply it returned, if it has.
`exists_histories` obtains the histories of a run from rely-guarantee obligations about single
calls: the postcondition of every call that returned holds at the point of its return, and every
step of a call moves along the guarantee of this call.
-/

namespace AtomicProg

open Prog

variable {T Op : Type} {Ret : Op → Type} {α β σ : Type}

/-! ## One thread along a run -/

section Thread

variable [DecidableEq T] {α : T → Type} {Exec : (o : Op) → σ → Ret o → σ → Prop} {t u : T}
  {c : ℕ → Config T Op Ret α σ} {b i n : ℕ}

/-- A step is a step of one thread only. -/
lemma Config.StepBy.unique {c c' : Config T Op Ret α σ} (h : Config.StepBy Exec t c c')
    (h' : Config.StepBy Exec u c c') : t = u := by
  by_contra hne
  obtain ⟨o, k, r, hp, -, -⟩ := id h
  have hsame := h'.prog_of_ne hne
  obtain ⟨o', k', r', hp', -, hupd⟩ := h
  rw [hupd, Function.update_self, hp'] at hsame
  exact Prog.step_ne o' k' r' hsame

/-- The thread `t` performs no operation between the points `b` and `i`. -/
def Config.IdleBetween (Exec : (o : Op) → σ → Ret o → σ → Prop)
    (c : ℕ → Config T Op Ret α σ) (t : T)
    (b i : ℕ) : Prop :=
  ∀ j, b ≤ j → j < i → ¬Config.StepBy Exec t (c j) (c (j + 1))

/-- An idle thread's program stays. -/
lemma Config.IsRun.prog_eq_of_idle (hrun : Config.IsRun Exec c n)
    (h : Config.IdleBetween Exec c t b i) (hi : i ≤ n) {j : ℕ} (hbj : b ≤ j) (hji : j ≤ i) :
    (c j).prog t = (c b).prog t := by
  induction j, hbj using Nat.le_induction with
  | base => rfl
  | succ j hbj ih =>
    obtain ⟨u, hu⟩ := hrun j (by omega)
    have hne : t ≠ u := by
      rintro rfl
      exact h j hbj (by omega) hu
    rw [hu.prog_of_ne hne]
    exact ih (by omega)

/-- A thread that has returned stays so. -/
lemma Config.IsRun.done_of_le (hrun : Config.IsRun Exec c n) {a : α t} (h : (c b).prog t = done a)
    {j : ℕ} (hbj : b ≤ j) (hj : j ≤ n) : (c j).prog t = done a := by
  induction j, hbj using Nat.le_induction with
  | base => exact h
  | succ j hbj ih =>
    obtain ⟨u, hu⟩ := hrun j hj
    have hne : t ≠ u := by
      rintro rfl
      obtain ⟨o, k, r, hp, -, -⟩ := hu
      rw [ih (Nat.le_of_succ_le hj)] at hp
      exact nomatch hp
    rw [hu.prog_of_ne hne]
    exact ih (Nat.le_of_succ_le hj)

/-- From any point on, a thread stays idle or there is a first operation that it performs. -/
lemma Config.idle_or_first_step (c : ℕ → Config T Op Ret α σ) (t : T) (b n : ℕ) :
    Config.IdleBetween Exec c t b n ∨ ∃ i, b ≤ i ∧ i < n ∧
      Config.StepBy Exec t (c i) (c (i + 1)) ∧ Config.IdleBetween Exec c t b i := by
  induction n with
  | zero => exact Or.inl fun j _ hj => absurd hj (Nat.not_lt_zero j)
  | succ n ih =>
    rcases ih with hidle | ⟨i, hbi, hin, hstep, hidle⟩
    · by_cases h : b ≤ n ∧ Config.StepBy Exec t (c n) (c (n + 1))
      · exact Or.inr ⟨n, h.1, Nat.lt_succ_self n, h.2, hidle⟩
      · refine Or.inl fun j hbj hj hstep => ?_
        rcases Nat.lt_succ_iff_lt_or_eq.mp hj with hlt | rfl
        · exact hidle j hbj hlt hstep
        · exact h ⟨hbj, hstep⟩
    · exact Or.inr ⟨i, hbi, Nat.lt_succ_of_lt hin, hstep, hidle⟩

/-- Every operation that `t` performs between the points `b` and `e` moves the memory along `G`. -/
def Config.MovesAlong (Exec : (o : Op) → σ → Ret o → σ → Prop) (c : ℕ → Config T Op Ret α σ) (t : T)
    (G : σ → σ → Prop) (b e : ℕ) : Prop :=
  ∀ j, b ≤ j → j < e → Config.StepBy Exec t (c j) (c (j + 1)) → G (c j).mem (c (j + 1)).mem

/-- From the point `b` to the point `e` the thread `t` executes a part of its program; `P j` is what
is left of this part at the point `j`, and `f` is the rest of the program. -/
structure Config.Executes (Exec : (o : Op) → σ → Ret o → σ → Prop) (c : ℕ → Config T Op Ret α σ)
    (t : T) {β : Type} (f : β → Prog Op Ret (α t)) (P : ℕ → Prog Op Ret β) (b e : ℕ) : Prop where
  /-- The part is followed by the rest. -/
  prog_eq : ∀ j, b ≤ j → j ≤ e → (c j).prog t = P j >>= f
  /-- Other threads leave the part as it is. -/
  idle : ∀ j, b ≤ j → j < e → ¬Config.StepBy Exec t (c j) (c (j + 1)) → P (j + 1) = P j
  /-- The operations of the thread are operations of the part. -/
  step : ∀ j, b ≤ j → j < e → Config.StepBy Exec t (c j) (c (j + 1)) →
    ∃ o k r, P j = .step o k ∧ Exec o (c j).mem r (c (j + 1)).mem ∧ P (j + 1) = k r

/-- What is left after the last point does not matter. -/
lemma Config.Executes.congr {β : Type} {f : β → Prog Op Ret (α t)} {P P' : ℕ → Prog Op Ret β}
    {e : ℕ} (h : Config.Executes Exec c t f P b e) (hP : ∀ j ≤ e, P' j = P j) :
    Config.Executes Exec c t f P' b e where
  prog_eq j hbj hje := by rw [hP j hje, h.prog_eq j hbj hje]
  idle j hbj hje hstep := by rw [hP _ hje, hP j hje.le, h.idle j hbj hje hstep]
  step j hbj hje hstep := by
    rw [hP _ hje, hP j hje.le]
    exact h.step j hbj hje hstep

/-- One point more. -/
lemma Config.Executes.succ {β : Type} {f : β → Prog Op Ret (α t)} {P : ℕ → Prog Op Ret β} {e : ℕ}
    (h : Config.Executes Exec c t f P b e) {p : Prog Op Ret β}
    (hprog : (c (e + 1)).prog t = p >>= f)
    (hidle : ¬Config.StepBy Exec t (c e) (c (e + 1)) → p = P e)
    (hstep : Config.StepBy Exec t (c e) (c (e + 1)) →
      ∃ o k r, P e = .step o k ∧ Exec o (c e).mem r (c (e + 1)).mem ∧ p = k r) :
    Config.Executes Exec c t f (Function.update P (e + 1) p) b (e + 1) := by
  have hP : ∀ j ≤ e, Function.update P (e + 1) p j = P j := fun j hj => by
    rw [Function.update_of_ne (by omega)]
  have h' := h.congr hP
  refine ⟨fun j hbj hje => ?_, fun j hbj hje hno => ?_, fun j hbj hje hyes => ?_⟩
  · rcases Nat.le_succ_iff.mp hje with hje | rfl
    · exact h'.prog_eq j hbj hje
    · rw [Function.update_self, hprog]
  · rcases Nat.lt_succ_iff_lt_or_eq.mp hje with hje | rfl
    · exact h'.idle j hbj hje hno
    · rw [Function.update_self, hP _ le_rfl, hidle hno]
  · rcases Nat.lt_succ_iff_lt_or_eq.mp hje with hje | rfl
    · exact h'.step j hbj hje hyes
    · rw [Function.update_self, hP _ le_rfl]
      exact hstep hyes

/-- A part of a thread's program either is still running at the point `n` or has returned at some
point in between. -/
theorem Config.IsRun.exists_executes (hrun : Config.IsRun Exec c n) {β : Type} {p : Prog Op Ret β}
    {f : β → Prog Op Ret (α t)} (hb : b ≤ n) (hp : (c b).prog t = p >>= f) :
    ∃ P, P b = p ∧
      ((Config.Executes Exec c t f P b n ∧ ∀ a, P n ≠ done a) ∨
        ∃ e a, b ≤ e ∧ e ≤ n ∧ Config.Executes Exec c t f P b e ∧ P e = done a ∧
          (p = done a ∧ e = b ∨ b < e ∧ Config.StepBy Exec t (c (e - 1)) (c e))) := by
  induction n, hb using Nat.le_induction with
  | base =>
    have hex : Config.Executes Exec c t f (fun _ => p) b b :=
      ⟨fun j hbj hjb => by rw [le_antisymm hjb hbj, hp], fun j hbj hjb => absurd hjb (by omega),
        fun j hbj hjb => absurd hjb (by omega)⟩
    by_cases hdone : ∃ a, p = done a
    · obtain ⟨a, rfl⟩ := hdone
      exact ⟨_, rfl, Or.inr ⟨b, a, le_rfl, le_rfl, hex, rfl, Or.inl ⟨rfl, rfl⟩⟩⟩
    · exact ⟨_, rfl, Or.inl ⟨hex, fun a ha => hdone ⟨a, ha⟩⟩⟩
  | succ n hb ih =>
    obtain ⟨P, hP, ⟨hex, hne⟩ | ⟨e, a, hbe, hen, hex, ha, hlast⟩⟩ :=
      ih fun j hj => hrun j (Nat.lt_succ_of_lt hj)
    · have hprog := hex.prog_eq n hb le_rfl
      have hPb : ∀ q, Function.update P (n + 1) q b = p := fun q => by
        rw [Function.update_of_ne (by omega), hP]
      obtain ⟨u, hu⟩ := hrun n (Nat.lt_succ_self n)
      by_cases hut : u = t
      · -- the thread moves: the part had an operation to perform
        subst hut
        obtain ⟨o, k, r, hk, he, hprog'⟩ := id hu
        rw [hprog] at hk
        cases hPn : P n with
        | done a => exact absurd hPn (hne a)
        | fault =>
          rw [hPn] at hk
          exact nomatch hk
        | exhausted =>
          rw [hPn] at hk
          exact nomatch hk
        | step o' k' =>
          rw [hPn, step_bind] at hk
          cases hk
          have hnext := congrFun hprog' u
          rw [Function.update_self] at hnext
          have hex' := hex.succ hnext (fun hno => absurd hu hno) fun _ => ⟨o, k', r, hPn, he, rfl⟩
          by_cases hdone : ∃ a, k' r = done a
          · obtain ⟨a, ha⟩ := hdone
            exact ⟨_, hPb _, Or.inr ⟨n + 1, a, by omega, le_rfl, hex',
              by rw [Function.update_self, ha],
              Or.inr ⟨by omega, hu⟩⟩⟩
          · refine ⟨_, hPb _, Or.inl ⟨hex', fun a ha => hdone ⟨a, ?_⟩⟩⟩
            rwa [Function.update_self] at ha
      · have hex' := hex.succ ((hu.prog_of_ne (Ne.symm hut)).trans hprog) (fun _ => rfl)
          fun hyes => absurd (hu.unique hyes) hut
        refine ⟨_, hPb _, Or.inl ⟨hex', fun a ha => hne a ?_⟩⟩
        rwa [Function.update_self] at ha
    · exact ⟨P, hP, Or.inr ⟨e, a, hbe, Nat.le_succ_of_le hen, hex, ha, hlast⟩⟩

/-- A point of a run at which the operations of the other threads may be relied on. -/
structure Config.Surrounds (Exec : (o : Op) → σ → Ret o → σ → Prop) (Inv : σ → Prop)
    (Rely : σ → σ → Prop) (c : ℕ → Config T Op Ret α σ) (t : T) (n : ℕ) : Prop where
  /-- The configurations are a run. -/
  isRun : Config.IsRun Exec c n
  /-- The invariant holds along the run. -/
  inv : ∀ j ≤ n, Inv (c j).mem
  /-- The other threads move the memory along the rely. -/
  rely : ∀ j < n, ∀ u ≠ t, Config.StepBy Exec u (c j) (c (j + 1)) → Rely (c j).mem (c (j + 1)).mem

variable {Inv : σ → Prop} {Rely Guar : σ → σ → Prop} (hrefl : ∀ s, Rely s s)
  (htrans : ∀ s₁ s₂ s₃, Rely s₁ s₂ → Rely s₂ s₃ → Rely s₁ s₃)

include hrefl htrans

/-- While a thread is idle, the memory moves along its rely. -/
lemma Config.Surrounds.rely_of_idle (h : Config.Surrounds Exec Inv Rely c t n)
    (hidle : Config.IdleBetween Exec c t b i) (hbi : b ≤ i) (hi : i ≤ n) :
    Rely (c b).mem (c i).mem := by
  induction i, hbi using Nat.le_induction with
  | base => exact hrefl _
  | succ i hbi ih =>
    obtain ⟨u, hu⟩ := h.isRun i (by omega)
    have hne : u ≠ t := by
      rintro rfl
      exact hidle i hbi (Nat.lt_succ_self i) hu
    exact htrans _ _ _ (ih (fun j hj hji => hidle j hj (by omega)) (by omega))
      (h.rely i (by omega) u hne hu)

/-- What holds of a program and a memory at the point `b` and is kept by the operations of the
thread, whatever the other threads do in between, holds at every later point of what is left of the
program and the memory after the last operation of the thread. -/
theorem Config.Surrounds.induct_executes {β : Type} {f : β → Prog Op Ret (α t)}
    {P : ℕ → Prog Op Ret β} {e : ℕ} {R : ℕ → Prog Op Ret β → σ → Prop}
    (h : Config.Surrounds Exec Inv Rely c t n) (hbe : b ≤ e) (hen : e ≤ n)
    (hex : Config.Executes Exec c t f P b e) (hstart : R b (P b) (c b).mem)
    (hidle : ∀ j p s, R j p s → ¬Config.StepBy Exec t (c j) (c (j + 1)) → R (j + 1) p s)
    (hstep : ∀ j o k s r, R j (.step o k) s → Config.StepBy Exec t (c j) (c (j + 1)) →
      b ≤ j → j < e →
      Rely s (c j).mem → Inv (c j).mem → Exec o (c j).mem r (c (j + 1)).mem →
      R (j + 1) (k r) (c (j + 1)).mem) :
    ∃ i, b ≤ i ∧ i ≤ e ∧ Config.IdleBetween Exec c t i e ∧ R e (P e) (c i).mem := by
  induction e, hbe using Nat.le_induction with
  | base => exact ⟨b, le_rfl, le_rfl, fun j h₁ h₂ => absurd h₂ (by omega), hstart⟩
  | succ e hbe ih =>
    have hex' : Config.Executes Exec c t f P b e :=
      ⟨fun j hbj hje => hex.prog_eq j hbj (by omega), fun j hbj hje => hex.idle j hbj (by omega),
        fun j hbj hje => hex.step j hbj (by omega)⟩
    obtain ⟨i, hbi, hie, hi, hR⟩ := ih (by omega) hex' fun j o k s r hj hs h₁ h₂ =>
      hstep j o k s r hj hs h₁ (by omega)
    by_cases hyes : Config.StepBy Exec t (c e) (c (e + 1))
    · obtain ⟨o, k, r, hPe, he, hPe'⟩ := hex.step e hbe (Nat.lt_succ_self e) hyes
      rw [hPe] at hR
      refine ⟨e + 1, by omega, le_rfl, fun j h₁ h₂ => absurd h₂ (by omega), ?_⟩
      rw [hPe']
      exact hstep e o k _ r hR hyes hbe (Nat.lt_succ_self e)
        (h.rely_of_idle hrefl htrans hi hie (by omega)) (h.inv e (by omega)) he
    · refine ⟨i, hbi, by omega, fun j h₁ h₂ => ?_, ?_⟩
      · rcases Nat.lt_succ_iff_lt_or_eq.mp h₂ with hlt | rfl
        · exact hi j h₁ hlt
        · exact hyes
      · rw [hex.idle e hbe (Nat.lt_succ_self e) hyes]
        exact hidle e _ _ hR hyes

/-- What is left of a safe part of a thread's program is safe, and the operations of the part move
the memory along its guarantee. -/
theorem Config.Surrounds.safe_of_executes {β : Type} {f : β → Prog Op Ret (α t)}
    {P : ℕ → Prog Op Ret β} {Q : β → σ → Prop} {e : ℕ} (h : Config.Surrounds Exec Inv Rely c t n)
    (hbe : b ≤ e) (hen : e ≤ n) (hex : Config.Executes Exec c t f P b e)
    (hs : Safe Exec Inv Rely Guar Q (P b) (c b).mem) :
    Config.MovesAlong Exec c t Guar b e ∧
      ∃ i, b ≤ i ∧ i ≤ e ∧ Config.IdleBetween Exec c t i e ∧
        Safe Exec Inv Rely Guar Q (P e) (c i).mem := by
  obtain ⟨i, hbi, hie, hidle, hmoves, hsafe⟩ := h.induct_executes hrefl htrans hbe hen hex
    (R := fun j p s => Config.MovesAlong Exec c t Guar b j ∧ Safe Exec Inv Rely Guar Q p s)
    ⟨fun j h₁ h₂ => absurd h₂ (by omega), hs⟩
    (fun j p s ⟨hm, hs⟩ hno => ⟨fun l h₁ h₂ hl => by
      rcases Nat.lt_succ_iff_lt_or_eq.mp h₂ with hlt | rfl
      · exact hm l h₁ hlt hl
      · exact absurd hl hno, hs⟩)
    (fun j o k s r ⟨hm, hs⟩ _ _ _ hR hI he => by
      obtain ⟨-, hG, hs'⟩ := hs _ hR hI r _ he
      refine ⟨fun l h₁ h₂ hl => ?_, hs'⟩
      rcases Nat.lt_succ_iff_lt_or_eq.mp h₂ with hlt | rfl
      · exact hm l h₁ hlt hl
      · exact hG)
  exact ⟨hmoves, i, hbi, hie, hidle, hsafe⟩

/-- A part `p` of a thread's program that is safe at the point `b` either is still running at the
point `n`, or has returned at some point in between, where its postcondition holds. -/
theorem Config.Surrounds.split_bind {β : Type} {p : Prog Op Ret β} {f : β → Prog Op Ret (α t)}
    {Q : β → σ → Prop} (h : Config.Surrounds Exec Inv Rely c t n) (hb : b ≤ n)
    (hp : (c b).prog t = p >>= f) (hs : Safe Exec Inv Rely Guar Q p (c b).mem) :
    ∃ P, P b = p ∧
      ((Config.Executes Exec c t f P b n ∧ (∀ a, P n ≠ done a) ∧
          Config.MovesAlong Exec c t Guar b n) ∨
        ∃ e a, b ≤ e ∧ e ≤ n ∧ Config.Executes Exec c t f P b e ∧ P e = done a ∧ Q a (c e).mem ∧
          Config.MovesAlong Exec c t Guar b e ∧
          (p = done a ∧ e = b ∨ b < e ∧ Config.StepBy Exec t (c (e - 1)) (c e))) := by
  obtain ⟨P, rfl, ⟨hex, hne⟩ | ⟨e, a, hbe, hen, hex, ha, hlast⟩⟩ := h.isRun.exists_executes hb hp
  · exact ⟨P, rfl, Or.inl ⟨hex, hne, (h.safe_of_executes hrefl htrans hb le_rfl hex hs).1⟩⟩
  · obtain ⟨hmoves, i, hbi, hie, hidle, hsafe⟩ := h.safe_of_executes hrefl htrans hbe hen hex hs
    rw [ha] at hsafe
    refine ⟨P, rfl, Or.inr ⟨e, a, hbe, hen, hex, ha, ?_, hmoves, hlast⟩⟩
    -- the thread has not been idle since it returned
    obtain rfl : i = e := by
      rcases hlast with ⟨-, rfl⟩ | ⟨hlt, hstep⟩
      · exact le_antisymm hie hbi
      · by_contra hne
        obtain ⟨e, rfl⟩ : ∃ e', e = e' + 1 := ⟨e - 1, by omega⟩
        exact hidle e (by omega) (Nat.lt_succ_self e) hstep
    exact hsafe

/-- A thread that runs a safe program `p` from the point `b` on and has returned at the point `n`
returned at some point in between, where the postcondition holds. -/
theorem Config.Surrounds.exists_of_done {p : Prog Op Ret (α t)} {Q : α t → σ → Prop} {a : α t}
    (h : Config.Surrounds Exec Inv Rely c t n) (hb : b ≤ n) (hp : (c b).prog t = p)
    (hs : Safe Exec Inv Rely Guar Q p (c b).mem) (hdone : (c n).prog t = done a) :
    ∃ e, b ≤ e ∧ e ≤ n ∧ Q a (c e).mem := by
  obtain ⟨P, -, ⟨hex, hne, -⟩ | ⟨e, a', hbe, hen, hex, ha, hQ, -⟩⟩ :=
    h.split_bind hrefl htrans hb (hp.trans (bind_done p).symm) hs
  · have hpn := hex.prog_eq n hb le_rfl
    rw [bind_done, hdone] at hpn
    exact absurd hpn.symm (hne a)
  · have hpe := hex.prog_eq e hbe le_rfl
    rw [ha, done_bind] at hpe
    rw [h.isRun.done_of_le hpe hen le_rfl] at hdone
    cases hdone
    exact ⟨e, hbe, hen, hQ⟩

end Thread

/-! ## Sessions -/

section Sessions

variable {Call Reply Local : Type}

/-- The program of a thread that runs the calls of its client one after another; a call is a program
over the local state.  `replies` are the replies so far, and `rounds` bounds the number of calls. -/
def session (prog : Call → Local → Prog Op Ret (Reply × Local))
    (client : List Reply → Option Call) : ℕ → Local → List Reply → Prog Op Ret (List Reply)
  | 0, _, _ => exhausted
  | rounds + 1, l, replies =>
    match client replies with
    | none => done replies
    | some call => do
      let r ← prog call l
      session prog client rounds r.2 (replies ++ [r.1])

/-- A call in a run: it performs its first operation at the point `inv`, and from the point `e` on
it has returned with the reply `r` if `ret` is `some (e, r)`. -/
structure CallRecord (Call Reply : Type) where
  /-- The call. -/
  call : Call
  /-- The point at which its first operation is performed. -/
  inv : ℕ
  /-- The point from which on it has returned, and its reply. -/
  ret : Option (ℕ × Reply)

/-- The point at which the call has returned, or the end of the run. -/
def CallRecord.finish (n : ℕ) (rec : CallRecord Call Reply) : ℕ := (rec.ret.map Prod.fst).getD n

variable [DecidableEq T] (Exec : (o : Op) → σ → Ret o → σ → Prop)
  (prog : Call → Local → Prog Op Ret (Reply × Local)) (client : List Reply → Option Call)
  (c : ℕ → Config T Op Ret (fun _ => List Reply) σ) (n : ℕ) (t : T)

/-- The calls of the thread `t` up to the point `n`, from a point `b` at which it is between two
calls. -/
inductive IsHistory : ℕ → ℕ → Local → List Reply → List (CallRecord Call Reply) → Prop
  /-- The thread stays between two calls. -/
  | idle {b rounds : ℕ} {l : Local} {replies : List Reply}
    (hwait : ∀ j, b ≤ j → j ≤ n → (c j).prog t = session prog client rounds l replies) :
    IsHistory b rounds l replies []
  /-- A call begins at the point `i` and has not returned at the point `n`. -/
  | pending {b i rounds : ℕ} {l : Local} {replies : List Reply} {call : Call}
    (hcall : client replies = some call) (hbi : b ≤ i) (hin : i < n)
    (hwait : ∀ j, b ≤ j → j ≤ i → (c j).prog t = session prog client (rounds + 1) l replies)
    (hfirst : Config.StepBy Exec t (c i) (c (i + 1)))
    (hrest : ∃ p : Prog Op Ret (Reply × Local), (∀ r, p ≠ done r) ∧
      (c n).prog t = p >>= fun r => session prog client rounds r.2 (replies ++ [r.1])) :
    IsHistory b (rounds + 1) l replies [⟨call, i, none⟩]
  /-- A call begins at the point `i` and has returned at the point `e`. -/
  | returned {b i e rounds : ℕ} {l l' : Local} {replies : List Reply} {call : Call} {r : Reply}
    {hist : List (CallRecord Call Reply)}
    (hcall : client replies = some call) (hbi : b ≤ i) (hie : i < e) (hen : e ≤ n)
    (hwait : ∀ j, b ≤ j → j ≤ i → (c j).prog t = session prog client (rounds + 1) l replies)
    (hfirst : Config.StepBy Exec t (c i) (c (i + 1)))
    (hlast : Config.StepBy Exec t (c (e - 1)) (c e))
    (hnext : IsHistory e rounds l' (replies ++ [r]) hist) :
    IsHistory b (rounds + 1) l replies (⟨call, i, some (e, r)⟩ :: hist)

/-- What the obligations of the calls say about a history: the precondition of a call holds when it
begins, every step of it moves along its guarantee, and its postcondition holds when it returns. -/
def Meets (Pre : Call → σ → Prop) (Guar : Call → σ → σ → Prop) (Spec : Call → Reply → σ → Prop)
    (hist : List (CallRecord Call Reply)) : Prop :=
  ∀ rec ∈ hist, Pre rec.call (c rec.inv).mem ∧
    Config.MovesAlong Exec c t (Guar rec.call) rec.inv (rec.finish n) ∧
    ∀ e r, rec.ret = some (e, r) → Spec rec.call r (c e).mem

/-- Every call of a history begins when the thread is ready for it, and up to its return the thread
executes its program. -/
def Performs (Ready : List Reply → Local → σ → Prop) (hist : List (CallRecord Call Reply)) : Prop :=
  ∀ rec ∈ hist, ∃ replies l f P, client replies = some rec.call ∧
    Ready replies l (c rec.inv).mem ∧ P rec.inv = prog rec.call l ∧
    Config.Executes Exec c t f P rec.inv (rec.finish n)

variable {Exec prog client c n t}

namespace IsHistory

variable {b rounds : ℕ} {l : Local} {replies : List Reply} {hist : List (CallRecord Call Reply)}

/-- A call lies between the start of the history and the point `n`. -/
lemma bounds (h : IsHistory Exec prog client c n t b rounds l replies hist)
    {rec : CallRecord Call Reply} (hrec : rec ∈ hist) :
    b ≤ rec.inv ∧ rec.inv < rec.finish n ∧ rec.finish n ≤ n := by
  induction h with
  | idle => exact absurd hrec List.not_mem_nil
  | pending _ hbi hin =>
    obtain rfl := List.mem_singleton.mp hrec
    exact ⟨hbi, hin, le_rfl⟩
  | returned _ hbi hie hen _ _ _ _ ih =>
    rcases List.mem_cons.mp hrec with rfl | hrec
    · exact ⟨hbi, hie, hen⟩
    · obtain ⟨h₁, h₂⟩ := ih hrec
      exact ⟨by omega, h₂⟩

/-- The calls of a thread follow one another. -/
lemma pairwise (h : IsHistory Exec prog client c n t b rounds l replies hist) :
    hist.Pairwise fun rec rec' => rec.finish n ≤ rec'.inv := by
  induction h with
  | idle => exact List.Pairwise.nil
  | pending => exact List.pairwise_singleton _ _
  | returned _ _ _ _ _ _ _ hnext ih =>
    exact List.pairwise_cons.mpr ⟨fun rec hrec => (hnext.bounds hrec).1, ih⟩

/-- The point at which a call returns comes from an operation of its thread. -/
lemma last_step (h : IsHistory Exec prog client c n t b rounds l replies hist)
    {rec : CallRecord Call Reply} (hrec : rec ∈ hist) {e : ℕ} {r : Reply}
    (hret : rec.ret = some (e, r)) :
    Config.StepBy Exec t (c (e - 1)) (c e) := by
  induction h with
  | idle => exact absurd hrec List.not_mem_nil
  | pending =>
    obtain rfl := List.mem_singleton.mp hrec
    exact absurd hret (by simp)
  | returned _ _ _ _ _ _ hlast _ ih =>
    rcases List.mem_cons.mp hrec with rfl | hrec
    · cases hret
      exact hlast
    · exact ih hrec

/-- Every operation of the thread belongs to one of its calls. -/
lemma exists_record (h : IsHistory Exec prog client c n t b rounds l replies hist) {j : ℕ}
    (hbj : b ≤ j) (hjn : j < n) (hstep : Config.StepBy Exec t (c j) (c (j + 1))) :
    ∃ (k : ℕ) (rec : CallRecord Call Reply), hist[k]? = some rec ∧ rec.inv ≤ j ∧
      j < rec.finish n := by
  have hne : (c (j + 1)).prog t ≠ (c j).prog t := by
    obtain ⟨o, k, r, hp, -, hp'⟩ := hstep
    rw [hp', Function.update_self, hp]
    exact Prog.step_ne o k r
  induction h with
  | idle hwait =>
    exact absurd ((hwait (j + 1) (by omega) hjn).trans (hwait j hbj hjn.le).symm) hne
  | @pending b i _ _ _ _ _ _ hin hwait =>
    by_cases hji : j < i
    · exact absurd ((hwait (j + 1) (by omega) hji).trans (hwait j hbj hji.le).symm) hne
    · exact ⟨0, _, rfl, not_lt.mp hji, hjn⟩
  | @returned b i e _ _ _ _ _ _ _ _ _ _ hen hwait _ _ _ ih =>
    by_cases hji : j < i
    · exact absurd ((hwait (j + 1) (by omega) hji).trans (hwait j hbj hji.le).symm) hne
    · by_cases hje : j < e
      · exact ⟨0, _, rfl, not_lt.mp hji, hje⟩
      · obtain ⟨k, rec, hk, hrec⟩ := ih (not_lt.mp hje)
        exact ⟨k + 1, rec, hk, hrec⟩

/-- Two calls of a thread that overlap are the same. -/
lemma eq_of_overlap (h : IsHistory Exec prog client c n t b rounds l replies hist) {j k k' : ℕ}
    {rec rec' : CallRecord Call Reply} (hk : hist[k]? = some rec) (hk' : hist[k']? = some rec')
    (hj : rec.inv ≤ j ∧ j < rec.finish n) (hj' : rec'.inv ≤ j ∧ j < rec'.finish n) : k = k' := by
  obtain ⟨hlt, rfl⟩ := List.getElem?_eq_some_iff.mp hk
  obtain ⟨hlt', rfl⟩ := List.getElem?_eq_some_iff.mp hk'
  have hpair := List.pairwise_iff_getElem.mp h.pairwise
  rcases lt_trichotomy k k' with hkk | rfl | hkk
  · have := hpair k k' hlt hlt' hkk
    omega
  · rfl
  · have := hpair k' k hlt' hlt hkk
    omega

/-- A history is one of every run in which the programs are the same and the same threads move. -/
lemma of_steps {τ : Type} {Exec' : (o : Op) → τ → Ret o → τ → Prop}
    {c' : ℕ → Config T Op Ret (fun _ => List Reply) τ}
    (h : IsHistory Exec prog client c n t b rounds l replies hist)
    (hprog : ∀ j, (c' j).prog = (c j).prog)
    (hstep : ∀ j < n, Config.StepBy Exec t (c j) (c (j + 1)) →
      Config.StepBy Exec' t (c' j) (c' (j + 1))) :
    IsHistory Exec' prog client c' n t b rounds l replies hist := by
  induction h with
  | idle hwait =>
    exact .idle fun j hbj hj => by
      rw [hprog j]
      exact hwait j hbj hj
  | pending hcall hbi hin hwait hfirst hrest =>
    refine .pending hcall hbi hin (fun j hbj hj => ?_) (hstep _ hin hfirst) ?_
    · rw [hprog j]
      exact hwait j hbj hj
    · rw [hprog n]
      exact hrest
  | @returned b i e _ _ _ _ _ _ _ hcall hbi hie hen hwait hfirst hlast _ ih =>
    refine .returned hcall hbi hie hen (fun j hbj hj => ?_) (hstep _ (by omega) hfirst) ?_ ih
    · rw [hprog j]
      exact hwait j hbj hj
    · obtain ⟨e, rfl⟩ : ∃ e', e = e' + 1 := ⟨e - 1, by omega⟩
      exact hstep e hen hlast

end IsHistory

/-! ### The obligations of a session -/

section Obligations

variable {Inv : σ → Prop} {Rely Guar : σ → σ → Prop} {Pre : Call → σ → Prop}
  {CallGuar : Call → σ → σ → Prop} {Spec : Call → Reply → σ → Prop}
  {Ready : List Reply → Local → σ → Prop}

/-- A session is as safe as its calls.  `Ready` is what the thread knows between two calls. -/
theorem session_safe (CallGuar : Call → σ → σ → Prop) (Spec : Call → Reply → σ → Prop)
    (Ready : List Reply → Local → σ → Prop)
    (hcall : ∀ replies call l s, client replies = some call → Ready replies l s →
      Safe Exec Inv Rely (CallGuar call)
        (fun r s' => Spec call r.1 s' ∧ Ready (replies ++ [r.1]) r.2 s') (prog call l) s)
    (hguar : ∀ replies call, client replies = some call → ∀ s s', CallGuar call s s' → Guar s s')
    {rounds : ℕ} {l : Local} {replies : List Reply} {s : σ} (h : Ready replies l s) :
    Safe Exec Inv Rely Guar (fun replies s' => ∃ l, Ready replies l s')
      (session prog client rounds l replies) s := by
  induction rounds generalizing l replies s with
  | zero => trivial
  | succ rounds ih =>
    rw [session]
    cases hc : client replies with
    | none => exact ⟨l, h⟩
    | some call =>
      refine Safe.bind_of ((hcall replies call l s hc h).mono_guar (hguar replies call hc)) ?_
      rintro ⟨r, l'⟩ s' ⟨-, hready⟩
      exact ih hready

/-- Along a run, the calls of a session form a history that meets the obligations of the calls. -/
theorem exists_history (hrefl : ∀ s, Rely s s)
    (htrans : ∀ s₁ s₂ s₃, Rely s₁ s₂ → Rely s₂ s₃ → Rely s₁ s₃)
    (hcall : ∀ replies call l s, client replies = some call → Ready replies l s →
      Safe Exec Inv Rely (CallGuar call)
        (fun r s' => Spec call r.1 s' ∧ Ready (replies ++ [r.1]) r.2 s') (prog call l) s)
    (hpre : ∀ replies call l s, client replies = some call → Ready replies l s → Pre call s)
    (hstable : ∀ replies l s s', Ready replies l s → Rely s s' → Ready replies l s')
    (hstep : ∀ call l r, prog call l ≠ done r) (h : Config.Surrounds Exec Inv Rely c t n) {b : ℕ}
    (hb : b ≤ n) {rounds : ℕ} {l : Local} {replies : List Reply}
    (hp : (c b).prog t = session prog client rounds l replies)
    (hready : Ready replies l (c b).mem) :
    ∃ hist, IsHistory Exec prog client c n t b rounds l replies hist ∧
      Meets Exec c n t Pre CallGuar Spec hist ∧ Performs Exec prog client c n t Ready hist := by
  induction rounds generalizing b l replies with
  | zero =>
    have hidle : Config.IdleBetween Exec c t b n := by
      rcases Config.idle_or_first_step c t b n with
        hidle | ⟨i, hbi, hin, ⟨o, k, r, hprog, -, -⟩, hidle⟩
      · exact hidle
      · rw [h.isRun.prog_eq_of_idle hidle hin.le hbi le_rfl, hp] at hprog
        exact nomatch hprog
    exact ⟨[], .idle fun j hbj hj => (h.isRun.prog_eq_of_idle hidle le_rfl hbj hj).trans hp,
      fun _ hrec => absurd hrec List.not_mem_nil, fun _ hrec => absurd hrec List.not_mem_nil⟩
  | succ rounds ih =>
    rcases Config.idle_or_first_step c t b n with hidle | ⟨i, hbi, hin, hfirst, hidle⟩
    · exact ⟨[], .idle fun j hbj hj => (h.isRun.prog_eq_of_idle hidle le_rfl hbj hj).trans hp,
        fun _ hrec => absurd hrec List.not_mem_nil, fun _ hrec => absurd hrec List.not_mem_nil⟩
    -- the thread moves, hence it begins a call at the point `i`
    have hwait : ∀ j, b ≤ j → j ≤ i →
        (c j).prog t = session prog client (rounds + 1) l replies := fun j hbj hji =>
      (h.isRun.prog_eq_of_idle hidle hin.le hbj hji).trans hp
    cases hc : client replies with
    | none =>
      obtain ⟨o, k, r, hprog, -, -⟩ := hfirst
      rw [hwait i hbi le_rfl, session, hc] at hprog
      exact nomatch hprog
    | some call =>
      have hprog : (c i).prog t = prog call l >>= fun r =>
          session prog client rounds r.2 (replies ++ [r.1]) := by
        rw [hwait i hbi le_rfl, session, hc]
      have hready' := hstable _ _ _ _ hready
        (h.rely_of_idle hrefl htrans hidle hbi hin.le)
      obtain ⟨P, hP, ⟨hex, hne, hm⟩ |
        ⟨e, ⟨r, l'⟩, hie, hen, hex, ha, ⟨hspec, hready''⟩, hm, hlast⟩⟩ :=
          h.split_bind hrefl htrans hin.le hprog (hcall replies call l _ hc hready')
      · refine ⟨[⟨call, i, none⟩], .pending hc hbi hin hwait hfirst
          ⟨P n, hne, hex.prog_eq n hin.le le_rfl⟩, fun rec hrec => ?_, fun rec hrec => ?_⟩
        · obtain rfl := List.mem_singleton.mp hrec
          exact ⟨hpre _ _ _ _ hc hready', hm, fun e r he => absurd he (by simp)⟩
        · obtain rfl := List.mem_singleton.mp hrec
          exact ⟨replies, l, _, P, hc, hready', hP, hex⟩
      · have hpe := hex.prog_eq e hie le_rfl
        rw [ha, done_bind] at hpe
        obtain ⟨hie, hlast⟩ := hlast.resolve_left fun hdone => hstep call l _ hdone.1
        obtain ⟨hist, hhist, hmeets, hperf⟩ := ih hen hpe hready''
        refine ⟨_, .returned hc hbi hie hen hwait hfirst hlast hhist, fun rec hrec => ?_,
          List.forall_mem_cons.mpr ⟨⟨replies, l, _, P, hc, hready', hP, hex⟩, hperf⟩⟩
        rcases List.mem_cons.mp hrec with rfl | hrec
        · refine ⟨hpre _ _ _ _ hc hready', hm, fun e' r' he => ?_⟩
          cases he
          exact hspec
        · exact hmeets rec hrec

end Obligations

/-- **Histories of sessions.**  Threads run the sessions of their clients over a shared state.  If
what every thread guarantees is what the others rely on, and every call of a client meets its
obligation whenever the thread is ready for it, then along every run the invariant holds and no
thread fails, and every thread has a history whose calls meet their obligations. -/
theorem exists_histories (prog : T → Call → Local → Prog Op Ret (Reply × Local))
    (client : T → List Reply → Option Call) (Inv : σ → Prop) (Rely Guar : T → σ → σ → Prop)
    (Pre : T → Call → σ → Prop) (CallGuar : T → Call → σ → σ → Prop)
    (Spec : T → Call → Reply → σ → Prop) (Ready : T → List Reply → Local → σ → Prop)
    (hrefl : ∀ t s, Rely t s s)
    (htrans : ∀ t s₁ s₂ s₃, Rely t s₁ s₂ → Rely t s₂ s₃ → Rely t s₁ s₃)
    (hG : ∀ t u, u ≠ t → ∀ s s', Inv s → Guar t s s' → Rely u s s')
    (hcall : ∀ t replies call l s, client t replies = some call → Ready t replies l s →
      Safe Exec Inv (Rely t) (CallGuar t call)
        (fun r s' => Spec t call r.1 s' ∧ Ready t (replies ++ [r.1]) r.2 s') (prog t call l) s)
    (hpre : ∀ t replies call l s, client t replies = some call → Ready t replies l s →
      Pre t call s)
    (hguar : ∀ t replies call, client t replies = some call →
      ∀ s s', CallGuar t call s s' → Guar t s s')
    (hstable : ∀ t replies l s s', Ready t replies l s → Rely t s s' → Ready t replies l s')
    (hstep : ∀ t call l r, prog t call l ≠ done r) {rounds : T → ℕ} {start : T → Local}
    (hprog : ∀ t, (c 0).prog t = session (prog t) (client t) (rounds t) (start t) [])
    (hI : Inv (c 0).mem) (hready : ∀ t, Ready t [] (start t) (c 0).mem)
    (hrun : Config.IsRun Exec c n) :
    (∀ j ≤ n, Inv (c j).mem ∧ (∀ t, (c j).prog t ≠ fault) ∧
      ∀ t, j < n → Config.StepBy Exec t (c j) (c (j + 1)) → Guar t (c j).mem (c (j + 1)).mem) ∧
    ∃ hist : T → List (CallRecord Call Reply),
      ∀ t, IsHistory Exec (prog t) (client t) c n t 0 (rounds t) (start t) [] (hist t) ∧
        Meets Exec c n t (Pre t) (CallGuar t) (Spec t) (hist t) ∧
        Performs Exec (prog t) (client t) c n t (Ready t) (hist t) := by
  have hsafe : ∀ t, Safe Exec Inv (Rely t) (Guar t) (fun replies s' => ∃ l, Ready t replies l s')
      ((c 0).prog t) (c 0).mem := fun t => by
    rw [hprog t]
    exact session_safe (CallGuar t) (Spec t) (Ready t) (hcall t) (hguar t) (hready t)
  have hsound := Config.safe_of_isRun hrun hrefl htrans hG hI hsafe
  have hguarStep : ∀ j < n, ∀ t, Config.StepBy Exec t (c j) (c (j + 1)) →
      Guar t (c j).mem (c (j + 1)).mem := fun j hj t hstep =>
    (hstep.safe (hsound j hj.le).1 ((hsound j hj.le).2.1 t)).2.1
  refine ⟨fun j hj => ⟨(hsound j hj).1, fun t => ((hsound j hj).2.1 t).ne_fault,
    fun t hjn => hguarStep j hjn t⟩, ?_⟩
  have hhist : ∀ t, ∃ hist,
      IsHistory Exec (prog t) (client t) c n t 0 (rounds t) (start t) [] hist ∧
        Meets Exec c n t (Pre t) (CallGuar t) (Spec t) hist ∧
        Performs Exec (prog t) (client t) c n t (Ready t) hist := fun t =>
    exists_history (hrefl t) (htrans t) (hcall t) (hpre t) (hstable t) (hstep t)
      ⟨hrun, fun j hj => (hsound j hj).1, fun j hj u hut hu =>
        hG u t hut.symm _ _ (hsound j hj.le).1 (hguarStep j hj u hu)⟩ (Nat.zero_le n) (hprog t)
      (hready t)
  choose hist hh using hhist
  exact ⟨hist, hh⟩

end Sessions

end AtomicProg
