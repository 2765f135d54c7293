import PmemKv.Library.CrashLogic
import PmemKv.Library.Sessions

/-!
# Critical sections

Threads share a memory and some fields, and a mutex guards both: a call locks the mutex, reads the
fields, works on the memory operation by operation, writes the fields back and unlocks.  Nothing but
the mutex keeps the threads apart; an operation on the memory does not ask who holds it.

`exists_serialization` says what the mutex is good for.  Along every run there is a growing log of
the calls that have returned.  Executing these calls alone, one after another, gives their replies,
and each of them is the call that its client chose from its earlier replies.  The memory is the one
that the calls leave behind, with the first operations of one further call if the mutex is held.
-/

namespace AtomicProg

open Prog

/-! ## The mutex -/

/-- An operation of a thread that shares a memory with the operations `Op` and fields of type
`F`. -/
inductive MutexOp (Op F : Type) : Type
  /-- Wait until no thread holds the mutex, hold it, and read the fields. -/
  | lock
  /-- An operation on the memory. -/
  | access (o : Op)
  /-- Write the fields, and let go of the mutex. -/
  | unlock (fields : F)

/-- What an operation answers. -/
@[reducible] def MutexOp.Ret {Op : Type} (Ret : Op → Type) (F : Type) : MutexOp Op F → Type
  | .lock => F
  | .access o => Ret o
  | .unlock _ => Unit

/-- A memory and fields, with the mutex that guards them. -/
@[ext] structure Guarded (F σ : Type) where
  /-- The memory. -/
  mem : σ
  /-- The fields. -/
  fields : F
  /-- Some thread holds the mutex. -/
  held : Bool

variable {T Op F Call Reply α σ : Type} {Ret : Op → Type}

/-- A program on the memory, as a part of a critical section. -/
def guarded : Prog Op Ret α → Prog (MutexOp Op F) (MutexOp.Ret Ret F) α
  | done a => done a
  | fault => fault
  | exhausted => exhausted
  | step o k => step (.access o) fun r => guarded (k r)

/-- The end of a critical section. -/
def leave (r : Reply × F) : Prog (MutexOp Op F) (MutexOp.Ret Ret F) (Reply × Unit) := do
  perform (MutexOp.unlock r.2)
  pure (r.1, ())

/-- A call whose body is a critical section. -/
def critical (body : Call → F → Prog Op Ret (Reply × F)) (call : Call) (_ : Unit) :
    Prog (MutexOp Op F) (MutexOp.Ret Ret F) (Reply × Unit) := do
  let fields ← perform MutexOp.lock
  let r ← guarded (body call fields)
  leave r

section Exec

variable (exec : (o : Op) → σ → Ret o × σ)

/-- The operation is possible. -/
def MutexOp.enabled : MutexOp Op F → Guarded F σ → Bool
  | .lock, s => !s.held
  | _, _ => true

/-- The effect of an operation that is possible. -/
def execGuarded : (o : MutexOp Op F) → Guarded F σ → MutexOp.Ret Ret F o × Guarded F σ
  | .lock, s => (s.fields, { s with held := true })
  | .access o, s => ((exec o s.mem).1, { s with mem := (exec o s.mem).2 })
  | .unlock fields, s => ((), { s with fields := fields, held := false })

/-- The effect of an operation; the mutex is locked when it is free. -/
def ExecGuarded (o : MutexOp Op F) (s : Guarded F σ) (r : MutexOp.Ret Ret F o) (s' : Guarded F σ) :
    Prop :=
  o.enabled s = true ∧ execGuarded exec o s = (r, s')

end Exec

/-! ## The log -/

/-- A call that has returned. -/
structure Completed (T Call Reply : Type) where
  /-- The thread that made it. -/
  thread : T
  /-- The call. -/
  call : Call
  /-- What it returned. -/
  reply : Reply
  deriving DecidableEq

section Log

variable [DecidableEq T]

/-- The calls of one thread. -/
def ownCalls (t : T) (log : List (Completed T Call Reply)) : List (Completed T Call Reply) :=
  log.filter fun e => e.thread = t

/-- The replies that one thread has received. -/
def ownReplies (t : T) (log : List (Completed T Call Reply)) : List Reply :=
  (ownCalls t log).map Completed.reply

variable {t u : T} {log : List (Completed T Call Reply)} {call : Call} {r : Reply}

lemma ownReplies_append_self :
    ownReplies t (log ++ [⟨t, call, r⟩]) = ownReplies t log ++ [r] := by
  simp [ownReplies, ownCalls]

lemma ownReplies_append_of_ne (h : u ≠ t) :
    ownReplies u (log ++ [⟨t, call, r⟩]) = ownReplies u log := by
  simp [ownReplies, ownCalls, h.symm]

variable (exec : (o : Op) → σ → Ret o × σ) (body : Call → F → Prog Op Ret (Reply × F))
  (client : T → List Reply → Option Call)

/-- The log is what the calls of the clients do when they are executed alone, one after another,
from the memory `m₀` and the fields `f₀` to the memory and the fields given last. -/
inductive Serial (m₀ : σ) (f₀ : F) : List (Completed T Call Reply) → σ → F → Prop
  /-- No call has returned. -/
  | start : Serial m₀ f₀ [] m₀ f₀
  /-- A call that its client chooses is executed. -/
  | call {log : List (Completed T Call Reply)} {m m' : σ} {f f' : F} {t : T}
      {call : Call} {r : Reply}
    (hlog : Serial m₀ f₀ log m f) (hcall : client t (ownReplies t log) = some call)
    (hrun : run exec (body call f) m = .done (r, f') m') :
    Serial m₀ f₀ (log ++ [⟨t, call, r⟩]) m' f'

/-- The thread is between two calls. -/
def Between (c : Config T (MutexOp Op F) (MutexOp.Ret Ret F) (fun _ => List Reply) (Guarded F σ))
    (log : List (Completed T Call Reply)) (t : T) : Prop :=
  ∃ rounds, c.prog t = session (critical body) (client t) rounds () (ownReplies t log)

/-- Where a run stands when the calls of the log have returned, and have left the memory `m` and the
fields `f` behind. -/
inductive Stands
    (c : Config T (MutexOp Op F) (MutexOp.Ret Ret F) (fun _ => List Reply) (Guarded F σ))
    (log : List (Completed T Call Reply)) (m : σ) (f : F) : Prop
  /-- No call is in progress. -/
  | free (hmem : c.mem = ⟨m, f, false⟩) (hprog : ∀ t, Between body client c log t)
  /-- One call is in progress, and has performed `k` operations. -/
  | held {t : T} {call : Call} {k : ℕ} (hcall : client t (ownReplies t log) = some call)
    (hmem : c.mem = ⟨stateAfter exec k (body call f) m, f, true⟩)
    (hprog : ∃ rounds, c.prog t =
      (guarded (restAfter exec k (body call f) m) >>= leave) >>= fun r =>
        session (critical body) (client t) rounds () (ownReplies t log ++ [r.1]))
    (hothers : ∀ u ≠ t, Between body client c log u)

/-! ## Runs -/

variable {exec body client}
  {c c' : Config T (MutexOp Op F) (MutexOp.Ret Ret F) (fun _ => List Reply) (Guarded F σ)}
  {m : σ} {f : F}

omit [DecidableEq T] in
/-- The first operation of a session locks the mutex. -/
lemma session_eq_step {own : List Reply → Option Call} {rounds : ℕ} {replies : List Reply}
    {o : MutexOp Op F}
    {k : MutexOp.Ret Ret F o → Prog (MutexOp Op F) (MutexOp.Ret Ret F) (List Reply)}
    (h : session (critical body) own rounds () replies = step o k) :
    ∃ rounds' call, own replies = some call ∧
      (step .lock fun fields => (guarded (body call fields) >>= leave) >>= fun r =>
        session (critical body) own rounds' () (replies ++ [r.1])) = step o k := by
  cases rounds with
  | zero => cases h
  | succ rounds =>
    rw [session] at h
    cases hcall : own replies with
    | none =>
      rw [hcall] at h
      cases h
    | some call =>
      rw [hcall] at h
      exact ⟨rounds, call, rfl, h⟩

/-- A thread between two calls stays there when another thread moves. -/
lemma Between.of_step {log' : List (Completed T Call Reply)} (h : Between body client c log u)
    (hstep : c'.prog u = c.prog u) (hlog : ownReplies u log' = ownReplies u log) :
    Between body client c' log' u := by
  obtain ⟨rounds, hp⟩ := h
  exact ⟨rounds, by rw [hstep, hp, hlog]⟩

/-- A thread between two calls can only lock the mutex, which is free then. -/
lemma Between.step (h : Between body client c log t)
    (hstep : Config.StepBy (ExecGuarded exec) t c c') :
    c.mem.held = false ∧ c'.mem = { c.mem with held := true } ∧ ∃ rounds call,
      client t (ownReplies t log) = some call ∧
      c'.prog t = (guarded (body call c.mem.fields) >>= leave) >>= fun r =>
        session (critical body) (client t) rounds () (ownReplies t log ++ [r.1]) := by
  obtain ⟨rounds, hp⟩ := h
  obtain ⟨o, k, r, hprog, ⟨henabled, hexec⟩, hprog'⟩ := hstep
  obtain ⟨rounds', call, hcall, hfirst⟩ := session_eq_step (hp.symm.trans hprog)
  cases hfirst
  obtain ⟨rfl, hmem⟩ := Prod.mk.inj hexec
  refine ⟨by simpa [MutexOp.enabled] using henabled, hmem.symm, rounds', call, hcall, ?_⟩
  rw [hprog', Function.update_self]

/-- **One step** of a run goes on with the call that is in progress, or begins one, or ends one. -/
theorem Stands.step (h : Stands exec body client c log m f)
    (hstep : Config.StepBy (ExecGuarded exec) u c c') :
    Stands exec body client c' log m f ∨ ∃ call r m' f',
      client u (ownReplies u log) = some call ∧ run exec (body call f) m = .done (r, f') m' ∧
      Stands exec body client c' (log ++ [⟨u, call, r⟩]) m' f' := by
  cases h with
  | free hmem hprog =>
    obtain ⟨-, hmem', rounds, call, hcall, hprog'⟩ := (hprog u).step hstep
    have hothers : ∀ v ≠ u, Between body client c' log v := fun v hv =>
      (hprog v).of_step (hstep.prog_of_ne hv) rfl
    refine Or.inl (.held (k := 0) hcall ?_ ⟨rounds, ?_⟩ hothers)
    · rw [hmem', hmem]
      rfl
    · rw [hprog', hmem]
      rfl
  | @held t call j hcall hmem hprog hothers =>
    obtain ⟨rounds, hprog⟩ := hprog
    by_cases hut : u = t
    · subst hut
      have hne : ∀ v ≠ u, c'.prog v = c.prog v := fun v hv => hstep.prog_of_ne hv
      obtain ⟨o, k, r, hp, ⟨-, hexec⟩, hp'⟩ := hstep
      have hrun : run exec (restAfter exec j (body call f) m) (stateAfter exec j (body call f) m) =
          run exec (body call f) m := run_restAfter j _ _
      rw [hprog] at hp
      cases hrest : restAfter exec j (body call f) m with
      | done a =>
        -- the section is left
        rw [hrest] at hp hrun
        cases hp
        obtain ⟨-, hmem'⟩ := Prod.mk.inj hexec
        refine Or.inr ⟨call, a.1, _, a.2, hcall, hrun.symm, .free ?_ fun v => ?_⟩
        · rw [← hmem', hmem]
        · by_cases hv : v = u
          · subst hv
            refine ⟨rounds, ?_⟩
            rw [hp', Function.update_self, ownReplies_append_self]
            rfl
          · exact (hothers v hv).of_step (hne v hv) (ownReplies_append_of_ne hv)
      | fault =>
        rw [hrest] at hp
        cases hp
      | exhausted =>
        rw [hrest] at hp
        cases hp
      | step o' k' =>
        obtain ⟨hstate, hnext⟩ := after_succ hrest
        rw [hrest] at hp
        cases hp
        obtain ⟨rfl, hmem'⟩ := Prod.mk.inj hexec
        refine Or.inl (.held (k := j + 1) hcall ?_ ⟨rounds, ?_⟩ fun v hv =>
          (hothers v hv).of_step (hne v hv) rfl)
        · rw [← hmem', hmem, hstate]
        · rw [hp', Function.update_self, hnext, hmem]
          rfl
    · -- another thread waits for the mutex
      obtain ⟨hfree, -⟩ := (hothers u hut).step hstep
      rw [hmem] at hfree
      cases hfree

/-- **Critical sections serialize.**  Along every run in which the threads make calls whose bodies
are critical sections, there is a log that grows by the calls that return. -/
theorem exists_serialization
    {c : ℕ → Config T (MutexOp Op F) (MutexOp.Ret Ret F) (fun _ => List Reply) (Guarded F σ)}
    {n : ℕ}
    {rounds : T → ℕ} (hmem : (c 0).mem = ⟨m, f, false⟩)
    (hprog : ∀ t, (c 0).prog t = session (critical body) (client t) (rounds t) () [])
    (hrun : Config.IsRun (ExecGuarded exec) c n) :
    ∃ log : ℕ → List (Completed T Call Reply), log 0 = [] ∧
      (∀ j < n, log (j + 1) = log j ∨ ∃ e, log (j + 1) = log j ++ [e]) ∧
      ∀ j ≤ n, ∃ m' f', Serial exec body client m f (log j) m' f' ∧
        Stands exec body client (c j) (log j) m' f' := by
  induction n with
  | zero =>
    refine ⟨fun _ => [], rfl, fun j hj => absurd hj (Nat.not_lt_zero j), fun j hj => ?_⟩
    obtain rfl := Nat.le_zero.mp hj
    exact ⟨m, f, .start, .free hmem fun t => ⟨rounds t, hprog t⟩⟩
  | succ n ih =>
    obtain ⟨log, h₀, hgrow, hstands⟩ := ih fun j hj => hrun j (Nat.lt_succ_of_lt hj)
    obtain ⟨m', f', hserial, hst⟩ := hstands n le_rfl
    obtain ⟨u, hstep⟩ := hrun n (Nat.lt_succ_self n)
    -- the log up to the point `n` stays, and `log'` is the one after the last step
    have hnext : ∃ log', (log' = log n ∨ ∃ e, log' = log n ++ [e]) ∧
        ∃ m' f', Serial exec body client m f log' m' f' ∧
          Stands exec body client (c (n + 1)) log' m' f' := by
      rcases hst.step hstep with hst' | ⟨call, r, m'', f'', hcall, hbody, hst'⟩
      · exact ⟨log n, Or.inl rfl, m', f', hserial, hst'⟩
      · exact ⟨_, Or.inr ⟨_, rfl⟩, m'', f'', hserial.call hcall hbody, hst'⟩
    obtain ⟨log', hlog', hlast⟩ := hnext
    have hold : ∀ j ≤ n, Function.update log (n + 1) log' j = log j := fun j hj =>
      Function.update_of_ne (by omega) _ _
    refine ⟨Function.update log (n + 1) log', (hold 0 (Nat.zero_le n)).trans h₀, fun j hj => ?_,
      fun j hj => ?_⟩
    · rcases Nat.lt_succ_iff_lt_or_eq.mp hj with hj | rfl
      · rw [hold j hj.le, hold (j + 1) hj]
        exact hgrow j hj
      · rw [hold j le_rfl, Function.update_self]
        exact hlog'
    · rcases Nat.le_succ_iff.mp hj with hj | rfl
      · rw [hold j hj]
        exact hstands j hj
      · rw [Function.update_self]
        exact hlast

/-! ## What the log says -/

/-- The calls of a thread in the log are those that its client chooses. -/
lemma Serial.chosen {m₀ : σ} {f₀ : F} (h : Serial exec body client m₀ f₀ log m f) {i : ℕ}
    {e : Completed T Call Reply} (he : (ownCalls t log)[i]? = some e) :
    client t ((ownReplies t log).take i) = some e.call := by
  induction h with
  | start => simp [ownCalls] at he
  | @call log m m' f f' u call r hlog hcall hrun ih =>
    by_cases hut : u = t
    · subst hut
      have hown : ownCalls u (log ++ [⟨u, call, r⟩]) = ownCalls u log ++ [⟨u, call, r⟩] := by
        simp [ownCalls]
      have hlen : (ownReplies u log).length = (ownCalls u log).length := List.length_map _
      rw [hown] at he
      rw [ownReplies_append_self]
      rcases Nat.lt_or_ge i (ownCalls u log).length with hi | hi
      · rw [List.getElem?_append_left hi] at he
        rw [List.take_append_of_le_length (by omega)]
        exact ih he
      · rw [List.getElem?_append_right hi] at he
        obtain ⟨h₀, rfl⟩ := List.getElem?_eq_some_iff.mp he
        have hi₀ : i = (ownReplies u log).length := by
          simp only [List.length_singleton] at h₀
          omega
        subst hi₀
        rw [List.take_left]
        simpa using hcall
    · have hown : ownCalls t (log ++ [⟨u, call, r⟩]) = ownCalls t log := by
        simp [ownCalls, hut]
      rw [hown] at he
      rw [ownReplies_append_of_ne (Ne.symm hut)]
      exact ih he

omit [DecidableEq T] in
/-- A part of a section fails if the program does. -/
lemma guarded_bind_eq_fault {p : Prog Op Ret (Reply × F)} {g : Reply × Unit →
      Prog (MutexOp Op F) (MutexOp.Ret Ret F) α} (h : (guarded p >>= leave) >>= g = fault) :
    p = fault := by
  cases p with
  | fault => rfl
  | done a => cases h
  | exhausted => cases h
  | step o k => cases h

omit [DecidableEq T] in
/-- A part of a section is not the end of a session. -/
lemma guarded_bind_ne_done {p : Prog Op Ret (Reply × F)} {g : Reply × Unit →
      Prog (MutexOp Op F) (MutexOp.Ret Ret F) α} (a : α) :
    (guarded p >>= leave) >>= g ≠ done a := by
  intro h
  cases p with
  | fault => cases h
  | done a => cases h
  | exhausted => cases h
  | step o k => cases h

/-- A thread between two calls that has stopped has received the replies of the log. -/
lemma Between.done_eq {replies : List Reply} (h : Between body client c log t)
    (hdone : c.prog t = done replies) : replies = ownReplies t log := by
  obtain ⟨rounds, hp⟩ := h
  rw [hdone] at hp
  cases rounds with
  | zero => cases hp
  | succ rounds =>
    rw [session] at hp
    cases hcall : client t (ownReplies t log) with
    | none =>
      rw [hcall] at hp
      exact Prog.done.inj hp
    | some call =>
      rw [hcall] at hp
      cases hp

/-- A thread between two calls has not failed. -/
lemma Between.ne_fault (h : Between body client c log t) : c.prog t ≠ fault := by
  obtain ⟨rounds, hp⟩ := h
  intro hfault
  rw [hfault] at hp
  cases rounds with
  | zero => cases hp
  | succ rounds =>
    rw [session] at hp
    cases hcall : client t (ownReplies t log) with
    | none =>
      rw [hcall] at hp
      cases hp
    | some call =>
      rw [hcall] at hp
      cases hp

/-- A thread that has stopped has received the replies of the log. -/
lemma Stands.done_eq {replies : List Reply} (h : Stands exec body client c log m f)
    (hdone : c.prog t = done replies) : replies = ownReplies t log := by
  cases h with
  | free hmem hprog => exact (hprog t).done_eq hdone
  | @held u call k hcall hmem hprog hothers =>
    by_cases htu : t = u
    · subst htu
      obtain ⟨rounds, hprog⟩ := hprog
      exact absurd (hprog.symm.trans hdone) (guarded_bind_ne_done _)
    · exact (hothers t htu).done_eq hdone

/-- If a thread fails, its call would have failed alone. -/
lemma Stands.of_fault (h : Stands exec body client c log m f) (hfault : c.prog t = fault) :
    ∃ call, client t (ownReplies t log) = some call ∧ run exec (body call f) m = .fault := by
  cases h with
  | free hmem hprog => exact absurd hfault (hprog t).ne_fault
  | @held u call k hcall hmem hprog hothers =>
    by_cases htu : t = u
    · subst htu
      obtain ⟨rounds, hprog⟩ := hprog
      refine ⟨call, hcall, ?_⟩
      rw [← run_restAfter k, guarded_bind_eq_fault (hprog.symm.trans hfault)]
      rfl
    · exact absurd hfault (hothers t htu).ne_fault

end Log

end AtomicProg
