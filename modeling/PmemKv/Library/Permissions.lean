import PmemKv.Library.Sessions
import Mathlib.Order.Basic

/-!
# Permitted operations

Some operations of a program make sense only when something has happened before: a word is read only
after it was written, a pointer is followed only after its target exists.  `Permissions` says which
operations are allowed in a *world*, what an operation may answer there and which world it leaves
behind.  Worlds only grow, and what is allowed once stays allowed; so, unlike an obligation of a
rely-guarantee argument, a program that is `Permitted` in a world needs to know nothing about the
programs that run next to it.

The result is about two readings of the operations, a concrete and an abstract one, which agree
about every allowed operation.  Then every run of permitted programs in the concrete reading is a
run in the abstract one, and each of its operations is allowed.
-/

namespace AtomicProg

/-- Which operations are allowed in a world, and what they may answer and leave behind there. -/
structure Permissions (Op : Type) (Ret : Op → Type) (W : Type) [Preorder W] where
  /-- The operation is allowed. -/
  allowed : W → Op → Prop
  /-- The operation may answer this and leave this world behind. -/
  answers : (o : Op) → W → Ret o → W → Prop
  /-- Worlds only grow. -/
  grows : ∀ o w r w', answers o w r w' → w ≤ w'

variable {T Op : Type} {Ret : Op → Type} {W : Type} [Preorder W] {α β : Type}

namespace Prog

/-- The program performs allowed operations only, in the given world and in all worlds after it, and
what it returns satisfies `Q`.  It may violate an assertion. -/
def Permitted (P : Permissions Op Ret W) (Q : α → W → Prop) : Prog Op Ret α → W → Prop
  | done a, w => ∀ w', w ≤ w' → Q a w'
  | fault, _ => True
  | exhausted, _ => True
  | step o k, w => ∀ w', w ≤ w' →
      P.allowed w' o ∧ ∀ r w'', P.answers o w' r w'' → Permitted P Q (k r) w''

namespace Permitted

variable {P : Permissions Op Ret W} {p : Prog Op Ret α} {w w' : W} {Q Q' : α → W → Prop}

/-- A permitted program stays permitted. -/
lemma later (h : Permitted P Q p w) (hw : w ≤ w') : Permitted P Q p w' := by
  cases p with
  | done a => exact fun v hv => h v (hw.trans hv)
  | fault => trivial
  | exhausted => trivial
  | step o k => exact fun v hv => h v (hw.trans hv)

/-- The rule of sequential composition. -/
lemma bind {f : α → Prog Op Ret β} {Q : β → W → Prop}
    (h : Permitted P (fun a v => Permitted P Q (f a) v) p w) : Permitted P Q (p >>= f) w := by
  induction p generalizing w with
  | done a => exact h w le_rfl
  | fault => trivial
  | exhausted => trivial
  | step o k ih =>
    intro v hv
    obtain ⟨hallowed, hrest⟩ := h v hv
    exact ⟨hallowed, fun r v' hr => ih r (hrest r v' hr)⟩

/-- The rule of consequence. -/
lemma mono (h : Permitted P Q p w) (hQ : ∀ a v, w ≤ v → Q a v → Q' a v) :
    Permitted P Q' p w := by
  induction p generalizing w with
  | done a => exact fun v hv => hQ a v hv (h v hv)
  | fault => trivial
  | exhausted => trivial
  | step o k ih =>
    intro v hv
    obtain ⟨hallowed, hrest⟩ := h v hv
    refine ⟨hallowed, fun r v' hr => ih r (hrest r v' hr) fun a u hu => hQ a u ?_⟩
    exact hv.trans ((P.grows o v r v' hr).trans hu)

/-- Composition after a program whose result is known. -/
lemma bind_of {f : α → Prog Op Ret β} {Q : β → W → Prop} {R : α → W → Prop}
    (h : Permitted P R p w) (hf : ∀ a v, w ≤ v → R a v → Permitted P Q (f a) v) :
    Permitted P Q (p >>= f) w :=
  (h.mono hf).bind

/-- An assertion permits what follows if it permits it when it holds. -/
lemma check_bind {c : Bool} {f : Unit → Prog Op Ret β} {Q : β → W → Prop}
    (h : c = true → Permitted P Q (f ()) w) : Permitted P Q (check c >>= f) w := by
  cases c with
  | true => exact h rfl
  | false => trivial

end Permitted

end Prog

open Prog

/-- A session is permitted if its calls are.  `Ready` is what the thread knows between two calls. -/
theorem session_permitted {Call Reply Local : Type} {P : Permissions Op Ret W}
    {prog : Call → Local → Prog Op Ret (Reply × Local)} {client : List Reply → Option Call}
    (Ready : List Reply → Local → W → Prop)
    (hcall : ∀ replies call l w, client replies = some call → Ready replies l w →
      Permitted P (fun r w' => Ready (replies ++ [r.1]) r.2 w') (prog call l) w)
    {rounds : ℕ} {l : Local} {replies : List Reply} {w : W} (h : Ready replies l w) :
    Permitted P (fun _ _ => True) (session prog client rounds l replies) w := by
  induction rounds generalizing l replies w with
  | zero => trivial
  | succ rounds ih =>
    rw [session]
    cases hc : client replies with
    | none => exact fun _ _ => trivial
    | some call => exact (hcall replies call l w hc h).bind_of fun r w' _ hr => ih hr

/-! ## Runs of permitted programs -/

section Runs

variable [DecidableEq T] {α : T → Type} {σ τ : Type} {P : Permissions Op Ret W}
  {Exec : (o : Op) → σ → Ret o → σ → Prop} {Exec' : (o : Op) → τ → Ret o → τ → Prop}
  {Rel : W → σ → τ → Prop} {Q : (t : T) → α t → W → Prop}
  {c : ℕ → Config T Op Ret α σ} {n : ℕ}

/-- What two readings of a run have to do with each other up to the point `n`: at every point the
states are related and the programs are permitted, and every step of the concrete reading is a step
of the abstract reading and leaves the world behind that the permissions say. -/
structure Refinement (P : Permissions Op Ret W) (Exec : (o : Op) → σ → Ret o → σ → Prop)
    (Exec' : (o : Op) → τ → Ret o → τ → Prop) (Rel : W → σ → τ → Prop)
    (Q : (t : T) → α t → W → Prop) (c : ℕ → Config T Op Ret α σ) (n : ℕ) (w : ℕ → W) (u : ℕ → τ) :
    Prop where
  /-- The states are related. -/
  rel : ∀ j ≤ n, Rel (w j) (c j).mem (u j)
  /-- The programs are permitted. -/
  permitted : ∀ j ≤ n, ∀ t, Permitted P (Q t) ((c j).prog t) (w j)
  /-- A step changes the world as the permissions say. -/
  answers : ∀ j < n, ∃ t o k r, (c j).prog t = .step o k ∧
    Config.StepBy Exec t (c j) (c (j + 1)) ∧ P.answers o (w j) r (w (j + 1))
  /-- A step is a step of the abstract reading. -/
  step : ∀ j < n, ∀ t, Config.StepBy Exec t (c j) (c (j + 1)) →
    Config.StepBy Exec' t ⟨(c j).prog, u j⟩ ⟨(c (j + 1)).prog, u (j + 1)⟩

/-- The operation of a thread that is about to move is allowed. -/
lemma Refinement.allowed {w : ℕ → W} {u : ℕ → τ} (h : Refinement P Exec Exec' Rel Q c n w u) {j : ℕ}
    (hj : j ≤ n) {t : T} {o : Op} {k : Ret o → Prog Op Ret (α t)} (hp : (c j).prog t = .step o k) :
    P.allowed (w j) o := by
  have hpermitted := h.permitted j hj t
  rw [hp] at hpermitted
  exact (hpermitted (w j) le_rfl).1

/-- The world grows. -/
lemma Refinement.le {w : ℕ → W} {u : ℕ → τ} (h : Refinement P Exec Exec' Rel Q c n w u) {i j : ℕ}
    (hij : i ≤ j) (hj : j ≤ n) : w i ≤ w j := by
  induction j with
  | zero => rw [Nat.le_zero.mp hij]
  | succ j ih =>
    rcases Nat.le_succ_iff.mp hij with hij | rfl
    · obtain ⟨t, o, k, r, -, -, hanswers⟩ := h.answers j hj
      exact (ih hij (by omega)).trans (P.grows o _ r _ hanswers)
    · exact le_rfl

/-- **Runs of permitted programs refine.**  If the two readings agree about every operation that is
allowed, then every run of permitted programs in the concrete reading has an abstract reading. -/
theorem exists_refinement
    (hexec : ∀ w s u o r s', Rel w s u → P.allowed w o → Exec o s r s' →
      ∃ w' u', P.answers o w r w' ∧ Exec' o u r u' ∧ Rel w' s' u')
    {w₀ : W} {u₀ : τ} (hrel : Rel w₀ (c 0).mem u₀)
    (hp : ∀ t, Permitted P (Q t) ((c 0).prog t) w₀) (hrun : Config.IsRun Exec c n) :
    ∃ w u, w 0 = w₀ ∧ u 0 = u₀ ∧ Refinement P Exec Exec' Rel Q c n w u := by
  induction n with
  | zero =>
    refine ⟨fun _ => w₀, fun _ => u₀, rfl, rfl, fun j hj => ?_, fun j hj => ?_,
      fun j hj => absurd hj (Nat.not_lt_zero j), fun j hj => absurd hj (Nat.not_lt_zero j)⟩
    · rwa [Nat.le_zero.mp hj]
    · rwa [Nat.le_zero.mp hj]
  | succ n ih =>
    obtain ⟨w, u, hw₀, hu₀, h⟩ := ih fun j hj => hrun j (by omega)
    obtain ⟨t, hstep⟩ := hrun n (Nat.lt_succ_self n)
    obtain ⟨o, k, r, hprog, hex, hprog'⟩ := hstep
    have hpermitted := h.permitted n le_rfl t
    rw [hprog] at hpermitted
    obtain ⟨hallowed, hrest⟩ := hpermitted (w n) le_rfl
    obtain ⟨w', u', hanswers, hex', hrel'⟩ :=
      hexec _ _ _ o r _ (h.rel n le_rfl) hallowed hex
    have hle : w n ≤ w' := P.grows o _ r w' hanswers
    have hstep' : Config.StepBy Exec' t ⟨(c n).prog, u n⟩ ⟨(c (n + 1)).prog, u'⟩ :=
      ⟨o, k, r, hprog, hex', hprog'⟩
    -- the readings of the first `n` steps stay as they are
    have hold : ∀ j, j ≤ n → Function.update w (n + 1) w' j = w j ∧
        Function.update u (n + 1) u' j = u j := fun j hj =>
      ⟨Function.update_of_ne (by omega) _ _, Function.update_of_ne (by omega) _ _⟩
    have hnew : Function.update w (n + 1) w' (n + 1) = w' ∧
        Function.update u (n + 1) u' (n + 1) = u' :=
      ⟨Function.update_self _ _ _, Function.update_self _ _ _⟩
    refine ⟨Function.update w (n + 1) w', Function.update u (n + 1) u',
      (hold 0 (Nat.zero_le n)).1.trans hw₀, (hold 0 (Nat.zero_le n)).2.trans hu₀, fun j hj => ?_,
      fun j hj v => ?_, fun j hj => ?_, fun j hj v hv => ?_⟩
    · rcases Nat.le_succ_iff.mp hj with hj | rfl
      · rw [(hold j hj).1, (hold j hj).2]
        exact h.rel j hj
      · rwa [hnew.1, hnew.2]
    · rcases Nat.le_succ_iff.mp hj with hj | rfl
      · rw [(hold j hj).1]
        exact h.permitted j hj v
      · rw [hnew.1, hprog']
        by_cases hvt : v = t
        · subst hvt
          rw [Function.update_self]
          exact hrest r w' hanswers
        · rw [Function.update_of_ne hvt]
          exact (h.permitted n le_rfl v).later hle
    · rcases Nat.lt_succ_iff_lt_or_eq.mp hj with hj | rfl
      · rw [(hold j hj.le).1, (hold (j + 1) hj).1]
        exact h.answers j hj
      · rw [(hold j le_rfl).1, hnew.1]
        exact ⟨t, o, k, r, hprog, ⟨o, k, r, hprog, hex, hprog'⟩, hanswers⟩
    · rcases Nat.lt_succ_iff_lt_or_eq.mp hj with hj | rfl
      · rw [(hold j hj.le).2, (hold (j + 1) hj).2]
        exact h.step j hj v hv
      · obtain rfl : v = t := hv.unique ⟨o, k, r, hprog, hex, hprog'⟩
        rwa [(hold j le_rfl).2, hnew.2]

end Runs

end AtomicProg
