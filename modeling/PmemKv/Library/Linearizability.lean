import PmemKv.Library.Sessions

/-!
# Linearizability

A sequential object is a relation `Seq call r a a'`: in the state `a` the call may reply `r` and
leave the state `a'`.  An order of the calls of a concurrent run linearizes their histories if
executing the calls in this order gives the replies of the histories, and no call comes before one
that had returned when it began.  Calls that have not returned may be part of the order, with any
reply.

`exists_linearizes` obtains such an order from linearization points: every call takes effect in one
of its own steps, and the abstract state changes in such steps only.
-/

namespace AtomicProg

variable {T Op ι A : Type} {Ret : Op → Type} {σ : Type}

/-! ## Orders from points -/

/-- Executing operations one after another leads from the state `a` to the state `a'`. -/
def Replays (step : ι → A → A → Prop) : A → List ι → A → Prop
  | a, [], a' => a' = a
  | a, o :: os, a' => ∃ a₁, step o a a₁ ∧ Replays step a₁ os a'

variable {step : ι → A → A → Prop} {a a' a'' : A}

/-- One more operation is executed. -/
lemma Replays.concat {os : List ι} {o : ι} (h : Replays step a os a') (ho : step o a' a'') :
    Replays step a (os ++ [o]) a'' := by
  induction os generalizing a with
  | nil =>
    obtain rfl : a' = a := h
    exact ⟨a'', ho, rfl⟩
  | cons o' os ih =>
    obtain ⟨a₁, ho', h⟩ := h
    exact ⟨a₁, ho', ih h⟩

/-- If at most one operation takes effect in each step of a run, each in at most one, and the other
steps change nothing, then the operations in the order of their effects replay the run. -/
theorem exists_order {abs : ℕ → A} {At : ℕ → ι → Prop} {n : ℕ}
    (huniq : ∀ j < n, ∀ o o', At j o → At j o' → o = o')
    (hstep : ∀ j < n, ∀ o, At j o → step o (abs j) (abs (j + 1)))
    (hidle : ∀ j < n, (∀ o, ¬At j o) → abs (j + 1) = abs j) :
    ∃ order : List ι, (∀ o ∈ order, ∃ j < n, At j o) ∧ (∀ j < n, ∀ o, At j o → o ∈ order) ∧
      (order.Pairwise fun o o' => ∃ j j', j < j' ∧ j' < n ∧ At j o ∧ At j' o') ∧
      Replays step (abs 0) order (abs n) := by
  induction n with
  | zero =>
    exact ⟨[], fun o ho => absurd ho List.not_mem_nil, fun j hj => absurd hj (Nat.not_lt_zero j),
      List.Pairwise.nil, rfl⟩
  | succ n ih =>
    obtain ⟨order, hmem, hall, hpair, hrep⟩ := ih (fun j hj => huniq j (by omega))
      (fun j hj => hstep j (by omega)) (fun j hj => hidle j (by omega))
    have hpair' : order.Pairwise fun o o' => ∃ j j', j < j' ∧ j' < n + 1 ∧ At j o ∧ At j' o' :=
      hpair.imp fun ⟨j, j', h₁, h₂, h₃⟩ => ⟨j, j', h₁, Nat.lt_succ_of_lt h₂, h₃⟩
    by_cases hex : ∃ o, At n o
    · obtain ⟨o, ho⟩ := hex
      refine ⟨order ++ [o], fun o' ho' => ?_, fun j hj o' ho' => ?_, ?_,
        hrep.concat (hstep n (Nat.lt_succ_self n) o ho)⟩
      · rcases List.mem_append.mp ho' with ho' | ho'
        · obtain ⟨j, hj, hjo⟩ := hmem o' ho'
          exact ⟨j, Nat.lt_succ_of_lt hj, hjo⟩
        · exact ⟨n, Nat.lt_succ_self n, List.mem_singleton.mp ho' ▸ ho⟩
      · rcases Nat.lt_succ_iff_lt_or_eq.mp hj with hj | rfl
        · exact List.mem_append_left _ (hall j hj o' ho')
        · rw [huniq j hj o' o ho' ho]
          simp
      · refine List.pairwise_append.mpr ⟨hpair', List.pairwise_singleton _ _,
          fun o' ho' o'' ho'' => ?_⟩
        obtain ⟨j, hj, hjo⟩ := hmem o' ho'
        exact ⟨j, n, hj, Nat.lt_succ_self n, hjo, List.mem_singleton.mp ho'' ▸ ho⟩
    · have hnone : ∀ o, ¬At n o := fun o ho => hex ⟨o, ho⟩
      refine ⟨order, fun o ho => ?_, fun j hj o ho => ?_, hpair', ?_⟩
      · obtain ⟨j, hj, hjo⟩ := hmem o ho
        exact ⟨j, Nat.lt_succ_of_lt hj, hjo⟩
      · rcases Nat.lt_succ_iff_lt_or_eq.mp hj with hj | rfl
        · exact hall j hj o ho
        · exact absurd ho (hnone o)
      · rw [hidle n (Nat.lt_succ_self n) hnone]
        exact hrep

/-! ## Linearizations of histories -/

section Histories

variable {Call Reply : Type} {hist : T → List (CallRecord Call Reply)}

/-- The record of an operation, given by its thread and its number in the thread's history. -/
def recordAt (hist : T → List (CallRecord Call Reply)) (o : T × ℕ) :
    Option (CallRecord Call Reply) :=
  (hist o.1)[o.2]?

/-- What an operation of the histories may do to the sequential object: if it has returned, with its
reply, otherwise with any. -/
def SeqStep (hist : T → List (CallRecord Call Reply)) (Seq : Call → Reply → A → A → Prop)
    (o : T × ℕ)
    (a a' : A) : Prop :=
  ∃ rec r, recordAt hist o = some rec ∧ (∀ e r', rec.ret = some (e, r') → r' = r) ∧
    Seq rec.call r a a'

/-- The order linearizes the histories, from the state `a` of the sequential object to `a'`. -/
structure Linearizes (hist : T → List (CallRecord Call Reply)) (Seq : Call → Reply → A → A → Prop)
    (a a' : A) (order : List (T × ℕ)) : Prop where
  /-- No operation occurs twice. -/
  nodup : order.Nodup
  /-- Every operation that has returned occurs. -/
  complete : ∀ o rec, recordAt hist o = some rec → rec.ret.isSome → o ∈ order
  /-- An operation does not come before one that had returned when it began. -/
  realTime : order.Pairwise fun o o' => ∀ rec rec', recordAt hist o = some rec →
    recordAt hist o' = some rec' → ∀ e r, rec'.ret = some (e, r) → rec.inv < e
  /-- Executing the operations in this order gives their replies. -/
  replays : Replays (SeqStep hist Seq) a order a'

variable [DecidableEq T] {Exec : (o : Op) → σ → Ret o → σ → Prop} {Local : Type}
  {prog : T → Call → Local → Prog Op Ret (Reply × Local)} {client : T → List Reply → Option Call}
  {c : ℕ → Config T Op Ret (fun _ => List Reply) σ} {n : ℕ} {rounds : T → ℕ} {start : T → Local}

/-- **Linearization points.**  If every operation takes effect in a step of its own thread between
its beginning and its return, each operation that has returned in exactly one, each of these steps
is a step of the sequential object, and the other steps of the run do not change the abstract state,
then there is a linearization. -/
theorem exists_linearizes (Seq : Call → Reply → A → A → Prop) (abs : ℕ → A) (At : ℕ → T × ℕ → Prop)
    (hhist : ∀ t, IsHistory Exec (prog t) (client t) c n t 0 (rounds t) (start t) [] (hist t))
    (hwithin : ∀ j < n, ∀ o, At j o → ∃ rec, recordAt hist o = some rec ∧ rec.inv ≤ j ∧
      j < rec.finish n ∧ Config.StepBy Exec o.1 (c j) (c (j + 1)))
    (honce : ∀ j < n, ∀ j' < n, ∀ o, At j o → At j' o → j = j')
    (hcomplete : ∀ o rec, recordAt hist o = some rec → rec.ret.isSome → ∃ j < n, At j o)
    (hstep : ∀ j < n, ∀ o, At j o → SeqStep hist Seq o (abs j) (abs (j + 1)))
    (hidle : ∀ j < n, (∀ o, ¬At j o) → abs (j + 1) = abs j) :
    ∃ order, Linearizes hist Seq (abs 0) (abs n) order := by
  have huniq : ∀ j < n, ∀ o o', At j o → At j o' → o = o' := by
    rintro j hj ⟨t, k⟩ ⟨t', k'⟩ ho ho'
    obtain ⟨rec, hrec, hinv, hfin, hby⟩ := hwithin j hj _ ho
    obtain ⟨rec', hrec', hinv', hfin', hby'⟩ := hwithin j hj _ ho'
    obtain rfl : t = t' := hby.unique hby'
    have hk : k = k' := (hhist t).eq_of_overlap hrec hrec' ⟨hinv, hfin⟩ ⟨hinv', hfin'⟩
    rw [hk]
  obtain ⟨order, hmem, hall, hpair, hrep⟩ := exists_order huniq hstep hidle
  refine ⟨order, ?_, fun o rec hrec hret => ?_, ?_, hrep⟩
  · refine hpair.imp ?_
    rintro o o' ⟨j, j', hlt, hj', ho, ho'⟩ rfl
    exact hlt.ne (honce j (by omega) j' hj' o ho ho')
  · obtain ⟨j, hj, ho⟩ := hcomplete o rec hrec hret
    exact hall j hj o ho
  · refine hpair.imp ?_
    rintro o o' ⟨j, j', hlt, hj', ho, ho'⟩ rec rec' hrec hrec' e r hret
    obtain ⟨rec₁, hrec₁, hinv, -, -⟩ := hwithin j (by omega) o ho
    obtain ⟨rec₂, hrec₂, -, hfin, -⟩ := hwithin j' hj' o' ho'
    rw [hrec] at hrec₁
    rw [hrec'] at hrec₂
    cases hrec₁
    cases hrec₂
    rw [CallRecord.finish, hret] at hfin
    have : j' < e := hfin
    omega

end Histories

end AtomicProg
