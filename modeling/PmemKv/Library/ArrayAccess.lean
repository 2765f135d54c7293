import PmemKv.Library.AtomicProg

/-!
# Programs that access arrays

A program over `Indexed Op` performs the operations `Op` and, in between, accesses entries of arrays
that all have one length; the entries themselves are values of the program.  Nothing keeps an access
inside the arrays.

`Guards n Q p q` says that `q` is the program `p` with every access checked against the length `n`,
and that `p` only returns values that satisfy `Q`.  A checked program that returns shows that `p`
returns the same value and stays inside the arrays; and as long as `p` stays inside, both do the
same.
-/

namespace AtomicProg

/-- An operation, or an access to the entries with one index. -/
inductive Indexed (Op : Type) : Type
  /-- An operation. -/
  | op (o : Op)
  /-- An access to the entries with the index `i`. -/
  | access (i : ℕ)

/-- What an operation answers; an access only leaves its index behind. -/
def Indexed.Ret {Op : Type} (Ret : Op → Type) : Indexed Op → Type
  | .op o => Ret o
  | .access _ => Unit

/-- A program with accesses to arrays. -/
abbrev IndexedProg (Op : Type) (Ret : Op → Type) (α : Type) : Type :=
  Prog (Indexed Op) (Indexed.Ret Ret) α

namespace Prog

variable {Op : Type} {Ret : Op → Type} {α β σ : Type}

/-- An access to the entries with the index `i`. -/
def access (i : ℕ) : IndexedProg Op Ret Unit := .step (.access i) .done

/-- A program without accesses. -/
def lift : Prog Op Ret α → IndexedProg Op Ret α
  | done a => done a
  | fault => fault
  | exhausted => exhausted
  | step o k => .step (.op o) fun r => (k r).lift

/-- An access does not change the state. -/
def execIndexed (exec : (o : Op) → σ → Ret o × σ) : (o : Indexed Op) → σ → Indexed.Ret Ret o × σ
  | .op o, s => exec o s
  | .access _, s => ((), s)

/-- The indices that a program accesses when it runs alone. -/
def accesses (exec : (o : Op) → σ → Ret o × σ) (p : IndexedProg Op Ret α) (s : σ) : List ℕ :=
  (trace (execIndexed exec) p s).filterMap fun o =>
    match o with
    | .op _ => none
    | .access i => some i

section Run

variable {exec : (o : Op) → σ → Ret o × σ} {p : IndexedProg Op Ret α}
  {f : α → IndexedProg Op Ret β} {s s' : σ} {a : α}

/-- A program without accesses runs as before. -/
lemma run_lift (p : Prog Op Ret α) (s : σ) : run (execIndexed exec) p.lift s = run exec p s := by
  induction p generalizing s with
  | done a => rfl
  | fault => rfl
  | exhausted => rfl
  | step o k ih => exact ih _ _

/-- A program without accesses accesses nothing. -/
@[simp] lemma accesses_lift (p : Prog Op Ret α) (s : σ) : accesses exec p.lift s = [] := by
  induction p generalizing s with
  | done a => rfl
  | fault => rfl
  | exhausted => rfl
  | step o k ih => exact ih _ _

/-- The accesses of a composition of which the first part returns. -/
lemma accesses_bind_of (h : run (execIndexed exec) p s = .done a s') :
    accesses exec (p >>= f) s = accesses exec p s ++ accesses exec (f a) s' := by
  rw [accesses, trace_bind_of h, List.filterMap_append]
  rfl

/-- The accesses of the first part of a composition. -/
lemma mem_accesses_bind {i : ℕ} (h : i ∈ accesses exec p s) : i ∈ accesses exec (p >>= f) s := by
  induction p generalizing s with
  | done a => cases h
  | fault => exact h
  | exhausted => exact h
  | step o k ih =>
    cases o with
    | op o => exact ih _ h
    | access j =>
      rcases List.mem_cons.mp h with rfl | h
      · exact List.mem_cons_self
      · exact List.mem_cons_of_mem _ (ih _ h)

end Run

/-- The second program is the first one, with every access checked against the length `n`; the first
one only returns values that satisfy `Q`. -/
inductive Guards (n : ℕ) (Q : α → Prop) : IndexedProg Op Ret α → Prog Op Ret α → Prop
  /-- Both return. -/
  | done (a : α) (h : Q a) : Guards n Q (done a) (done a)
  /-- Both violate an assertion. -/
  | fault : Guards n Q fault fault
  /-- Both run out of fuel. -/
  | exhausted : Guards n Q exhausted exhausted
  /-- Both perform the same operation. -/
  | op (o : Op) (k : Ret o → IndexedProg Op Ret α) (k' : Ret o → Prog Op Ret α)
    (h : ∀ r, Guards n Q (k r) (k' r)) : Guards n Q (.step (.op o) k) (.step o k')
  /-- The access is inside the arrays. -/
  | inside (i : ℕ) (k : Unit → IndexedProg Op Ret α) (q : Prog Op Ret α) (hi : i < n)
    (h : Guards n Q (k ()) q) : Guards n Q (.step (.access i) k) q
  /-- The access is outside. -/
  | outside (i : ℕ) (k : Unit → IndexedProg Op Ret α) (hi : n ≤ i) :
    Guards n Q (.step (.access i) k) fault

namespace Guards

variable {n : ℕ} {P : α → Prop} {Q : β → Prop} {p : IndexedProg Op Ret α} {q : Prog Op Ret α}
  {f : α → IndexedProg Op Ret β} {g : α → Prog Op Ret β} {exec : (o : Op) → σ → Ret o × σ}
  {s s' : σ}
  {a : α} {i : ℕ}

/-- The rule of sequential composition. -/
lemma bind (h : Guards n P p q) (hf : ∀ a, P a → Guards n Q (f a) (g a)) :
    Guards n Q (p >>= f) (q >>= g) := by
  induction h with
  | done a ha => exact hf a ha
  | fault => exact .fault
  | exhausted => exact .exhausted
  | op o k k' _ ih => exact .op o _ _ ih
  | inside i k q hi _ ih => exact .inside i _ _ hi ih
  | outside i k hi => exact .outside i _ hi

/-- The rule of consequence. -/
lemma mono {P' : α → Prop} (h : Guards n P p q) (hP : ∀ a, P a → P' a) : Guards n P' p q := by
  induction h with
  | done a ha => exact .done a (hP a ha)
  | fault => exact .fault
  | exhausted => exact .exhausted
  | op o k k' _ ih => exact .op o _ _ ih
  | inside i k q hi _ ih => exact .inside i _ _ hi ih
  | outside i k hi => exact .outside i _ hi

/-- A program without accesses needs no checks. -/
lemma lift (p : Prog Op Ret α) : Guards n (fun _ => True) p.lift p := by
  induction p with
  | done a => exact .done a trivial
  | fault => exact .fault
  | exhausted => exact .exhausted
  | step o k ih => exact .op o _ _ ih

/-- An assertion is the same with and without checks. -/
lemma check (c : Bool) : Guards n (fun _ => c = true) (Prog.check c : IndexedProg Op Ret Unit)
    (Prog.check c) := by
  cases c with
  | true => exact .done () rfl
  | false => exact .fault

/-- A checked access. -/
lemma access {q : Prog Op Ret β} {p : IndexedProg Op Ret β} (h : i < n → Guards n Q p q)
    (hout : n ≤ i → q = .fault) : Guards n Q (Prog.access i >>= fun _ => p) q := by
  by_cases hi : i < n
  · exact .inside i _ _ hi (h hi)
  · rw [hout (not_lt.mp hi)]
    exact .outside i _ (not_lt.mp hi)

/-- The rule of branching. -/
lemma ite (c : Prop) [Decidable c] {p' : IndexedProg Op Ret α} {q' : Prog Op Ret α}
    (ht : c → Guards n P p q) (hf : ¬c → Guards n P p' q') :
    Guards n P (if c then p else p') (if c then q else q') := by
  by_cases hc : c
  · rw [if_pos hc, if_pos hc]
    exact ht hc
  · rw [if_neg hc, if_neg hc]
    exact hf hc

/-- Accesses that the checked program does not make. -/
lemma skip {p : IndexedProg Op Ret Unit} {P : Unit → Prop} {f : Unit → IndexedProg Op Ret β}
    {q : Prog Op Ret β} (h : Guards n P p (Prog.done ())) (hf : P () → Guards n Q (f ()) q) :
    Guards n Q (p >>= f) q :=
  h.bind (g := fun _ => q) fun _ => hf

/-- If the checked program returns, the program returns the same value and stays inside the
arrays. -/
lemma of_run (h : Guards n P p q) (hrun : run exec q s = .done a s') :
    run (execIndexed exec) p s = .done a s' ∧ ∀ i ∈ accesses exec p s, i < n := by
  induction h generalizing s with
  | done b _ => exact ⟨hrun, fun i hi => absurd hi List.not_mem_nil⟩
  | fault => exact nomatch hrun
  | exhausted => exact nomatch hrun
  | op o k k' _ ih => exact ih _ hrun
  | inside i k q hi _ ih =>
    obtain ⟨hr, hall⟩ := ih hrun
    refine ⟨hr, fun j hj => ?_⟩
    rcases List.mem_cons.mp hj with rfl | hj
    · exact hi
    · exact hall j hj
  | outside i k hi => exact nomatch hrun

/-- As long as the program stays inside the arrays, the checked program does the same. -/
lemma run_eq (h : Guards n P p q) (hall : ∀ i ∈ accesses exec p s, i < n) :
    run (execIndexed exec) p s = run exec q s := by
  induction h generalizing s with
  | done b _ => rfl
  | fault => rfl
  | exhausted => rfl
  | op o k k' _ ih => exact ih _ hall
  | inside i k q hi _ ih => exact ih fun j hj => hall j (List.mem_cons_of_mem _ hj)
  | outside i k hi => exact absurd (hall i List.mem_cons_self) (not_lt.mpr hi)

end Guards

end Prog

end AtomicProg
