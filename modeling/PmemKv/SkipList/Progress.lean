import PmemKv.Library.Progress
import PmemKv.SkipList.Clients
import Mathlib.Tactic.Ring

/-!
# The calls of concurrent clients come to an end

A failed compare-and-swap on a link word means that the word has changed since it was loaded, hence
that another thread has linked a node on this level.  If all threads together own finitely many
nodes, this happens only so often, a walk along a level only meets so many nodes, and every loop of
the list ends after a number of rounds that depends on the number of nodes and on `kMaxHeight_`
alone.  The one operation that may fail without reason is the weak compare-exchange on
`max_height_`, so the memory counts how many of its failures are still to come, as it does for a
call that runs alone.
-/

namespace PmemKv

open AtomicProg AtomicProg.Prog LinkedChain

namespace InlineSkipList

/-! ## Operations with a bounded number of spurious failures -/

section Operations

variable {Node : Type} [DecidableEq Node]

/-- The weak compare-exchange fails although the height is the expected one. -/
def SpuriousFailure : (o : LinkOp Node) → Links Node → o.Ret → Prop
  | .casMaxHeight expected _, s, r => s.maxHeight = expected ∧ r.1 = false
  | .next _ _, _, _ => False
  | .setNext _ _ _, _, _ => False
  | .casNext _ _ _ _, _, _ => False
  | .loadMaxHeight, _, _ => False

/-- The operations of a call that runs next to others; a spurious failure uses up one of those to
come. -/
def ExecSpurious (o : LinkOp Node) (s : Solo Node) (r : o.Ret) (s' : Solo Node) : Prop :=
  Exec o s.links r s'.links ∧ s'.spurious ≤ s.spurious ∧
    (SpuriousFailure o s.links r → s'.spurious < s.spurious)

end Operations

variable {Key DecodedKey Node : Type} {L : InlineSkipList Key DecodedKey Node}
  {U : Finset Node} {F : ℕ} {rely guar : Node → Prop} {s s' : Solo Node}
  {chain chain' : ℕ → List Node} {a : Key} {i level fuel b : ℕ} {n p x : Node} {α : Type}
  {Q Q' : α → Solo Node → Prop}

/-- The links form a skip list of nodes of `U`, and at most `F` spurious failures are to come. -/
def ValidWithin (L : InlineSkipList Key DecodedKey Node) (U : Finset Node) (F : ℕ) (s : Solo Node) :
    Prop :=
  s.spurious ≤ F ∧ ∃ chain, L.Shape s.links chain ∧ ∀ i, ∀ n ∈ chain i, n ∈ U

/-- The list grows by nodes of `new`, and spurious failures are used up. -/
def GrowsSolo (L : InlineSkipList Key DecodedKey Node) (new : Node → Prop) (s s' : Solo Node) :
    Prop :=
  L.Grows new s.links s'.links ∧ s'.spurious ≤ s.spurious

lemma GrowsSolo.refl (new : Node → Prop) (s : Solo Node) : L.GrowsSolo new s s :=
  ⟨Grows.refl new s.links, le_rfl⟩

lemma GrowsSolo.trans {new : Node → Prop} {s₁ s₂ s₃ : Solo Node} (h : L.GrowsSolo new s₁ s₂)
    (h' : L.GrowsSolo new s₂ s₃) : L.GrowsSolo new s₁ s₃ :=
  ⟨h.1.trans h'.1, h'.2.trans h.2⟩

lemma GrowsSolo.mono {new new' : Node → Prop} (h : L.GrowsSolo new s s')
    (hnew : ∀ n, new n → new' n) : L.GrowsSolo new' s s' :=
  ⟨h.1.mono hnew, h.2⟩

/-- A list of nodes of `U` that grows by nodes of `U` stays one. -/
lemma ValidWithin.grows (h : L.ValidWithin U F s) (hgrow : L.GrowsSolo guar s s')
    (hguar : ∀ x, guar x → x ∈ U) : L.ValidWithin U F s' := by
  obtain ⟨hF, chain, hS, hU⟩ := h
  obtain ⟨chain', hS', he⟩ := hgrow.1 chain hS
  exact ⟨hgrow.2.trans hF, chain', hS', fun i n hn => (he.only i n hn).elim (hU i n) (hguar n)⟩

/-! ## The obligation to finish -/

section Rules

variable [DecidableEq Node]

/-- The obligation of a thread to come to an end within `b` operations next to threads that link
nodes of `rely`. -/
def FinishesIn (L : InlineSkipList Key DecodedKey Node) (U : Finset Node) (F : ℕ)
    (rely : Node → Prop)
    (Q : α → Solo Node → Prop) (b : ℕ) (p : ListProg Node α) (s : Solo Node) : Prop :=
  Finishes ExecSpurious (L.ValidWithin U F) (L.GrowsSolo rely) Q b p s

/-- What a thread knows about the memory at its next operation. -/
structure Later (L : InlineSkipList Key DecodedKey Node) (U : Finset Node) (F : ℕ)
    (rely : Node → Prop) (s : Solo Node) (chain : ℕ → List Node) (s' : Solo Node)
    (chain' : ℕ → List Node) : Prop where
  /-- The links form a skip list. -/
  shape : L.Shape s'.links chain'
  /-- Its nodes are nodes of `U`. -/
  mem : ∀ i, ∀ n ∈ chain' i, n ∈ U
  /-- The other threads have linked nodes of `rely`. -/
  grown : L.Extends rely s.links chain s'.links chain'
  /-- At most `F` spurious failures are to come, and not more than before. -/
  spurious_le : s'.spurious ≤ F ∧ s'.spurious ≤ s.spurious

omit [DecidableEq Node] in
lemma later (h : L.Shape s.links chain) (hR : L.GrowsSolo rely s s')
    (hI : L.ValidWithin U F s') : ∃ chain', L.Later U F rely s chain s' chain' := by
  obtain ⟨chain', hS', he⟩ := hR.1 chain h
  obtain ⟨hF, chain'', hS'', hU⟩ := hI
  obtain rfl := hS'.unique hS''
  exact ⟨chain', hS', hU, he, hF, hR.2⟩

lemma FinishesIn.within {b' : ℕ} {p : ListProg Node α} (h : L.FinishesIn U F rely Q b p s)
    (hb : b ≤ b') : L.FinishesIn U F rely Q b' p s :=
  Finishes.within h hb

lemma FinishesIn.mono {p : ListProg Node α} (h : L.FinishesIn U F rely Q b p s)
    (hQ : ∀ a s', Q a s' → Q' a s') : L.FinishesIn U F rely Q' b p s :=
  Finishes.mono h le_rfl hQ

lemma FinishesIn.bind_of {β : Type} {b' : ℕ} {p : ListProg Node α} {f : α → ListProg Node β}
    {Q' : β → Solo Node → Prop} (h : L.FinishesIn U F rely Q b p s)
    (hf : ∀ a s', Q a s' → L.FinishesIn U F rely Q' b' (f a) s') :
    L.FinishesIn U F rely Q' (b + b') (p >>= f) s :=
  Finishes.bind_of h hf

/-- A program that is safe on the links is safe when the spurious failures are counted. -/
lemma SafeIn.lift {p : ListProg Node α} {P : α → Links Node → Prop}
    (hs : L.SafeIn rely guar P p s.links) (hguar : ∀ x, guar x → x ∈ U) :
    Safe ExecSpurious (L.ValidWithin U F) (L.GrowsSolo rely) (L.GrowsSolo guar)
      (fun a s' => P a s'.links) p s := by
  refine Safe.lift Solo.links hs (fun o s r s' he => he.1) (fun s hI => ?_) (fun s s' hR => hR.1) ?_
  · obtain ⟨-, chain, hS, -⟩ := hI
    exact ⟨chain, hS⟩
  · intro o s r s' he hI _ hG
    have hgrow : L.GrowsSolo guar s s' := ⟨hG, he.2.1⟩
    exact ⟨hI.grows hgrow hguar, hgrow⟩

end Rules

/-! ## Measures -/

/-- The number of nodes of `U` before `x`. -/
def behind (L : InlineSkipList Key DecodedKey Node) (U : Finset Node) (x : Node) : ℕ :=
  (U.filter fun n => L.NodeLt n x).card

section Searches

variable [DecidableEq Node]

omit [DecidableEq Node] in
/-- A node of a level is on the level below at every later point. -/
lemma Later.mem_below (hl : L.Later U F rely s chain s' chain')
    (hx : x = L.head ∨ x ∈ chain (level + 1)) : x = L.head ∨ x ∈ chain' level :=
  hx.imp id fun hm => hl.shape.nested level x (hl.grown.sub _ x hm)

variable (hfuel : U.card + L.kMaxHeight ≤ fuel)

include hfuel

end Searches

/-! ## Insertions -/

section Insertions

variable [DecidableEq Node] {splice : Splice Node} {valid : Bool}

variable (hx : L.Insertable x) (hrely : ¬rely x) (hU : x ∈ U)

include hx hrely hU

end Insertions

/-! ## Calls -/

section Calls

variable {ι : Type} [DecidableEq Node] [DecidableEq ι] {q : Request Key Node ι}

variable {client : List (Reply Node) → Option (Request Key Node ι)} {own : Node → Prop}
  {replies : List (Reply Node)} {splices : ι → Splice Node}

end Calls

section Runs

variable {ι T : Type} [DecidableEq Node] [DecidableEq ι] [DecidableEq T]
  {client : T → List (Reply Node) → Option (Request Key Node ι)} {kBranching : ℕ}
  {env : T → Surroundings Node} {rounds : T → ℕ}
  {c : ℕ → Config T (LinkOp Node) LinkOp.Ret (fun _ => List (Reply Node)) (Solo Node)} {m : ℕ}

end Runs

end InlineSkipList

end PmemKv
