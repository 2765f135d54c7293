import PmemKv.SkipList.SearchSpec

/-!
# What concurrent insertions do to a list

`Grows new s s'` is what any number of steps of insertions can do to the memory: the chains keep
their nodes, every node that comes in satisfies `new`, `max_height_` does not decrease, and the
words of a node that is neither linked nor `new` stay.  A thread that inserts `x` guarantees `Grows`
for `x` alone and relies on `Grows` for the nodes of the other threads.

The rules for the atomic operations say what a thread may conclude from its last knowledge of the
list, whatever happened in between; `FindSpliceForLevel` is the first program they are used on.
-/

namespace PmemKv

open AtomicProg AtomicProg.Prog LinkedChain

namespace InlineSkipList

variable {Key DecodedKey Node : Type} (L : InlineSkipList Key DecodedKey Node)

/-- The chains of `s'` arise from those of `s` by linking nodes that satisfy `new`. -/
structure Extends (new : Node → Prop) (s : Links Node) (chain : ℕ → List Node) (s' : Links Node)
    (chain' : ℕ → List Node) : Prop where
  /-- No node is lost. -/
  sub : ∀ i, ∀ n ∈ chain i, n ∈ chain' i
  /-- Only nodes that satisfy `new` come in. -/
  only : ∀ i, ∀ n ∈ chain' i, n ∈ chain i ∨ new n
  /-- `max_height_` does not decrease. -/
  maxHeight_le : s.maxHeight ≤ s'.maxHeight
  /-- The words of a node that is neither linked nor `new` stay. -/
  frame : ∀ i n, n ≠ L.head → n ∉ chain i → ¬new n → s'.next n i = s.next n i

/-- The links form sorted, nested chains. -/
def Valid (s : Links Node) : Prop := ∃ chain, L.Shape s chain

/-- The memory changes as insertions of nodes that satisfy `new` may change it. -/
def Grows (new : Node → Prop) (s s' : Links Node) : Prop :=
  ∀ chain, L.Shape s chain → ∃ chain', L.Shape s' chain' ∧ L.Extends new s chain s' chain'

variable {L} {s s' s'' : Links Node} {chain chain' chain'' : ℕ → List Node} {a : Key} {i : ℕ}
  {n p x : Node} {new new' : Node → Prop}

namespace Extends

/-- Nothing happens. -/
lemma refl (new : Node → Prop) (s : Links Node) (chain : ℕ → List Node) :
    L.Extends new s chain s chain :=
  ⟨fun _ _ => id, fun _ _ => Or.inl, le_rfl, fun _ _ _ _ _ => rfl⟩

/-- Changes compose. -/
lemma trans (h : L.Extends new s chain s' chain') (h' : L.Extends new s' chain' s'' chain'') :
    L.Extends new s chain s'' chain'' where
  sub i n hn := h'.sub i n (h.sub i n hn)
  only i n hn := (h'.only i n hn).elim (h.only i n) Or.inr
  maxHeight_le := h.maxHeight_le.trans h'.maxHeight_le
  frame i n hhead hn hnew := by
    have hn' : n ∉ chain' i := fun hm => (h.only i n hm).elim hn hnew
    rw [h'.frame i n hhead hn' hnew, h.frame i n hhead hn hnew]

/-- More nodes may come in. -/
lemma mono (h : L.Extends new s chain s' chain') (hnew : ∀ n, new n → new' n) :
    L.Extends new' s chain s' chain' where
  sub := h.sub
  only i n hn := (h.only i n hn).imp id (hnew n)
  maxHeight_le := h.maxHeight_le
  frame i n hhead hn hn' := h.frame i n hhead hn fun hw => hn' (hnew n hw)

/-- A node that is not `new` is linked on the same levels. -/
lemma mem_iff (h : L.Extends new s chain s' chain') (hn : ¬new n) (i : ℕ) :
    n ∈ chain' i ↔ n ∈ chain i :=
  ⟨fun hm => (h.only i n hm).resolve_right hn, h.sub i n⟩

/-- An equal key stays stored. -/
lemma stored (h : L.Extends new s chain s' chain') (hst : L.Stored chain a) :
    L.Stored chain' a := by
  obtain ⟨b, hb, he⟩ := hst
  exact ⟨b, h.sub 0 b hb, he⟩

/-- Raising `max_height_`. -/
lemma raise (new : Node → Prop) (chain : ℕ → List Node) {m : ℕ} (hm : s.maxHeight ≤ m) :
    L.Extends new s chain { s with maxHeight := m } chain :=
  ⟨fun _ _ => id, fun _ _ => Or.inl, hm, fun _ _ _ _ _ => rfl⟩

variable [DecidableEq Node]

/-- Writing a word of `x`. -/
lemma setNext (chain : ℕ → List Node) (hx : new x) (v : Option Node) :
    L.Extends new s chain (s.setNext x i v) chain where
  sub _ _ := id
  only _ _ := Or.inl
  maxHeight_le := le_rfl
  frame j _ _ _ hn := Links.setNext_next_of_node_ne s i j v fun he => hn (he ▸ hx)

/-- Linking `x` on one level. -/
lemma link (chain : ℕ → List Node) (hx : new x) :
    L.Extends new s chain (s.setNext (L.predAt chain (L.key x) i) i (some x))
      (Function.update chain i (L.insertNode x (chain i))) where
  sub j n hn := by
    by_cases hj : j = i
    · subst hj
      simpa [Shape.mem_insertNode] using Or.inr hn
    · simpa [hj] using hn
  only j n hn := by
    by_cases hj : j = i
    · subst hj
      rw [Function.update_self, Shape.mem_insertNode] at hn
      exact hn.elim (fun he => Or.inr (he ▸ hx)) Or.inl
    · rw [Function.update_of_ne hj] at hn
      exact Or.inl hn
  maxHeight_le := le_rfl
  frame j n hhead hn _ := by
    by_cases hj : j = i
    · subst hj
      refine Links.setNext_next_of_node_ne s j j _ ?_
      rintro rfl
      exact (Shape.predAt_mem L chain (L.key x) j).elim hhead hn
    · exact Links.setNext_next_of_level_ne s _ n _ hj

end Extends

/-- The chains are determined by the links. -/
lemma Shape.unique (h : L.Shape s chain) (h' : L.Shape s chain') : chain = chain' := by
  funext i
  by_cases hi : i < L.kMaxHeight
  · exact (h.linked i hi).unique (h'.linked i hi)
  · have hempty : ∀ {c : ℕ → List Node}, L.Shape s c → c i = [] := fun hc =>
      List.eq_nil_iff_forall_not_mem.mpr fun n hn => hi (hc.lt_kMaxHeight hn)
    rw [hempty h, hempty h']

namespace Grows

lemma of_extends (h : L.Shape s chain) (h' : L.Shape s' chain')
    (he : L.Extends new s chain s' chain') : L.Grows new s s' := by
  intro c hc
  obtain rfl := h.unique hc
  exact ⟨chain', h', he⟩

lemma refl (new : Node → Prop) (s : Links Node) : L.Grows new s s :=
  fun chain h => ⟨chain, h, Extends.refl new s chain⟩

lemma trans (h : L.Grows new s s') (h' : L.Grows new s' s'') : L.Grows new s s'' := by
  intro chain hS
  obtain ⟨chain', hS', he⟩ := h chain hS
  obtain ⟨chain'', hS'', he'⟩ := h' chain' hS'
  exact ⟨chain'', hS'', he.trans he'⟩

lemma mono (h : L.Grows new s s') (hnew : ∀ n, new n → new' n) : L.Grows new' s s' := by
  intro chain hS
  obtain ⟨chain', hS', he⟩ := h chain hS
  exact ⟨chain', hS', he.mono hnew⟩

end Grows

/-- Bracketing a key is stable while the list grows. -/
lemma BracketsFrom.stable {splice : Splice Node} {m : ℕ}
    (hb : L.BracketsFrom s chain a splice m) (he : L.Extends new s chain s' chain') :
    L.BracketsFrom s' chain' a splice m :=
  hb.mono he.maxHeight_le he.sub

/-! ## The rules for the atomic operations -/

section Rules

variable [DecidableEq Node] {α : Type} {rely guar : Node → Prop} {Q : α → Links Node → Prop}

/-- The obligation of a thread that links nodes of `guar` next to threads that link nodes of
`rely`. -/
def SafeIn (L : InlineSkipList Key DecodedKey Node) (rely guar : Node → Prop)
    (Q : α → Links Node → Prop) (p : ListProg Node α) (s : Links Node) : Prop :=
  Safe Exec L.Valid (L.Grows rely) (L.Grows guar) Q p s

/-- The rule of sequential composition. -/
lemma SafeIn.bind_of {β : Type} {p : ListProg Node α} {f : α → ListProg Node β}
    {P : α → Links Node → Prop} {Q : β → Links Node → Prop} (h : L.SafeIn rely guar P p s)
    (hf : ∀ a s', P a s' → L.SafeIn rely guar Q (f a) s') : L.SafeIn rely guar Q (p >>= f) s :=
  Safe.bind_of h hf

/-- The rule of consequence. -/
lemma SafeIn.mono {p : ListProg Node α} {Q' : α → Links Node → Prop}
    (h : L.SafeIn rely guar Q p s) (hQ : ∀ a s', Q a s' → Q' a s') : L.SafeIn rely guar Q' p s :=
  Safe.mono h hQ

/-- When a program returns, the list has grown by nodes of its own and of the other threads. -/
lemma SafeIn.track {p : ListProg Node α} (h : L.SafeIn rely guar Q p s) (hS : L.Shape s chain) :
    L.SafeIn rely guar
      (fun a s' => Q a s' ∧ ∃ chain', L.Shape s' chain' ∧
        L.Extends (fun n => rely n ∨ guar n) s chain s' chain') p s := by
  have ht := Safe.track (R := L.Grows fun n => rely n ∨ guar n) h (Grows.refl _)
    (fun _ _ _ => Grows.trans) (fun _ _ hR => hR.mono fun _ => Or.inl)
    fun _ _ hG => hG.mono fun _ => Or.inr
  exact SafeIn.mono ht fun a s' ⟨hQ, hgrow⟩ => ⟨hQ, hgrow chain hS⟩

/-- Loading a link word. -/
lemma safe_next (h : L.Shape s chain) {f : Option Node → ListProg Node α}
    (hf : ∀ s' chain', L.Shape s' chain' → L.Extends rely s chain s' chain' →
      L.SafeIn rely guar Q (f (s'.next n i)) s') :
    L.SafeIn rely guar Q (next n i >>= f) s := by
  rintro s₁ hR hI r _ ⟨rfl, rfl⟩
  obtain ⟨chain₁, hS₁, he⟩ := hR chain h
  exact ⟨hI, Grows.refl guar _, hf _ chain₁ hS₁ he⟩

/-- Loading `max_height_`. -/
lemma safe_getMaxHeight (h : L.Shape s chain) {f : ℕ → ListProg Node α}
    (hf : ∀ s' chain', L.Shape s' chain' → L.Extends rely s chain s' chain' →
      L.SafeIn rely guar Q (f s'.maxHeight) s') :
    L.SafeIn rely guar Q (getMaxHeight >>= f) s := by
  rintro s₁ hR hI r _ ⟨rfl, rfl⟩
  obtain ⟨chain₁, hS₁, he⟩ := hR chain h
  exact ⟨hI, Grows.refl guar _, hf _ chain₁ hS₁ he⟩

/-- Raising `max_height_` by a weak compare-exchange that may fail. -/
lemma safe_casMaxHeight (h : L.Shape s chain) {e d : ℕ} (hed : e ≤ d) (hd : d ≤ L.kMaxHeight)
    {f : Bool × ℕ → ListProg Node α}
    (hf : ∀ s' chain', L.Shape s' chain' → L.Extends rely s chain s' chain' →
      L.SafeIn rely guar Q (f (false, s'.maxHeight)) s')
    (ht : ∀ s' chain', L.Shape s' chain' → L.Extends rely s chain s' chain' →
      s'.maxHeight = d → L.SafeIn rely guar Q (f (true, e)) s') :
    L.SafeIn rely guar Q (casMaxHeight e d >>= f) s := by
  rintro s₁ hR hI r s₂ hexec
  obtain ⟨chain₁, hS₁, he⟩ := hR chain h
  rcases hexec with ⟨heq, rfl, rfl⟩ | ⟨rfl, rfl⟩
  · have hle : s₁.maxHeight ≤ d := heq ▸ hed
    have hS₂ := hS₁.raise hle hd
    exact ⟨⟨chain₁, hS₂⟩, Grows.of_extends hS₁ hS₂ (Extends.raise guar chain₁ hle),
      ht _ chain₁ hS₂ (he.trans (Extends.raise rely chain₁ hle)) rfl⟩
  · exact ⟨hI, Grows.refl guar _, hf _ chain₁ hS₁ he⟩

/-- Writing an own word on a level on which the own node is not linked. -/
lemma safe_setNext (h : L.Shape s chain) (hx : x ≠ L.head) (hxi : x ∉ chain i) (hrely : ¬rely x)
    (hguar : guar x) {v : Option Node} {f : Unit → ListProg Node α}
    (hf : ∀ s' chain', L.Shape (s'.setNext x i v) chain' → L.Extends rely s chain s' chain' →
      L.SafeIn rely guar Q (f ()) (s'.setNext x i v)) :
    L.SafeIn rely guar Q (setNext x i v >>= f) s := by
  rintro s₁ hR hI r _ rfl
  obtain ⟨chain₁, hS₁, he⟩ := hR chain h
  have hS₂ := hS₁.setNext hx (fun hm => hxi ((he.mem_iff hrely i).mp hm)) v
  exact ⟨⟨chain₁, hS₂⟩, Grows.of_extends hS₁ hS₂ (Extends.setNext chain₁ hguar v),
    hf s₁ chain₁ hS₂ he⟩

/-- Linking the own node by a compare-and-swap: if the word of a node to the left of the key still
holds a node strictly to its right, these are the neighbours of the key. -/
lemma safe_casNext (h : L.Shape s chain) (hx : x ≠ L.head) (hxi : x ∉ chain i) (hrely : ¬rely x)
    (hguar : guar x) (hlt : i < L.unstashHeight x) (hmax : L.unstashHeight x ≤ s.maxHeight)
    (hbelow : i = 0 ∨ x ∈ chain (i - 1)) {m : Option Node} (hp : p = L.head ∨ p ∈ chain i)
    (hleft : L.Left (L.key x) p) (hright : ∀ b, m = some b → L.NodeLt x b) (hown : s.next x i = m)
    {f : Bool → ListProg Node α}
    (hf : ∀ s' chain', L.Shape s' chain' → L.Extends rely s chain s' chain' →
      L.SafeIn rely guar Q (f false) s')
    (ht : ∀ s' chain' s'' chain'', L.Extends rely s chain s' chain' → L.Shape s'' chain'' →
      L.Extends (· = x) s' chain' s'' chain'' → x ∈ chain'' i → (∀ j ≠ i, chain'' j = chain' j) →
      L.SafeIn rely guar Q (f true) s'') :
    L.SafeIn rely guar Q (casNext p i m (some x) >>= f) s := by
  rintro s₁ hR hI r s₂ hexec
  obtain ⟨chain₁, hS₁, he⟩ := hR chain h
  rcases hexec with ⟨hnext, rfl, rfl⟩ | ⟨-, rfl, rfl⟩
  · have hk : i < L.kMaxHeight := lt_of_lt_of_le hlt
      ((hmax.trans he.maxHeight_le).trans hS₁.maxHeight_le)
    have hxi₁ : x ∉ chain₁ i := fun hm => hxi ((he.mem_iff hrely i).mp hm)
    have hR₁ : L.Right (L.key x) (s₁.next p i) := fun b hb =>
      (hright b (hnext.symm.trans hb)).asymm
    obtain ⟨hpred, hsucc⟩ := hS₁.eq_neighbours hk (hp.imp id (he.sub i p)) hleft hR₁
    -- a node with an equal key on this level would be the successor, which is strictly greater
    have hdup : ∀ b ∈ chain₁ i, ¬L.cmp.Equiv (L.key x) (L.key b) := by
      intro b hb hxb
      have hsb := hS₁.succAt_eq_of_equiv hb hxb
      rw [← hsucc, hnext] at hsb
      exact (Comparator.equiv_iff.mp hxb).1 (hright b hsb)
    have hbelow₁ : i = 0 ∨ x ∈ chain₁ (i - 1) := hbelow.imp id (he.sub _ x)
    have hown₁ : s₁.next x i = L.succAt chain₁ (L.key x) i := by
      rw [he.frame i x hx hxi hrely, hown, ← hsucc, hnext]
    have hS₂ := hS₁.link hx hxi₁ hbelow₁ hlt (hmax.trans he.maxHeight_le) hdup hown₁
    rw [← hpred] at hS₂
    have hE₂ : ∀ {w : Node → Prop}, w x → L.Extends w s₁ chain₁ (s₁.setNext p i (some x))
        (Function.update chain₁ i (L.insertNode x (chain₁ i))) := fun hw => by
      rw [hpred]
      exact Extends.link chain₁ hw
    refine ⟨⟨_, hS₂⟩, Grows.of_extends hS₁ hS₂ (hE₂ hguar),
      ht s₁ chain₁ _ _ he hS₂ (hE₂ rfl) ?_ fun j hj => Function.update_of_ne hj _ _⟩
    rw [Function.update_self, Shape.mem_insertNode]
    exact Or.inl rfl
  · exact ⟨hI, Grows.refl guar _, hf _ chain₁ hS₁ he⟩

end Rules

/-! ## `FindSpliceForLevel` -/

/-- The order of predecessors is transitive. -/
lemma LePrev.trans {q : Node} (h : L.LePrev n p) (h' : L.LePrev p q) : L.LePrev n q := by
  rcases h with h | ⟨hne, hnp⟩
  · exact Or.inl h
  · obtain ⟨hq, hpq⟩ := h'.resolve_left hne
    exact Or.inr ⟨hq, fun hlt => hpq (Comparator.lt_of_lt_of_not_lt hlt hnp)⟩

/-- The successor of a node to the left of the key is not behind a node to the right of the key. -/
lemma Shape.leNext_next (h : L.Shape s chain) (hi : i < L.kMaxHeight)
    (hp : p = L.head ∨ p ∈ chain i) (hleft : L.Left a p) {m : Option Node}
    (hm : ∀ b, m = some b → b ∈ chain i) (hright : L.Right a m) : L.LeNext (s.next p i) m := by
  intro b hb
  obtain ⟨l₁, l₂, hl, hlast⟩ := exists_getLastD_eq (List.mem_cons.mpr hp)
  have hnext := (h.next_of_split hi hl hlast).2
  have hs := h.sorted i
  have hhead := h.head_notMem i
  have hbm := hm b hb
  rw [hl] at hs hhead hbm
  have hb₂ : b ∈ l₂ := by
    refine (List.mem_append.mp hbm).resolve_left fun hb₁ => hright b hb ?_
    -- a node of the part that ends in `p` is not behind `p`
    rcases List.eq_nil_or_concat' l₁ with rfl | ⟨l, q, rfl⟩
    · exact absurd hb₁ List.not_mem_nil
    · obtain rfl : q = p := by rw [← hlast, List.getLastD_concat]
      have hqa : L.cmp.Lt (L.key q) a := hleft.resolve_left fun he => hhead (by simp [he])
      rcases List.mem_append.mp hb₁ with hbl | hbq
      · have hbq : L.NodeLt b q := by
          rw [List.append_assoc] at hs
          exact (List.pairwise_append.mp hs).2.2 b hbl q (by simp)
        exact hbq.trans hqa
      · rwa [List.mem_singleton.mp hbq]
  rw [hnext]
  cases l₂ with
  | nil => exact absurd hb₂ List.not_mem_nil
  | cons c l =>
    refine ⟨c, rfl, ?_⟩
    rcases List.mem_cons.mp hb₂ with rfl | hbl
    · exact Comparator.lt_irrefl _
    · have hc := (List.pairwise_append.mp hs).2.1
      exact ((List.pairwise_cons.mp hc).1 b hbl).asymm

/-- What `FindSpliceForLevel` finds from `before` on: a pair of nodes around the key, not to the
left of `before` and not to the right of any node that bracketed the key when it started. -/
structure Found (L : InlineSkipList Key DecodedKey Node) (chain chain' : ℕ → List Node) (a : Key)
    (i : ℕ) (before : Node) (r : Node × Option Node) : Prop where
  /-- The predecessor is the head or a node of the level. -/
  prev_mem : r.1 = L.head ∨ r.1 ∈ chain' i
  /-- The predecessor stands to the left of the key. -/
  left : L.Left a r.1
  /-- The predecessor is not to the left of the start. -/
  lePrev : L.LePrev before r.1
  /-- The successor is a node of the level. -/
  next_mem : ∀ n, r.2 = some n → n ∈ chain' i
  /-- The successor stands to the right of the key. -/
  right : L.Right a r.2
  /-- The successor is not behind other nodes to the right of the key. -/
  leNext : ∀ m, (∀ b, m = some b → b ∈ chain i) → L.Right a m → L.LeNext r.2 m

variable [DecidableEq Node] {rely guar : Node → Prop}

/-- `FindSpliceForLevel` next to insertions. -/
theorem findSpliceForLevel_safe (h : L.Shape s chain) (hi : i < L.kMaxHeight) {before : Node}
    {after : Option Node} {fuel : ℕ} (hb : before = L.head ∨ before ∈ chain i)
    (hleft : L.Left a before) (hafter : L.Right a after) :
    L.SafeIn rely guar
      (fun r s' => ∃ chain', L.Shape s' chain' ∧ L.Extends rely s chain s' chain' ∧
        L.Found chain chain' a i before r)
      (L.findSpliceForLevel (L.cmp.decodeKey a) after i fuel before) s := by
  induction fuel generalizing s chain before with
  | zero => trivial
  | succ fuel ih =>
    rw [findSpliceForLevel]
    refine safe_next h fun s₁ chain₁ hS₁ he => ?_
    have hb₁ : before = L.head ∨ before ∈ chain₁ i := hb.imp id (he.sub i before)
    rw [check_bind_of (hS₁.isSorted_next hi hb₁), check_bind_of (keyIsAfterNode_of_left hleft)]
    split
    · next hstop =>
      have hright : L.Right a (s₁.next before i) := right_of_stops hafter hstop
      refine ⟨chain₁, hS₁, he, hb₁, hleft, ?_, fun n hn => (hS₁.next_mem hi hb₁ hn).1, hright,
        fun m hm hmr => hS₁.leNext_next hi hb₁ hleft (fun b hb => he.sub i b (hm b hb)) hmr⟩
      rcases hb₁ with hh | hm
      · exact Or.inl hh
      · exact Or.inr ⟨fun hh => hS₁.head_notMem i (hh ▸ hm), Comparator.lt_irrefl _⟩
    · next hgo =>
      cases hn : s₁.next before i with
      | none => simp [hn] at hgo
      | some n =>
        rw [hn] at hgo
        have hlt : L.cmp.Lt (L.key n) a := by
          have := (Bool.or_eq_false_iff.mp (Bool.eq_false_iff.mpr hgo)).2
          simpa using this
        obtain ⟨hmem, hbn⟩ := hS₁.next_mem hi hb₁ hn
        have hstep : L.LePrev before n :=
          hbn.imp id fun hbn => ⟨fun hh => hS₁.head_notMem i (hh ▸ hmem), hbn.asymm⟩
        refine (ih hS₁ (Or.inr hmem) (Or.inr hlt)).mono ?_
        rintro r s₂ ⟨chain₂, hS₂, he₂, hf⟩
        exact ⟨chain₂, hS₂, he.trans he₂,
          { hf with
            lePrev := hstep.trans hf.lePrev
            leNext := fun m hm => hf.leNext m fun b hb => he.sub i b (hm b hb) }⟩

end InlineSkipList

end PmemKv
