import PmemKv.SkipList.Insert
import PmemKv.Library.LinkedChain
import Mathlib.Data.List.Pairwise

/-!
# The shape of a skip list

`Shape L s chain` says that the links of `s` form, on every level `i`, a chain from the head through
exactly the nodes of `chain i`; that every chain is strictly sorted; that a node on level `i + 1` is
also on level `i`; and that no node is on more levels than its height, nor higher than
`max_height_`.  It holds of the list a constructor leaves behind, it is kept when `max_height_`
grows and when a word of a node outside its chain is written, and it is kept when a node is linked
in between its neighbours on one level, which is the only way the source changes a chain.

The neighbours of a search key on a level are `predAt` and `succAt`.
-/

namespace PmemKv

open LinkedChain

namespace InlineSkipList

variable {Key DecodedKey Node : Type} (L : InlineSkipList Key DecodedKey Node)

/-- The chain of level `i` from the head consists of the nodes of `l`. -/
def LevelChain (s : Links Node) (i : ℕ) (l : List Node) : Prop :=
  Linked (fun n => s.next n i) L.head l

/-- Node order: strictly smaller keys. -/
def NodeLt (a b : Node) : Prop := L.cmp.Lt (L.key a) (L.key b)

instance (a b : Node) : Decidable (L.NodeLt a b) :=
  inferInstanceAs (Decidable (L.cmp.Lt (L.key a) (L.key b)))

/-- The nodes whose key is strictly smaller than `a`. -/
def isBefore (a : Key) (n : Node) : Bool := decide (L.cmp.Lt (L.key n) a)

/-- The node is linked on level `i`. -/
def LinkedAt (s : Links Node) (i : ℕ) (n : Node) : Prop := ∃ l, L.LevelChain s i l ∧ n ∈ l

/-- The links of `s` form on each level `i` the strictly sorted chain `chain i`. -/
structure Shape (s : Links Node) (chain : ℕ → List Node) : Prop where
  /-- Every level is a finite chain. -/
  linked : ∀ i < L.kMaxHeight, L.LevelChain s i (chain i)
  /-- Every chain is strictly sorted. -/
  sorted : ∀ i, (chain i).Pairwise L.NodeLt
  /-- The head is in no chain. -/
  head_notMem : ∀ i, L.head ∉ chain i
  /-- A node of a level is on the level below. -/
  nested : ∀ i, ∀ n ∈ chain (i + 1), n ∈ chain i
  /-- A node is only on levels below its height, and `max_height_` covers its height. -/
  height : ∀ i, ∀ n ∈ chain i, i < L.unstashHeight n ∧ L.unstashHeight n ≤ s.maxHeight
  /-- `max_height_` is positive. -/
  maxHeight_pos : 0 < s.maxHeight
  /-- `max_height_` is at most `kMaxHeight_`. -/
  maxHeight_le : s.maxHeight ≤ L.kMaxHeight

/-- The last node of level `i` whose key is smaller than `a`, or the head. -/
def predAt (chain : ℕ → List Node) (a : Key) (i : ℕ) : Node :=
  (before (L.isBefore a) (chain i)).getLastD L.head

/-- The first node of level `i` whose key is not smaller than `a`. -/
def succAt (chain : ℕ → List Node) (a : Key) (i : ℕ) : Option Node :=
  (atLeast (L.isBefore a) (chain i)).head?

/-- A chain with the node `x` put at its place. -/
def insertNode (x : Node) (l : List Node) : List Node :=
  before (L.isBefore (L.key x)) l ++ x :: atLeast (L.isBefore (L.key x)) l

/-- `a` may stand to the left of the key: it is the head or its key is smaller. -/
def Left (a : Key) (p : Node) : Prop := p = L.head ∨ L.cmp.Lt (L.key p) a

/-- `n` may stand to the right of the key: it is null or its key is not smaller. -/
def Right (a : Key) (n : Option Node) : Prop := ∀ m, n = some m → ¬L.cmp.Lt (L.key m) a

variable {L} {s : Links Node} {chain : ℕ → List Node} {a : Key} {i : ℕ} {n p x : Node}

@[simp] lemma isBefore_iff : L.isBefore a n = true ↔ L.cmp.Lt (L.key n) a := by simp [isBefore]

lemma isBefore_eq_false_iff : L.isBefore a n = false ↔ ¬L.cmp.Lt (L.key n) a := by simp [isBefore]

/-- What comes before a node that comes before the key comes before the key. -/
lemma isBefore_of_nodeLt (a : Key) (b c : Node) (hbc : L.NodeLt b c)
    (hc : L.isBefore a c = true) : L.isBefore a b = true :=
  isBefore_iff.mpr (hbc.trans (isBefore_iff.mp hc))

/-- A strictly sorted chain holds no node twice. -/
lemma nodup_of_pairwise_nodeLt {l : List Node} (h : l.Pairwise L.NodeLt) : l.Nodup :=
  h.imp fun hab => by
    rintro rfl
    exact Comparator.lt_irrefl _ hab

lemma right_none : L.Right a none := fun _ h => nomatch h

lemma right_some : L.Right a (some n) ↔ ¬L.cmp.Lt (L.key n) a :=
  ⟨fun h => h n rfl, fun h _ hm => Option.some.inj hm ▸ h⟩

/-- The chain of a level is unique. -/
lemma LevelChain.unique {l₁ l₂ : List Node} (h₁ : L.LevelChain s i l₁) (h₂ : L.LevelChain s i l₂) :
    l₁ = l₂ :=
  Linked.unique h₁ h₂

namespace Shape

/-- A node of a chain is on a level in use. -/
lemma lt_maxHeight (h : L.Shape s chain) (hn : n ∈ chain i) : i < s.maxHeight :=
  lt_of_lt_of_le (h.height i n hn).1 (h.height i n hn).2

/-- A node of a chain is on a level of the list. -/
lemma lt_kMaxHeight (h : L.Shape s chain) (hn : n ∈ chain i) : i < L.kMaxHeight :=
  lt_of_lt_of_le (h.lt_maxHeight hn) h.maxHeight_le

/-- A node of a chain is on all levels below. -/
lemma mem_of_le (h : L.Shape s chain) {j : ℕ} (hij : i ≤ j) (hn : n ∈ chain j) : n ∈ chain i := by
  induction j with
  | zero => rwa [Nat.le_zero.mp hij]
  | succ j ih =>
    rcases Nat.le_succ_iff.mp hij with hij | rfl
    · exact ih hij (h.nested j n hn)
    · exact hn

/-- Being linked on a level of the list is being in its chain. -/
lemma linkedAt_iff (h : L.Shape s chain) (hi : i < L.kMaxHeight) :
    L.LinkedAt s i n ↔ n ∈ chain i := by
  constructor
  · rintro ⟨l, hl, hn⟩
    rwa [(h.linked i hi).unique hl]
  · exact fun hn => ⟨chain i, h.linked i hi, hn⟩

/-- Nodes of one chain whose keys compare equal are the same. -/
lemma eq_of_equiv (h : L.Shape s chain) {b c : Node} (hb : b ∈ chain i) (hc : c ∈ chain i)
    (he : L.cmp.Equiv (L.key b) (L.key c)) : b = c := by
  obtain ⟨h₁, h₂⟩ := Comparator.equiv_iff.mp he
  by_contra hne
  have hsym : (chain i).Pairwise fun b c => L.NodeLt b c ∨ L.NodeLt c b :=
    (h.sorted i).imp Or.inl
  have : Std.Symm fun b c => L.NodeLt b c ∨ L.NodeLt c b := ⟨fun _ _ => Or.symm⟩
  exact (hsym.forall hb hc hne).elim h₁ h₂

/-- The successor of a node to the left of the key on one level, when it may stand to the right,
makes the two the neighbours of the key. -/
lemma eq_neighbours (h : L.Shape s chain) (hi : i < L.kMaxHeight)
    (hp : p = L.head ∨ p ∈ chain i) (hleft : L.Left a p) (hright : L.Right a (s.next p i)) :
    p = L.predAt chain a i ∧ s.next p i = L.succAt chain a i := by
  have hp' : p = L.head ∨ (p ∈ chain i ∧ L.isBefore a p = true) := by
    rcases hp with hp | hp
    · exact Or.inl hp
    · rcases hleft with hl | hl
      · exact Or.inl hl
      · exact Or.inr ⟨hp, isBefore_iff.mpr hl⟩
  exact Linked.eq_cut (h.linked i hi) (h.sorted i) (isBefore_of_nodeLt a) hp' (h.head_notMem i)
    fun c hc => isBefore_eq_false_iff.mpr (hright c hc)

/-- The predecessor of a key on a level is the head or a node of the level. -/
lemma predAt_mem (L : InlineSkipList Key DecodedKey Node) (chain : ℕ → List Node) (a : Key)
    (i : ℕ) : L.predAt chain a i = L.head ∨ L.predAt chain a i ∈ chain i :=
  (getLastD_eq_or_mem _ _).imp id fun h => (List.takeWhile_prefix _).subset h

/-- The predecessor of a key stands to its left. -/
lemma predAt_left (L : InlineSkipList Key DecodedKey Node) (chain : ℕ → List Node) (a : Key)
    (i : ℕ) : L.Left a (L.predAt chain a i) :=
  (getLastD_eq_or_mem _ _).imp id fun h => isBefore_iff.mp (of_mem_before h)

/-- The successor of a key on a level is a node of the level. -/
lemma succAt_mem (hn : L.succAt chain a i = some n) : n ∈ chain i :=
  (List.dropWhile_suffix _).subset (List.mem_of_head? hn)

/-- The successor of a key stands to its right. -/
lemma succAt_right (h : L.Shape s chain) : L.Right a (L.succAt chain a i) := fun _ hn =>
  isBefore_eq_false_iff.mp
    (of_mem_atLeast (h.sorted i) (isBefore_of_nodeLt a) (List.mem_of_head? hn))

/-- The successor of the predecessor is the successor. -/
lemma next_predAt (h : L.Shape s chain) (hi : i < L.kMaxHeight) :
    s.next (L.predAt chain a i) i = L.succAt chain a i := by
  have hl := h.linked i hi
  rw [← before_append_atLeast (L.isBefore a) (chain i)] at hl
  exact hl.next_getLastD

/-- The last node of an initial part of a chain, or the head, is on the level, and the rest of the
chain comes behind it. -/
lemma next_of_split (h : L.Shape s chain) (hi : i < L.kMaxHeight) {l₁ l₂ : List Node}
    (hl : chain i = l₁ ++ l₂) (hx : l₁.getLastD L.head = x) :
    (x = L.head ∨ x ∈ chain i) ∧ s.next x i = l₂.head? := by
  have hlinked := h.linked i hi
  rw [hl] at hlinked ⊢
  refine ⟨?_, by rw [← hx, Linked.next_getLastD hlinked]⟩
  exact (getLastD_eq_or_mem l₁ L.head).imp (hx ▸ ·) fun hm => List.mem_append_left _ (hx ▸ hm)

/-- The node behind a node of a chain is in the chain and has a greater key. -/
lemma next_mem (h : L.Shape s chain) (hi : i < L.kMaxHeight) (hp : p = L.head ∨ p ∈ chain i)
    (hn : s.next p i = some n) : n ∈ chain i ∧ (p = L.head ∨ L.NodeLt p n) := by
  obtain ⟨l₁, l₂, hl, hlast⟩ := exists_getLastD_eq (List.mem_cons.mpr hp)
  have hhead : l₂.head? = some n := (h.next_of_split hi hl hlast).2.symm.trans hn
  have hs := h.sorted i
  rw [hl] at hs ⊢
  have hmem : n ∈ l₂ := List.mem_of_head? hhead
  refine ⟨List.mem_append_right _ hmem, ?_⟩
  rcases getLastD_eq_or_mem l₁ L.head with he | he
  · exact Or.inl (hlast ▸ he)
  · exact Or.inr ((List.pairwise_append.mp hs).2.2 p (hlast ▸ he) n hmem)

/-! ### How the shape is kept -/

/-- The constructor leaves an empty list behind. -/
lemma construct [DecidableEq Node] (raw : Node → ℕ → Option Node) (hk : 0 < L.kMaxHeight) :
    L.Shape (L.construct raw) fun _ => [] where
  linked i hi := by simp [LevelChain, InlineSkipList.construct, hi]
  sorted _ := List.Pairwise.nil
  head_notMem _ := List.not_mem_nil
  nested _ n hn := absurd hn List.not_mem_nil
  height _ n hn := absurd hn List.not_mem_nil
  maxHeight_pos := Nat.one_pos
  maxHeight_le := hk

/-- The shape is kept when `max_height_` grows. -/
lemma raise (h : L.Shape s chain) {m : ℕ} (hm : s.maxHeight ≤ m) (hk : m ≤ L.kMaxHeight) :
    L.Shape { s with maxHeight := m } chain :=
  { h with
    height := fun i n hn => ⟨(h.height i n hn).1, (h.height i n hn).2.trans hm⟩
    maxHeight_pos := lt_of_lt_of_le h.maxHeight_pos hm
    maxHeight_le := hk
    linked := h.linked }

/-- The shape is kept when a word of a node outside the chain of its level is written. -/
lemma setNext [DecidableEq Node] (h : L.Shape s chain) (hx : x ≠ L.head) (hxi : x ∉ chain i)
    (v : Option Node) :
    L.Shape (s.setNext x i v) chain :=
  { h with
    linked := fun j hj => by
      refine (h.linked j hj).congr fun b hb => ?_
      by_cases hij : j = i
      · subst hij
        refine Links.setNext_next_of_node_ne s j j v ?_
        rintro rfl
        rcases List.mem_cons.mp hb with hb | hb
        · exact hx hb
        · exact hxi hb
      · exact Links.setNext_next_of_level_ne s x b v hij }

/-- A sorted chain stays sorted when a node with a new key is put at its place. -/
lemma insertNode_sorted (h : L.Shape s chain)
    (hdup : ∀ b ∈ chain i, ¬L.cmp.Equiv (L.key x) (L.key b)) :
    (L.insertNode x (chain i)).Pairwise L.NodeLt := by
  have hs := h.sorted i
  rw [← before_append_atLeast (L.isBefore (L.key x)) (chain i)] at hs
  obtain ⟨hpre, hpost, hcross⟩ := List.pairwise_append.mp hs
  have hxpost : ∀ b ∈ atLeast (L.isBefore (L.key x)) (chain i), L.NodeLt x b := by
    intro b hb
    have hnot := isBefore_eq_false_iff.mp (of_mem_atLeast (h.sorted i) (isBefore_of_nodeLt _) hb)
    by_contra hlt
    exact hdup b ((List.dropWhile_suffix _).subset hb) (Comparator.equiv_iff.mpr ⟨hlt, hnot⟩)
  refine List.pairwise_append.mpr ⟨hpre, List.pairwise_cons.mpr ⟨hxpost, hpost⟩, ?_⟩
  intro b hb c hc
  rcases List.mem_cons.mp hc with rfl | hc
  · exact isBefore_iff.mp (of_mem_before hb)
  · exact hcross b hb c hc

/-- The nodes of a chain with a node put in. -/
lemma mem_insertNode {l : List Node} : n ∈ L.insertNode x l ↔ n = x ∨ n ∈ l := by
  conv_rhs => rw [← before_append_atLeast (L.isBefore (L.key x)) l]
  simp only [insertNode, List.mem_append, List.mem_cons]
  tauto

/-- **Linking one level.**  If the word of a new node `x` on level `i` holds its successor there,
and `x` is already linked on the level below, then writing `x` into the word of its predecessor puts
it at its place on level `i` and changes no other level. -/
theorem link [DecidableEq Node] (h : L.Shape s chain) (hx : x ≠ L.head) (hxi : x ∉ chain i)
    (hbelow : i = 0 ∨ x ∈ chain (i - 1)) (hlt : i < L.unstashHeight x)
    (hmax : L.unstashHeight x ≤ s.maxHeight)
    (hdup : ∀ b ∈ chain i, ¬L.cmp.Equiv (L.key x) (L.key b))
    (hnext : s.next x i = L.succAt chain (L.key x) i) :
    L.Shape (s.setNext (L.predAt chain (L.key x) i) i (some x))
      (Function.update chain i (L.insertNode x (chain i))) := by
  have hk : i < L.kMaxHeight := lt_of_lt_of_le (lt_of_lt_of_le hlt hmax) h.maxHeight_le
  have hmem : ∀ j n, n ∈ Function.update chain i (L.insertNode x (chain i)) j ↔
      (j = i ∧ n = x) ∨ n ∈ chain j := by
    intro j n
    by_cases hj : j = i
    · subst hj
      simp [mem_insertNode]
    · simp [hj]
  refine ⟨fun j hj => ?_, fun j => ?_, fun j hhead => ?_, fun j n hn => ?_, fun j n hn => ?_,
    h.maxHeight_pos, h.maxHeight_le⟩
  · by_cases hji : j = i
    · subst hji
      rw [Function.update_self]
      have hl := h.linked j hj
      rw [← before_append_atLeast (L.isBefore (L.key x)) (chain j)] at hl
      have hnd : (L.head :: (chain j)).Nodup :=
        List.nodup_cons.mpr ⟨h.head_notMem j, nodup_of_pairwise_nodeLt (h.sorted j)⟩
      have hne : x ≠ L.predAt chain (L.key x) j := by
        intro he
        rcases predAt_mem L chain (L.key x) j with hp | hp
        · exact hx (he.trans hp)
        · exact hxi (he ▸ hp)
      refine Linked.insert hl ?_ ?_ (Links.setNext_next_self s _ j _) ?_ ?_
      · rwa [before_append_atLeast]
      · rw [before_append_atLeast]
        exact fun hmem => (List.mem_cons.mp hmem).elim hx hxi
      · exact (Links.setNext_next_of_node_ne s j j _ hne).trans hnext
      · exact fun b hb _ => Links.setNext_next_of_node_ne s j j _ hb
    · rw [Function.update_of_ne hji]
      exact (h.linked j hj).congr fun b _ => Links.setNext_next_of_level_ne s _ b _ hji
  · by_cases hji : j = i
    · subst hji
      rw [Function.update_self]
      exact h.insertNode_sorted hdup
    · rw [Function.update_of_ne hji]
      exact h.sorted j
  · rcases (hmem j _).mp hhead with hh | hh
    · exact hx hh.2.symm
    · exact h.head_notMem j hh
  · rcases (hmem (j + 1) n).mp hn with ⟨hji, rfl⟩ | hn
    · -- the node is on the level below already
      rcases hbelow with h0 | hb
      · omega
      · refine (hmem j n).mpr (Or.inr ?_)
        rwa [← hji, Nat.add_sub_cancel] at hb
    · exact (hmem j n).mpr (Or.inr (h.nested j n hn))
  · rcases (hmem j n).mp hn with ⟨rfl, rfl⟩ | hn
    · exact ⟨hlt, hmax⟩
    · exact h.height j n hn

end Shape

end InlineSkipList

end PmemKv
