import PmemKv.Library.AtomicProg
import Mathlib.Data.Int.Order.Basic

/-!
# The nodes of an inline skip list

`InlineSkipList` collects what does not change while a list is used: the comparator, the configured
maximal height, the head node, and the key and the stashed height that each node was allocated
with.  `Links` is the shared memory that changes: the link words `next_` of all nodes and
`max_height_`.

The member functions of the list are programs over the atomic operations `LinkOp`.  `execSolo`
reads these operations when a call runs to completion alone, `Exec` when other threads run at the
same time; atomic accesses are sequentially consistent, so acquire, release and relaxed accesses
of the source are the same operation here.  The prefetches of the source read link words without
using them and are left out.
-/

namespace PmemKv

open AtomicProg

/-- The comparator of a list: a total order on the stored keys, with the overload that takes a
decoded right-hand side.  Two keys compare equal when the comparison is `0`. -/
structure Comparator (Key DecodedKey : Type) where
  /-- `decode_key`. -/
  decodeKey : Key → DecodedKey
  /-- `compare_(const char*, const char*)`. -/
  compare : Key → Key → ℤ
  /-- `compare_(const char*, const DecodedKey&)`. -/
  compareDecoded : Key → DecodedKey → ℤ
  /-- The two overloads agree. -/
  compareDecoded_decodeKey : ∀ a b, compareDecoded a (decodeKey b) = compare a b
  /-- Exchanging the arguments exchanges the signs. -/
  compare_neg_iff : ∀ a b, compare a b < 0 ↔ 0 < compare b a
  /-- The order is transitive. -/
  compare_trans : ∀ a b c, compare a b ≤ 0 → compare b c ≤ 0 → compare a c ≤ 0

namespace Comparator

variable {Key DecodedKey : Type} (C : Comparator Key DecodedKey) {a b c : Key}

/-- Strictly smaller under the comparator. -/
def Lt (a b : Key) : Prop := C.compare a b < 0

/-- Equal under the comparator. -/
def Equiv (a b : Key) : Prop := C.compare a b = 0

instance (a b : Key) : Decidable (C.Lt a b) := inferInstanceAs (Decidable (C.compare a b < 0))

instance (a b : Key) : Decidable (C.Equiv a b) := inferInstanceAs (Decidable (C.compare a b = 0))

variable {C}

/-- Not smaller means that the converse comparison is at most `0`. -/
lemma not_lt_iff : ¬C.Lt a b ↔ C.compare b a ≤ 0 := by
  have h := C.compare_neg_iff a b
  simp only [Lt]
  omega

/-- No key is smaller than itself. -/
lemma lt_irrefl (a : Key) : ¬C.Lt a a := by
  have h := C.compare_neg_iff a a
  simp only [Lt]
  omega

/-- A key smaller than one that is not above a third is smaller than the third. -/
lemma lt_of_lt_of_not_lt (hab : C.Lt a b) (hcb : ¬C.Lt c b) : C.Lt a c := by
  by_contra hac
  have h : C.compare b a ≤ 0 := C.compare_trans b c a (not_lt_iff.mp hcb) (not_lt_iff.mp hac)
  exact not_lt_iff.mpr h hab

/-- A key not above one that is smaller than a third is smaller than the third. -/
lemma lt_of_not_lt_of_lt (hba : ¬C.Lt b a) (hbc : C.Lt b c) : C.Lt a c := by
  by_contra hac
  have h : C.compare c b ≤ 0 := C.compare_trans c a b (not_lt_iff.mp hac) (not_lt_iff.mp hba)
  exact not_lt_iff.mpr h hbc

/-- The order is asymmetric. -/
lemma Lt.asymm (hab : C.Lt a b) : ¬C.Lt b a := by
  have h := C.compare_neg_iff a b
  simp only [Lt] at hab ⊢
  omega

/-- The order is transitive. -/
lemma Lt.trans (hab : C.Lt a b) (hbc : C.Lt b c) : C.Lt a c :=
  lt_of_lt_of_not_lt hab hbc.asymm

/-- Keys of which neither is smaller compare equal. -/
lemma equiv_iff : C.Equiv a b ↔ ¬C.Lt a b ∧ ¬C.Lt b a := by
  have h₁ := C.compare_neg_iff a b
  have h₂ := C.compare_neg_iff b a
  simp only [Lt, Equiv]
  omega

/-- Comparing equal is symmetric. -/
lemma Equiv.symm (h : C.Equiv a b) : C.Equiv b a :=
  equiv_iff.mpr (equiv_iff.mp h).symm

/-- Comparing equal is transitive. -/
lemma Equiv.trans (h : C.Equiv a b) (h' : C.Equiv b c) : C.Equiv a c := by
  obtain ⟨h₁, h₂⟩ := equiv_iff.mp h
  obtain ⟨h₃, h₄⟩ := equiv_iff.mp h'
  exact equiv_iff.mpr
    ⟨fun hac => h₃ (lt_of_not_lt_of_lt h₁ hac), fun hca => h₄ (lt_of_lt_of_not_lt hca h₂)⟩

/-- The converse comparison is nonnegative exactly when a key is not smaller. -/
lemma compare_nonneg_iff : 0 ≤ C.compare a b ↔ ¬C.Lt a b := by
  simp only [Lt]
  omega

/-- The integers under their usual order. -/
def int : Comparator ℤ ℤ where
  decodeKey := id
  compare a b := a - b
  compareDecoded a b := a - b
  compareDecoded_decodeKey _ _ := rfl
  compare_neg_iff a b := by omega
  compare_trans a b c := by omega

end Comparator

/-- `kMaxPossibleHeight`. -/
def kMaxPossibleHeight : ℕ := 32

/-- The constant part of an `InlineSkipList`: comparator, configured height and head node, and the
key bytes (`Node::Key`) and stashed height (`Node::UnStashHeight`) of every allocated node. -/
structure InlineSkipList (Key DecodedKey Node : Type) where
  /-- `compare_`. -/
  cmp : Comparator Key DecodedKey
  /-- `kMaxHeight_`. -/
  kMaxHeight : ℕ
  /-- `head_`. -/
  head : Node
  /-- `Node::Key`. -/
  key : Node → Key
  /-- `Node::UnStashHeight` of a node that has not been linked yet. -/
  unstashHeight : Node → ℕ

/-- The link words of all nodes, and `max_height_`. -/
structure Links (Node : Type) where
  /-- The word `next_[-level]` of a node. -/
  next : Node → ℕ → Option Node
  /-- `max_height_`. -/
  maxHeight : ℕ

/-- The atomic operations of the list. -/
inductive LinkOp (Node : Type) : Type
  /-- `n->Next(level)` and `n->NoBarrier_Next(level)`. -/
  | next (n : Node) (level : ℕ)
  /-- `n->SetNext(level, x)` and `n->NoBarrier_SetNext(level, x)`. -/
  | setNext (n : Node) (level : ℕ) (x : Option Node)
  /-- `n->CASNext(level, expected, x)`. -/
  | casNext (n : Node) (level : ℕ) (expected x : Option Node)
  /-- `max_height_.load()`. -/
  | loadMaxHeight
  /-- `max_height_.compare_exchange_weak(expected, desired)`. -/
  | casMaxHeight (expected desired : ℕ)

/-- What an operation answers; the weak compare-exchange also reports the height it saw, which it
stores in its `expected` argument when it fails. -/
def LinkOp.Ret {Node : Type} : LinkOp Node → Type
  | .next _ _ => Option Node
  | .setNext _ _ _ => Unit
  | .casNext _ _ _ _ => Bool
  | .loadMaxHeight => ℕ
  | .casMaxHeight _ _ => Bool × ℕ

/-- The programs of the list's member functions. -/
abbrev ListProg (Node α : Type) : Type := Prog (LinkOp Node) LinkOp.Ret α

section Operations

variable {Node : Type} [DecidableEq Node]

/-- Write one link word. -/
def Links.setNext (s : Links Node) (n : Node) (level : ℕ) (x : Option Node) : Links Node :=
  { s with next := fun m i => if m = n ∧ i = level then x else s.next m i }

/-- The state in which a call runs alone: the links, and how often the weak compare-exchange on
`max_height_` is going to fail spuriously. -/
structure Solo (Node : Type) where
  /-- The shared memory. -/
  links : Links Node
  /-- The number of spurious failures to come. -/
  spurious : ℕ

/-- The operations of a call that runs alone. -/
def execSolo : (o : LinkOp Node) → Solo Node → o.Ret × Solo Node
  | .next n level, s => (s.links.next n level, s)
  | .setNext n level x, s => ((), { s with links := s.links.setNext n level x })
  | .casNext n level expected x, s =>
    if s.links.next n level = expected then
      (true, { s with links := s.links.setNext n level x })
    else (false, s)
  | .loadMaxHeight, s => (s.links.maxHeight, s)
  | .casMaxHeight expected desired, s =>
    if 0 < s.spurious then ((false, s.links.maxHeight), { s with spurious := s.spurious - 1 })
    else if s.links.maxHeight = expected then
      ((true, expected), { s with links := { s.links with maxHeight := desired } })
    else ((false, s.links.maxHeight), s)

/-- The operations of a call that runs next to others.  The weak compare-exchange may fail
although the height is the expected one. -/
def Exec : (o : LinkOp Node) → Links Node → o.Ret → Links Node → Prop
  | .next n level, s, r, s' => r = s.next n level ∧ s' = s
  | .setNext n level x, s, _, s' => s' = s.setNext n level x
  | .casNext n level expected x, s, r, s' =>
    (s.next n level = expected ∧ r = true ∧ s' = s.setNext n level x) ∨
      (s.next n level ≠ expected ∧ r = false ∧ s' = s)
  | .loadMaxHeight, s, r, s' => r = s.maxHeight ∧ s' = s
  | .casMaxHeight expected desired, s, r, s' =>
    (s.maxHeight = expected ∧ r = (true, expected) ∧ s' = { s with maxHeight := desired }) ∨
      (r = (false, s.maxHeight) ∧ s' = s)

/-- An operation of a call that runs alone is one of the effects it can have among others. -/
theorem exec_execSolo (o : LinkOp Node) (s : Solo Node) :
    Exec o s.links (execSolo o s).1 (execSolo o s).2.links := by
  cases o with
  | next n level => exact ⟨rfl, rfl⟩
  | setNext n level x => exact rfl
  | casNext n level expected x =>
    by_cases h : s.links.next n level = expected
    · rw [execSolo, if_pos h]
      exact Or.inl ⟨h, rfl, rfl⟩
    · rw [execSolo, if_neg h]
      exact Or.inr ⟨h, rfl, rfl⟩
  | loadMaxHeight => exact ⟨rfl, rfl⟩
  | casMaxHeight expected desired =>
    by_cases h₁ : 0 < s.spurious
    · rw [execSolo, if_pos h₁]
      exact Or.inr ⟨rfl, rfl⟩
    · by_cases h₂ : s.links.maxHeight = expected
      · rw [execSolo, if_neg h₁, if_pos h₂]
        exact Or.inl ⟨h₂, rfl, rfl⟩
      · rw [execSolo, if_neg h₁, if_neg h₂]
        exact Or.inr ⟨rfl, rfl⟩

lemma Links.setNext_next (s : Links Node) (n m : Node) (level i : ℕ) (x : Option Node) :
    (s.setNext n level x).next m i = if m = n ∧ i = level then x else s.next m i := rfl

@[simp] lemma Links.setNext_next_self (s : Links Node) (n : Node) (level : ℕ) (x : Option Node) :
    (s.setNext n level x).next n level = x := by simp [Links.setNext_next]

lemma Links.setNext_next_of_node_ne (s : Links Node) {n m : Node} (level i : ℕ) (x : Option Node)
    (h : m ≠ n) : (s.setNext n level x).next m i = s.next m i := by
  simp [Links.setNext_next, h]

lemma Links.setNext_next_of_level_ne (s : Links Node) (n m : Node) {level i : ℕ} (x : Option Node)
    (h : i ≠ level) : (s.setNext n level x).next m i = s.next m i := by
  simp [Links.setNext_next, h]

end Operations

namespace InlineSkipList

variable {Key DecodedKey Node : Type} (L : InlineSkipList Key DecodedKey Node)

/-- `KeyIsAfterNode(key, n)` for a decoded key: `n` is a node and its key is strictly smaller. -/
def keyIsAfterNode (key : DecodedKey) : Option Node → Bool
  | none => false
  | some n => decide (L.cmp.compareDecoded (L.key n) key < 0)

/-- `KeyIsAfterNode(key, n)` for the bytes of a key. -/
def keyIsAfterNodeRaw (key : Key) : Option Node → Bool
  | none => false
  | some n => decide (L.cmp.compare (L.key n) key < 0)

/-- The memory that the constructor leaves behind: it clears the links of `head_` and sets
`max_height_` to `1`; every other word is as it was found. -/
def construct [DecidableEq Node] (raw : Node → ℕ → Option Node) : Links Node where
  next n level := if n = L.head ∧ level < L.kMaxHeight then none else raw n level
  maxHeight := 1

@[simp] lemma keyIsAfterNode_none (key : DecodedKey) : L.keyIsAfterNode key none = false := rfl

@[simp] lemma keyIsAfterNode_some (a : Key) (n : Node) :
    L.keyIsAfterNode (L.cmp.decodeKey a) (some n) = decide (L.cmp.Lt (L.key n) a) := by
  simp only [keyIsAfterNode, L.cmp.compareDecoded_decodeKey]
  rfl

@[simp] lemma keyIsAfterNodeRaw_none (a : Key) : L.keyIsAfterNodeRaw a none = false := rfl

@[simp] lemma keyIsAfterNodeRaw_some (a : Key) (n : Node) :
    L.keyIsAfterNodeRaw a (some n) = decide (L.cmp.Lt (L.key n) a) := rfl

end InlineSkipList

end PmemKv
