import Mathlib.Data.List.Nodup
import Mathlib.Data.List.Perm.Subperm
import Mathlib.Data.Nat.ModEq
import Mathlib.Tactic.Common

/-!
# Cyclic orders

The numbers below `n`, counted from some start and around: each of them comes up once.
-/

namespace CyclicOrder

variable {start n i k : ℕ}

/-- The first `k` numbers below `n` from `start % n` on and around. -/
def cyclic (start n k : ℕ) : List ℕ := (List.range k).map fun j => (start + j) % n

@[simp] lemma length_cyclic : (cyclic start n k).length = k := by simp [cyclic]

@[simp] lemma cyclic_zero : cyclic start n 0 = [] := rfl

/-- The number behind `i`. -/
lemma wrap_eq (hi : i < n) : (if n ≤ i + 1 then 0 else i + 1) = (i + 1) % n := by
  split
  · next h =>
    have heq : i + 1 = n := le_antisymm hi h
    rw [heq, Nat.mod_self]
  · next h => rw [Nat.mod_eq_of_lt (Nat.lt_of_not_le h)]

/-- The first number, and those from the one behind it on. -/
lemma cyclic_succ : cyclic start n (k + 1) = start % n :: cyclic (start + 1) n k := by
  rw [cyclic, List.range_succ_eq_map, List.map_cons, List.map_map, Nat.add_zero, cyclic]
  congr 1
  refine List.map_congr_left fun j _ => ?_
  rw [Function.comp_apply, Nat.succ_eq_add_one, Nat.add_right_comm, Nat.add_assoc]

/-- Only the residue of the start matters. -/
lemma cyclic_mod : cyclic (start % n) n k = cyclic start n k := by
  simp only [cyclic, Nat.mod_add_mod]

lemma getLast?_cyclic : (cyclic start n (k + 1)).getLast? = some ((start + k) % n) := by
  rw [cyclic, List.range_succ, List.map_append, List.map_singleton, List.getLast?_concat]

/-- At most `n` numbers are different. -/
lemma nodup_cyclic (hk : k ≤ n) : (cyclic start n k).Nodup := by
  rw [cyclic, List.nodup_map_iff_inj_on List.nodup_range]
  intro a ha b hb heq
  rw [List.mem_range] at ha hb
  have hmod : a ≡ b [MOD n] := Nat.ModEq.add_left_cancel' start heq
  rwa [Nat.ModEq, Nat.mod_eq_of_lt (by omega), Nat.mod_eq_of_lt (by omega)] at hmod

/-- `n` numbers are all of them. -/
lemma cyclic_perm_range : (cyclic start n n).Perm (List.range n) := by
  refine (List.subperm_of_subset (nodup_cyclic le_rfl) fun i hi => ?_).perm_of_length_le (by simp)
  obtain ⟨j, hj, rfl⟩ := List.mem_map.mp hi
  rw [List.mem_range] at hj ⊢
  exact Nat.mod_lt _ (by omega)

end CyclicOrder
