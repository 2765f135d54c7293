import Mathlib.Data.List.Perm.Basic
import Mathlib.Data.List.Nodup
import Mathlib.Data.List.Range
import Mathlib.Logic.Function.Basic
import Mathlib.Tactic.Common

/-!
# Families of lists

`flat f n` collects the elements of the lists `f 0, …, f (n - 1)`.  When one list of the family is
replaced, the collection changes by that list only.
-/

namespace Buckets

variable {α : Type*}

/-- The elements of the first `n` lists of a family. -/
def flat (f : ℕ → List α) (n : ℕ) : List α := (List.range n).flatMap f

variable {f g : ℕ → List α} {a : α} {b n : ℕ}

lemma mem_flat : a ∈ flat f n ↔ ∃ i < n, a ∈ f i := by
  simp [flat]

lemma flat_succ (f : ℕ → List α) (n : ℕ) : flat f (n + 1) = flat f n ++ f n := by
  simp [flat, List.range_succ]

lemma flat_congr (h : ∀ i < n, f i = g i) : flat f n = flat g n :=
  List.flatMap_congr fun i hi => h i (List.mem_range.mp hi)

/-- A family of empty lists has no elements. -/
lemma flat_nil (n : ℕ) : flat (fun _ => ([] : List α)) n = [] := by
  simp [flat]

/-- Replacing the list with index `b` exchanges its elements and keeps the `rest`. -/
lemma exists_flat_update (f : ℕ → List α) (hb : b < n) :
    ∃ rest, (flat f n).Perm (f b ++ rest) ∧
      ∀ l, (flat (Function.update f b l) n).Perm (l ++ rest) := by
  induction n with
  | zero => exact absurd hb (Nat.not_lt_zero b)
  | succ n ih =>
    rcases Nat.lt_succ_iff_lt_or_eq.mp hb with hbn | rfl
    · obtain ⟨rest, h₁, h₂⟩ := ih hbn
      refine ⟨rest ++ f n, ?_, fun l => ?_⟩
      · rw [flat_succ, ← List.append_assoc]
        exact h₁.append_right (f n)
      · rw [flat_succ, Function.update_of_ne hbn.ne', ← List.append_assoc]
        exact (h₂ l).append_right (f n)
    · refine ⟨flat f b, ?_, fun l => ?_⟩
      · rw [flat_succ]
        exact List.perm_append_comm
      · rw [flat_succ, Function.update_self,
          flat_congr fun i hi => Function.update_of_ne (ne_of_lt hi) l f]
        exact List.perm_append_comm

/-- Exchanging a segment `d` of one list for `e`, when no element occurs twice. -/
lemma flat_exchange {l₁ d e l₂ : List α} (hb : b < n) (hnd : (flat f n).Nodup)
    (hf : f b = l₁ ++ (d ++ l₂)) :
    (∀ a, a ∈ flat (Function.update f b (l₁ ++ (e ++ l₂))) n ↔ a ∈ e ∨ (a ∈ flat f n ∧ a ∉ d)) ∧
      (flat (Function.update f b (l₁ ++ (e ++ l₂))) n).length + d.length =
        (flat f n).length + e.length := by
  obtain ⟨rest, h₁, h₂⟩ := exists_flat_update f hb
  rw [hf] at h₁
  have hnd' := h₁.nodup_iff.mp hnd
  have hp : (l₁ ++ (d ++ l₂) ++ rest).Perm (d ++ (l₁ ++ l₂ ++ rest)) := by
    rw [← List.append_assoc l₁ d l₂]
    exact ((List.perm_append_comm.append_right l₂).append_right rest).trans
      (by simp only [List.append_assoc]; exact List.Perm.refl _)
  obtain ⟨-, -, hdisj⟩ := List.nodup_append'.mp (hp.nodup_iff.mp hnd')
  constructor
  · intro a
    rw [(h₂ _).mem_iff, h₁.mem_iff, hp.mem_iff]
    simp only [List.mem_append]
    constructor
    · rintro ((ha | ha | ha) | ha)
      · exact Or.inr ⟨Or.inr (Or.inl (Or.inl ha)), fun hd => hdisj hd (by simp [ha])⟩
      · exact Or.inl ha
      · exact Or.inr ⟨Or.inr (Or.inl (Or.inr ha)), fun hd => hdisj hd (by simp [ha])⟩
      · exact Or.inr ⟨Or.inr (Or.inr ha), fun hd => hdisj hd (by simp [ha])⟩
    · rintro (ha | ⟨hd | (ha | ha) | ha, hnd⟩)
      · exact Or.inl (Or.inr (Or.inl ha))
      · exact absurd hd hnd
      · exact Or.inl (Or.inl ha)
      · exact Or.inl (Or.inr (Or.inr ha))
      · exact Or.inr ha
  · rw [(h₂ _).length_eq, h₁.length_eq]
    simp only [List.length_append]
    omega

end Buckets
