import Mathlib.Algebra.Ring.Nat
import Mathlib.Tactic.Common

/-!
# Bytes and machine words

What the components share: byte strings, the wrap-around of unsigned words, the bytes of a word in
memory, and computations that may stop.
-/

namespace PmemKv

/-- The bytes that a `Slice` or a `std::string` designates. -/
abbrev Bytes : Type := List UInt8

/-- A `uint32_t`. -/
def toUInt32 (n : ℕ) : ℕ := n % 2 ^ 32

/-- A `uint64_t`. -/
def toUInt64 (n : ℕ) : ℕ := n % 2 ^ 64

lemma toUInt32_of_lt {n : ℕ} (h : n < 2 ^ 32) : toUInt32 n = n := Nat.mod_eq_of_lt h

lemma toUInt64_of_lt {n : ℕ} (h : n < 2 ^ 64) : toUInt64 n = n := Nat.mod_eq_of_lt h

lemma toUInt64_lt (n : ℕ) : toUInt64 n < 2 ^ 64 := Nat.mod_lt n (by decide)

/-- The least significant `k` bytes of a number, in little-endian order. -/
def leBytes : ℕ → ℕ → Bytes
  | 0, _ => []
  | k + 1, n => UInt8.ofNat n :: leBytes k (n / 256)

/-- The number with the given bytes. -/
def leNat : Bytes → ℕ
  | [] => 0
  | b :: bs => b.toNat + 256 * leNat bs

/-- The bytes of a `uint64_t`. -/
def le64 (n : ℕ) : Bytes := leBytes 8 n

@[simp] lemma length_leBytes (k n : ℕ) : (leBytes k n).length = k := by
  induction k generalizing n with
  | zero => rfl
  | succ k ih => rw [leBytes, List.length_cons, ih]

@[simp] lemma length_le64 (n : ℕ) : (le64 n).length = 8 := length_leBytes 8 n

lemma leNat_leBytes (k n : ℕ) : leNat (leBytes k n) = n % 256 ^ k := by
  induction k generalizing n with
  | zero => rw [leBytes, leNat, Nat.pow_zero, Nat.mod_one]
  | succ k ih =>
    have hbyte : (UInt8.ofNat n).toNat = n % 256 := UInt8.toNat_ofNat'
    rw [leBytes, leNat, ih, hbyte, Nat.pow_succ', Nat.mod_mul]

lemma leNat_lt (bs : Bytes) : leNat bs < 256 ^ bs.length := by
  induction bs with
  | nil => exact Nat.one_pos
  | cons b bs ih =>
    have hbyte := b.toNat_lt
    rw [leNat, List.length_cons, Nat.pow_succ']
    omega

lemma leNat_le64 (n : ℕ) : leNat (le64 n) = toUInt64 n := leNat_leBytes 8 n

/-- A computation succeeds if both of its parts do. -/
lemma bind_eq_ok {ε α β : Type} {x : Except ε α} {f : α → Except ε β} {b : β} :
    x >>= f = .ok b ↔ ∃ a, x = .ok a ∧ f a = .ok b := by
  constructor
  · intro h
    cases x with
    | error e => cases h
    | ok a => exact ⟨a, rfl, h⟩
  · rintro ⟨a, rfl, h⟩
    exact h

end PmemKv
