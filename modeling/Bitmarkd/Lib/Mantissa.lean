import Mathlib.Data.Nat.Size
import Mathlib.Algebra.Order.Ring.Nat
import Mathlib.Tactic.Ring

/-!
# Mantissas

A number with `p + 1` bits is a mantissa: its leading bit is one and need not be written down. Every
number of more than `p` bits is a mantissa (`leadingBits`) shifted left, up to the bits that are cut
off. A mantissa and its shift are known from the number (`IsMantissa.size_mul`), and a larger shift
makes a larger number whatever the mantissas are (`IsMantissa.mul_lt_mul`).
-/

namespace Bitmarkd.Lib

variable {p m n s t : ℕ}

/-- A number of `p + 1` bits. -/
def IsMantissa (p m : ℕ) : Prop := 2 ^ p ≤ m ∧ m < 2 ^ (p + 1)

theorem IsMantissa.mul_lt_mul (hm : IsMantissa p m) (hn : IsMantissa p n) (h : s < t) :
    m * 2 ^ s < n * 2 ^ t :=
  calc m * 2 ^ s < 2 ^ (p + 1) * 2 ^ s := Nat.mul_lt_mul_of_pos_right hm.2 (Nat.two_pow_pos s)
    _ = 2 ^ p * 2 ^ (s + 1) := by ring
    _ ≤ n * 2 ^ t := Nat.mul_le_mul hn.1 (Nat.pow_le_pow_right (by decide) h)

theorem IsMantissa.size_mul (hm : IsMantissa p m) (s : ℕ) : (m * 2 ^ s).size = p + 1 + s := by
  apply le_antisymm
  · rw [Nat.size_le, pow_add]
    exact Nat.mul_lt_mul_of_pos_right hm.2 (Nat.two_pow_pos s)
  · rw [Nat.add_right_comm, Nat.succ_le_iff, Nat.lt_size, pow_add]
    exact Nat.mul_le_mul_right _ hm.1

/-- The first `p + 1` bits of a number. -/
def leadingBits (p n : ℕ) : ℕ := n / 2 ^ (n.size - (p + 1))

theorem isMantissa_leadingBits (h : 2 ^ p ≤ n) : IsMantissa p (leadingBits p n) := by
  have hsize : p < n.size := Nat.lt_size.mpr h
  constructor
  · rw [leadingBits, Nat.le_div_iff_mul_le (Nat.two_pow_pos _), ← pow_add, ← Nat.lt_size]
    omega
  · rw [leadingBits, Nat.div_lt_iff_lt_mul (Nat.two_pow_pos _), ← pow_add]
    exact (Nat.lt_size_self n).trans_le (Nat.pow_le_pow_right (by decide) (by omega))

theorem IsMantissa.leadingBits_mul (hm : IsMantissa p m) (s : ℕ) :
    leadingBits p (m * 2 ^ s) = m := by
  rw [leadingBits, hm.size_mul, Nat.add_sub_cancel_left, Nat.mul_div_cancel _ (Nat.two_pow_pos s)]

/-! ## Counting ones -/

/-- The number of ones among the low bits of a number. -/
def ones : ℕ → ℕ → ℕ
  | 0, _ => 0
  | w + 1, n => n % 2 + ones w (n / 2)

theorem mod_two_pow_pos_of_ones {w : ℕ} (h : 0 < ones w n) : 0 < n % 2 ^ w := by
  induction w generalizing n with
  | zero => exact absurd h (Nat.lt_irrefl 0)
  | succ w ih =>
    have hsplit : n % 2 ^ (w + 1) = n % 2 + 2 * (n / 2 % 2 ^ w) := by
      rw [pow_succ', Nat.mod_mul]
    rw [ones] at h
    by_cases hbit : n % 2 = 0
    · have := ih (n := n / 2) (by omega)
      omega
    · omega

theorem ones_eq_zero_of_dvd {w : ℕ} (h : 2 ^ w ∣ n) : ones w n = 0 := by
  apply Nat.eq_zero_of_not_pos
  intro hpos
  have := mod_two_pow_pos_of_ones hpos
  rw [Nat.mod_eq_zero_of_dvd h] at this
  exact Nat.lt_irrefl 0 this

end Bitmarkd.Lib
