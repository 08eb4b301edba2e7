import Bitmarkd.Util.Varint

/-!
# Varint64 as a code

What `ToVarint64` writes, `FromVarint64` reads back, and it is the shortest of all byte strings that
are read as the same number: `n` bytes hold `7 * n` bits, as long as `n` is less than nine. A string
that is read as no number is one that ends before its number does (`EndsInside`).
-/

namespace Bitmarkd.Util

open Lib

/-- The string ends inside a number: it has no ninth byte, and every byte says that more follow. -/
def EndsInside (s : Bytes) : Prop := s.length < varint64MaximumBytes ∧ ∀ b ∈ s, 0x80 ≤ b

instance (s : Bytes) : Decidable (EndsInside s) := inferInstanceAs (Decidable (_ ∧ _))

/-! ## How much the bytes hold -/

/-- One more byte with seven bits. -/
theorem toNat_or_low {b : UInt8} {result : UInt64} {count : ℕ} (hcount : count + 1 < 9)
    (hresult : result.toNat < 2 ^ (7 * count)) :
    (result ||| (b.toUInt64 &&& 0x7f) <<< UInt64.ofNat (7 * count)).toNat <
      2 ^ (7 * (count + 1)) := by
  have hlow : b.toNat % 128 ≤ 127 := by omega
  have hbits : b.toNat % 128 * 2 ^ (7 * count) ≤ 127 * 2 ^ (7 * count) :=
    Nat.mul_le_mul_right _ hlow
  have hpow : 2 ^ (7 * count) ≤ 2 ^ 49 := Nat.pow_le_pow_right (by decide) (by omega)
  have hsucc : 2 ^ (7 * (count + 1)) = 2 ^ (7 * count) * 128 := by
    rw [Nat.mul_succ, pow_add]
    rfl
  rw [or_shiftLeft (by omega) hresult (by rw [low_toNat]; omega), low_toNat, hsucc]
  omega

/-- **Fewer than nine bytes hold seven bits each.** -/
theorem fromVarint64Loop_lt {buffer : Bytes} {count : ℕ} {result v : UInt64} {n : ℕ}
    (hresult : result.toNat < 2 ^ (7 * count))
    (h : fromVarint64Loop buffer count (UInt64.ofNat (7 * count)) result = (v, n)) (hn : n ≠ 0)
    (hlt : n < 9) : v.toNat < 2 ^ (7 * n) := by
  induction buffer generalizing count result with
  | nil =>
    cases h
    exact absurd rfl hn
  | cons b buffer ih =>
    rw [fromVarint64Loop_cons] at h
    by_cases hcount : count + 1 < 9
    · have hbits := toNat_or_low (b := b) hcount hresult
      rw [if_pos hcount] at h
      by_cases hlast : b.toNat < 128
      · rw [if_pos hlast] at h
        cases h
        exact hbits
      · have hshift : UInt64.ofNat (7 * count) + 7 = UInt64.ofNat (7 * (count + 1)) := by
          rw [Nat.mul_succ, UInt64.ofNat_add]
          rfl
        rw [if_neg hlast, hshift] at h
        exact ih hbits h
    · rw [if_neg hcount] at h
      cases h
      exact absurd hlt hcount

theorem fromVarint64_lt {s : Bytes} {v : UInt64} {n : ℕ} (h : fromVarint64 s = (v, n)) (hn : n ≠ 0)
    (hlt : n < 9) : v.toNat < 2 ^ (7 * n) := by
  have hzero : (0 : UInt64).toNat < 2 ^ (7 * 0) := by decide
  exact fromVarint64Loop_lt hzero h hn hlt

/-- A number of so many bits takes no more bytes. -/
theorem length_toVarint64Loop_le_of_lt {k : ℕ} (fuel : ℕ) {value : UInt64}
    (h : value.toNat < 2 ^ (7 * k)) : (toVarint64Loop fuel value).length ≤ k := by
  induction k generalizing fuel value with
  | zero =>
    have hzero : value = 0 := UInt64.toNat_inj.mp (Nat.lt_one_iff.mp h)
    cases fuel <;> simp [toVarint64Loop, hzero]
  | succ k ih =>
    have hsplit : 2 ^ (7 * (k + 1)) = 128 * 2 ^ (7 * k) := by
      rw [Nat.mul_succ, pow_add]
      exact Nat.mul_comm _ _
    have hrest : (value >>> 7).toNat < 2 ^ (7 * k) := by
      rw [toNat_shiftRight_seven]
      exact Nat.div_lt_of_lt_mul (hsplit ▸ h)
    cases fuel with
    | zero => simp [toVarint64Loop]
    | succ fuel =>
      unfold toVarint64Loop
      split
      · simp
      · simpa using ih fuel hrest

theorem length_toVarint64_le_of_lt {k : ℕ} (hk : 1 ≤ k) {value : UInt64}
    (h : value.toNat < 2 ^ (7 * k)) : (toVarint64 value).length ≤ k := by
  unfold toVarint64
  split
  · simpa using hk
  · exact length_toVarint64Loop_le_of_lt _ h

/-- **No string that is read as the same number is shorter.** -/
theorem length_toVarint64_le_of_read {s : Bytes} {v : UInt64} {n : ℕ}
    (h : fromVarint64 s = (v, n)) (hn : n ≠ 0) : (toVarint64 v).length ≤ n := by
  by_cases hlt : n < 9
  · exact length_toVarint64_le_of_lt (Nat.one_le_iff_ne_zero.mpr hn) (fromVarint64_lt h hn hlt)
  · exact (length_toVarint64_le v).trans (Nat.le_of_not_lt hlt)

/-! ## Truncated numbers -/

/-- The loop comes to no end exactly if all bytes say that more follow. -/
theorem fromVarint64Loop_eq_zero_iff {buffer : Bytes} {count : ℕ} {shift result : UInt64}
    (hcount : count < 9) :
    (fromVarint64Loop buffer count shift result).2 = 0 ↔
      count + buffer.length < 9 ∧ ∀ b ∈ buffer, 0x80 ≤ b := by
  induction buffer generalizing count shift result with
  | nil => simpa [fromVarint64Loop] using hcount
  | cons b buffer ih =>
    have hhigh : (0x80 : UInt8) ≤ b ↔ ¬ b.toNat < 128 := by
      rw [UInt8.le_iff_toNat_le, Nat.not_lt]
      rfl
    rw [fromVarint64Loop_cons, List.forall_mem_cons, List.length_cons, hhigh]
    by_cases hnext : count + 1 < 9
    · rw [if_pos hnext]
      by_cases hlast : b.toNat < 128
      · simp [hlast]
      · rw [if_neg hlast, ih hnext]
        simp only [hlast, not_false_eq_true, true_and]
        rw [show count + 1 + buffer.length = count + (buffer.length + 1) by omega]
    · rw [if_neg hnext]
      simp only [Nat.add_one_ne_zero, false_iff, not_and]
      intro hlength
      omega

theorem fromVarint64_eq_zero_iff (s : Bytes) : (fromVarint64 s).2 = 0 ↔ EndsInside s := by
  rw [fromVarint64, fromVarint64Loop_eq_zero_iff (by decide), Nat.zero_add]
  rfl

theorem fromVarint64_le_length (s : Bytes) : (fromVarint64 s).2 ≤ s.length := by
  by_cases hn : (fromVarint64 s).2 = 0
  · rw [hn]
    exact Nat.zero_le _
  · exact (fromVarint64_stable rfl hn).1

/-- Numbers that begin alike are the same. -/
theorem toVarint64_eq_of_isPrefix {v w : UInt64} (h : toVarint64 v <+: toVarint64 w) :
    toVarint64 v = toVarint64 w := by
  obtain ⟨rest, hrest⟩ := h
  have hv := fromVarint64_toVarint64 v rest
  have hw := fromVarint64_toVarint64 w []
  rw [List.append_nil, ← hrest, hv] at hw
  rw [(Prod.mk.inj hw).1]

/-- **The code is exact**: numbers read back whatever follows them, in the least number of bytes; no
number begins another; and a string is read as no number exactly if it ends inside one. -/
theorem varint64_exact :
    (∀ (v : UInt64) (s : Bytes),
      fromVarint64 (toVarint64 v ++ s) = (v, (toVarint64 v).length)) ∧
    (∀ v : UInt64, 1 ≤ (toVarint64 v).length ∧ (toVarint64 v).length ≤ varint64MaximumBytes ∧
      ∀ (s : Bytes) (n : ℕ), fromVarint64 s = (v, n) → n ≠ 0 → (toVarint64 v).length ≤ n) ∧
    (∀ v w : UInt64, toVarint64 v <+: toVarint64 w → toVarint64 v = toVarint64 w) ∧
    ∀ s : Bytes, (fromVarint64 s).2 ≤ s.length ∧ ((fromVarint64 s).2 = 0 ↔ EndsInside s) := by
  refine ⟨fromVarint64_toVarint64, ?_, fun v w => toVarint64_eq_of_isPrefix, ?_⟩
  · intro v
    exact ⟨Nat.one_le_iff_ne_zero.mpr (length_toVarint64_ne_zero v), length_toVarint64_le v,
      fun s n => length_toVarint64_le_of_read⟩
  · intro s
    exact ⟨fromVarint64_le_length s, fromVarint64_eq_zero_iff s⟩

end Bitmarkd.Util
