import Mathlib

/-!
# Digits with leading zeros

A list of digits, most significant first, is its leading zeros and the digits of its value
(`write_leading_value`). So a number with a count of leading zeros can be written in another base
and read back.
-/

namespace Bitmarkd.Lib.Radix

/-- The number of leading zeros. -/
def leading (l : List ℕ) : ℕ := (l.takeWhile (· == 0)).length

/-- The value, most significant digit first. -/
def value (base : ℕ) (l : List ℕ) : ℕ := Nat.ofDigits base l.reverse

/-- The digits of a number after some zeros, most significant first. -/
def write (base zeros n : ℕ) : List ℕ := List.replicate zeros 0 ++ (Nat.digits base n).reverse

variable {base zeros n : ℕ} {l : List ℕ}

theorem write_lt (hbase : 1 < base) : ∀ d ∈ write base zeros n, d < base := by
  intro d hd
  rcases List.mem_append.mp hd with hd | hd
  · rw [List.eq_of_mem_replicate hd]
    omega
  · exact Nat.digits_lt_base hbase (List.mem_reverse.mp hd)

theorem leading_replicate_append (zeros : ℕ) (l : List ℕ) :
    leading (List.replicate zeros 0 ++ l) = zeros + leading l := by
  induction zeros with
  | zero => simp
  | succ zeros ih =>
    rw [List.replicate_succ, List.cons_append, leading, List.takeWhile_cons_of_pos rfl,
      List.length_cons, ← leading, ih]
    omega

/-- The first digit of a number is not zero. -/
theorem leading_digits (base n : ℕ) : leading (Nat.digits base n).reverse = 0 := by
  cases h : (Nat.digits base n).reverse with
  | nil => rfl
  | cons d rest =>
    have hne : Nat.digits base n ≠ [] := by
      intro hnil
      rw [hnil] at h
      cases h
    have hlast : (Nat.digits base n).getLast hne = d := by
      rw [List.getLast_eq_head_reverse]
      simp [h]
    have hn : n ≠ 0 := Nat.digits_ne_nil_iff_ne_zero.mp hne
    have hd : d ≠ 0 := hlast ▸ Nat.getLast_digit_ne_zero base hn
    rw [leading, List.takeWhile_cons_of_neg (by simpa using hd)]
    rfl

@[simp] theorem leading_write : leading (write base zeros n) = zeros := by
  rw [write, leading_replicate_append, leading_digits, Nat.add_zero]

@[simp] theorem value_write : value base (write base zeros n) = n := by
  rw [value, write, List.reverse_append, List.reverse_reverse, List.reverse_replicate,
    Nat.ofDigits_append_replicate_zero, Nat.ofDigits_digits]

/-- **A list of digits** is its leading zeros and the digits of its value. -/
theorem write_leading_value (hbase : 1 < base) (hl : ∀ d ∈ l, d < base) :
    write base (leading l) (value base l) = l := by
  induction l with
  | nil => simp [write, leading, value]
  | cons d rest ih =>
    by_cases hd : d = 0
    · subst hd
      have hleading : leading (0 :: rest) = leading rest + 1 := by
        rw [leading, List.takeWhile_cons_of_pos rfl, List.length_cons, ← leading]
      have hvalue : value base (0 :: rest) = value base rest := by
        rw [value, List.reverse_cons, Nat.ofDigits_append]
        simp [value]
      have hrest := ih fun x hx => hl x (List.mem_cons_of_mem 0 hx)
      rw [hleading, hvalue, write, List.replicate_succ, List.cons_append, ← write, hrest]
    · have hleading : leading (d :: rest) = 0 := by
        rw [leading, List.takeWhile_cons_of_neg (by simpa using hd)]
        rfl
      have hdigits : Nat.digits base (value base (d :: rest)) = (d :: rest).reverse := by
        apply Nat.digits_ofDigits base hbase
        · intro x hx
          exact hl x (List.mem_reverse.mp hx)
        · intro _
          simpa using hd
      rw [write, hleading, hdigits, List.reverse_reverse]
      rfl

end Bitmarkd.Lib.Radix
