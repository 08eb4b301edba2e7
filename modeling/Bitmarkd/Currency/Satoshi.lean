import Bitmarkd.Lib.Bytes
import Mathlib.Data.Nat.Digits.Defs
import Mathlib.Data.Rat.Floor

/-!
# Amounts of coins

`currency/satoshi/satoshi.go`: the text of an amount, with decimals or without, as a number of the
smallest unit. The machine word takes the digits as they come, without a check. Since a word is a
number modulo 2 ^ 64 all the way, **an amount that fits is converted exactly**, however many digits
it is written with (`fromByteString_exact`).
-/

namespace Bitmarkd.Satoshi

open Lib

/-! ## The source -/

/-- The loop `get_digits`: the number so far and the decimals that were read. -/
def getDigits : Bytes → UInt64 → Bool → ℕ → UInt64 × ℕ
  | [], s, _, decimals => (s, decimals)
  | b :: btc, s, point, decimals =>
    if 0x30 ≤ b ∧ b ≤ 0x39 then
      let s := s * 10 + (b - 0x30).toUInt64
      if point then
        let decimals := decimals + 1
        if decimals ≥ 8 then (s, decimals) else getDigits btc s point decimals
      else getDigits btc s point decimals
    else if b = 0x2e then getDigits btc s true decimals
    else getDigits btc s point decimals

/-- The second loop: so many decimals are missing. -/
def padDecimals : ℕ → UInt64 → UInt64
  | 0, s => s
  | n + 1, s => padDecimals n (s * 10)

/-- `FromByteString`. -/
def fromByteString (btc : Bytes) : UInt64 :=
  let (s, decimals) := getDigits btc 0 false 0
  padDecimals (8 - decimals) s

/-! ## Texts of amounts -/

/-- A digit as a character. -/
def digit (d : Fin 10) : UInt8 := UInt8.ofNat (0x30 + d)

/-- The number of some digits. -/
def number (l : List (Fin 10)) : ℕ := Nat.ofDigits 10 (l.reverse.map Fin.val)

/-- The text of an amount: digits, or digits, a point and digits. -/
def text (whole : List (Fin 10)) : Option (List (Fin 10)) → Bytes
  | none => whole.map digit
  | some decimals => whole.map digit ++ 0x2e :: decimals.map digit

/-- The amount that is written. -/
def amount (whole : List (Fin 10)) : Option (List (Fin 10)) → ℚ
  | none => number whole
  | some decimals => number whole + number decimals / 10 ^ decimals.length

theorem number_append (l m : List (Fin 10)) :
    number (l ++ m) = number l * 10 ^ m.length + number m := by
  rw [number, number, number, List.reverse_append, List.map_append, Nat.ofDigits_append]
  simp only [List.length_map, List.length_reverse]
  ring

theorem number_lt (l : List (Fin 10)) : number l < 10 ^ l.length := by
  have hlt := Nat.ofDigits_lt_base_pow_length (b := 10) (l := l.reverse.map Fin.val) (by decide)
    (by simp)
  simpa [number] using hlt

/-! ## Digits in a word -/

theorem digit_range (d : Fin 10) : 0x30 ≤ digit d ∧ digit d ≤ 0x39 := by
  revert d
  decide

theorem toNat_digit_sub (d : Fin 10) : ((digit d - 0x30).toUInt64) = UInt64.ofNat d := by
  revert d
  decide

/-- One more digit. -/
theorem word_append (l : List (Fin 10)) (d : Fin 10) :
    UInt64.ofNat (number l) * 10 + (digit d - 0x30).toUInt64 =
      UInt64.ofNat (number (l ++ [d])) := by
  have hnumber : number [d] = d := by simp [number]
  rw [toNat_digit_sub, number_append, hnumber, List.length_singleton, pow_one, UInt64.ofNat_add,
    UInt64.ofNat_mul]
  rfl

/-- Digits before the point. -/
theorem getDigits_whole (l m : List (Fin 10)) (rest : Bytes) :
    getDigits (m.map digit ++ rest) (UInt64.ofNat (number l)) false 0 =
      getDigits rest (UInt64.ofNat (number (l ++ m))) false 0 := by
  induction m generalizing l with
  | nil => rw [List.append_nil]; rfl
  | cons d m ih =>
    rw [List.map_cons, List.cons_append, getDigits, if_pos (digit_range d), word_append]
    simp only [Bool.false_eq_true, if_false]
    rw [ih, List.append_assoc, List.singleton_append]

/-- Digits after the point: the first eight of them. -/
theorem getDigits_decimals (l m : List (Fin 10)) {k : ℕ} (hk : k < 8) :
    getDigits (m.map digit) (UInt64.ofNat (number l)) true k =
      (UInt64.ofNat (number (l ++ m.take (8 - k))), k + (m.take (8 - k)).length) := by
  induction m generalizing l k with
  | nil => simp [getDigits]
  | cons d m ih =>
    obtain ⟨j, hj⟩ : ∃ j, 8 - k = j + 1 := ⟨7 - k, by omega⟩
    rw [List.map_cons, getDigits, if_pos (digit_range d), word_append, hj, List.take_succ_cons]
    simp only [if_true]
    by_cases hlast : k + 1 ≥ 8
    · have hzero : j = 0 := by omega
      rw [if_pos hlast, hzero, List.take_zero]
      rfl
    · have hnext : 8 - (k + 1) = j := by omega
      rw [if_neg hlast, ih _ (by omega), hnext, List.append_assoc, List.singleton_append,
        List.length_cons]
      congr 1
      omega

theorem padDecimals_eq (n k : ℕ) :
    padDecimals n (UInt64.ofNat k) = UInt64.ofNat (k * 10 ^ n) := by
  induction n generalizing k with
  | zero => rw [pow_zero, Nat.mul_one]; rfl
  | succ n ih =>
    have hmul : UInt64.ofNat k * 10 = UInt64.ofNat (k * 10) := by
      rw [UInt64.ofNat_mul]
      rfl
    rw [padDecimals, hmul, ih, pow_succ]
    congr 1
    ring

/-! ## The conversion -/

/-- The amount in the smallest unit, rounded down. -/
def units (whole : List (Fin 10)) (decimals : Option (List (Fin 10))) : ℕ :=
  ⌊amount whole decimals * 10 ^ 8⌋₊

theorem units_none (whole : List (Fin 10)) : units whole none = number whole * 10 ^ 8 := by
  have hcast : amount whole none * 10 ^ 8 = ((number whole * 10 ^ 8 : ℕ) : ℚ) := by
    rw [amount]
    push_cast
    rfl
  rw [units, hcast, Nat.floor_natCast]

/-- The number without the point, divided by what the point stands for. -/
theorem units_eq_div (whole decimals : List (Fin 10)) :
    units whole (some decimals) =
      number (whole ++ decimals) * 10 ^ 8 / 10 ^ decimals.length := by
  have hcast : amount whole (some decimals) * 10 ^ 8 =
      ((number (whole ++ decimals) * 10 ^ 8 : ℕ) : ℚ) / (10 ^ decimals.length : ℕ) := by
    have hne : (10 : ℚ) ^ decimals.length ≠ 0 := pow_ne_zero _ (by norm_num)
    rw [amount, number_append]
    push_cast
    field_simp
    norm_num
  rw [units, hcast, Nat.floor_div_eq_div]

/-- Of the decimals only the first eight count. -/
theorem units_some (whole decimals : List (Fin 10)) :
    units whole (some decimals) =
      number (whole ++ decimals.take 8) * 10 ^ (8 - (decimals.take 8).length) := by
  rw [units_eq_div]
  by_cases hshort : decimals.length ≤ 8
  · have hpow : 10 ^ 8 = 10 ^ (8 - decimals.length) * 10 ^ decimals.length := by
      rw [← pow_add, Nat.sub_add_cancel hshort]
    rw [List.take_of_length_le hshort, hpow, ← Nat.mul_assoc,
      Nat.mul_div_cancel _ (Nat.pow_pos (by decide))]
  · -- The digits from the ninth on are less than one unit.
    have hlength : (decimals.take 8).length = 8 := List.length_take_of_le (by omega)
    have hsplit : number (whole ++ decimals) =
        number (whole ++ decimals.take 8) * 10 ^ (decimals.drop 8).length +
          number (decimals.drop 8) := by
      rw [← number_append, List.append_assoc, List.take_append_drop]
    have hpow : 10 ^ decimals.length = 10 ^ (decimals.drop 8).length * 10 ^ 8 := by
      rw [← pow_add, List.length_drop]
      congr 1
      omega
    rw [hlength, hpow, Nat.mul_div_mul_right _ _ (by decide), hsplit, Nat.sub_self, pow_zero,
      Nat.mul_one, Nat.mul_comm, Nat.mul_add_div (Nat.pow_pos (by decide)),
      Nat.div_eq_of_lt (number_lt _), Nat.add_zero]

/-- The conversion, modulo the size of a word. -/
theorem fromByteString_text (whole : List (Fin 10)) (decimals : Option (List (Fin 10))) :
    fromByteString (text whole decimals) = UInt64.ofNat (units whole decimals) := by
  have hzero : (0 : UInt64) = UInt64.ofNat (number []) := rfl
  cases decimals with
  | none =>
    have hdigits := getDigits_whole [] whole []
    rw [List.append_nil, List.nil_append] at hdigits
    rw [fromByteString, text, hzero, hdigits, units_none, ← padDecimals_eq]
    rfl
  | some decimals =>
    rw [fromByteString, text, hzero, getDigits_whole, List.nil_append, getDigits]
    rw [if_neg (by decide), if_pos rfl, getDigits_decimals _ _ (by decide)]
    dsimp only
    rw [padDecimals_eq, units_some, Nat.zero_add, Nat.sub_zero]

/-- **Amounts are converted exactly**: for every text of digits, with a point or without, whose
amount in the smallest unit fits into a word. -/
theorem fromByteString_exact (whole : List (Fin 10)) (decimals : Option (List (Fin 10)))
    (h : units whole decimals < 2 ^ 64) :
    (fromByteString (text whole decimals)).toNat = units whole decimals := by
  rw [fromByteString_text, UInt64.toNat_ofNat', Nat.mod_eq_of_lt h]

/-- One and a half coins and a ninth decimal, which is dropped. -/
theorem fromByteString_exact_ninth :
    (fromByteString (text [1] (some [5, 0, 0, 0, 0, 0, 0, 1, 9]))).toNat = 150000001 := by
  have hunits : units [1] (some [5, 0, 0, 0, 0, 0, 0, 1, 9]) = 150000001 := by
    rw [units_some]
    decide +kernel
  rw [fromByteString_exact [1] (some [5, 0, 0, 0, 0, 0, 0, 1, 9]) (by rw [hunits]; decide), hunits]

end Bitmarkd.Satoshi
