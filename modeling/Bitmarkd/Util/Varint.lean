import Bitmarkd.Fault

/-!
# Varint64

`util/varint.go`: seven bits a byte, least significant first, with the high bit set on all but the
last byte; the ninth byte, if there is one, holds eight bits.
-/

namespace Bitmarkd.Util

open Lib

/-- `Varint64MaximumBytes`. -/
def varint64MaximumBytes : Nat := 9

/-- The loop of `ToVarint64`, with `fuel` bytes left to write. -/
def toVarint64Loop : Nat → UInt64 → Bytes
  | 0, _ => []
  | fuel + 1, value =>
    if value = 0 then []
    else
      let ext : UInt64 := if value < 0x80 then 0x00 else 0x80
      (value ||| ext).toUInt8 :: toVarint64Loop fuel (value >>> 7)

/-- `ToVarint64`. -/
def toVarint64 (value : UInt64) : Bytes :=
  if value < 0x80 then [value.toUInt8] else toVarint64Loop varint64MaximumBytes value

/-- The loop of `FromVarint64` over what is left of the buffer. -/
def fromVarint64Loop : Bytes → Nat → UInt64 → UInt64 → UInt64 × Nat
  | [], _, _, _ => (0, 0)
  | b :: buffer, count, shift, result =>
    let currByte := b.toUInt64
    let count := count + 1
    if count < varint64MaximumBytes then
      let result := result ||| ((currByte &&& 0x7f) <<< shift)
      if currByte &&& 0x80 = 0 then (result, count)
      else fromVarint64Loop buffer count (shift + 7) result
    else (result ||| (currByte <<< shift), count)

/-- `FromVarint64`: the value and the number of bytes used, `(0, 0)` for a truncated number. -/
def fromVarint64 (buffer : Bytes) : UInt64 × Nat := fromVarint64Loop buffer 0 0 0

/-- `ClippedVarint64`: a value outside the range counts as truncated. -/
def clippedVarint64 (buffer : Bytes) (minimum maximum : Nat) : Nat × Nat :=
  if minimum ≥ maximum then (0, 0)
  else
    let (value, count) := fromVarint64 buffer
    if count = 0 then (0, 0)
    else
      let iValue := value.toInt64.toInt
      if iValue < minimum ∨ iValue > maximum then (0, 0) else (iValue.toNat, count)

/-! ## The number depends on the bytes it uses -/

theorem fromVarint64Loop_stable {buffer : Bytes} {count : Nat} {shift result v : UInt64} {n : Nat}
    (h : fromVarint64Loop buffer count shift result = (v, n)) (hn : n ≠ 0) :
    count < n ∧ n - count ≤ buffer.length ∧
      ∀ rest, fromVarint64Loop (buffer.take (n - count) ++ rest) count shift result = (v, n) := by
  induction buffer generalizing count shift result with
  | nil =>
    simp only [fromVarint64Loop, Prod.mk.injEq] at h
    exact absurd h.2.symm hn
  | cons b buffer ih =>
    simp only [fromVarint64Loop] at h
    split at h
    next hc =>
      split at h
      next hlast =>
        cases h
        refine ⟨Nat.lt_succ_self _, by simp, fun rest => ?_⟩
        simp [fromVarint64Loop, hc, hlast]
      next hmore =>
        obtain ⟨h1, h2, h3⟩ := ih h
        refine ⟨by omega, by simp only [List.length_cons]; omega, fun rest => ?_⟩
        have hsub : n - count = (n - (count + 1)) + 1 := by omega
        rw [hsub, List.take_succ_cons]
        simp only [List.cons_append, fromVarint64Loop, hc, hmore, if_true, if_false]
        exact h3 rest
    next hc =>
      cases h
      refine ⟨Nat.lt_succ_self _, by simp, fun rest => ?_⟩
      simp [fromVarint64Loop, hc]

theorem fromVarint64_stable {buffer : Bytes} {v : UInt64} {n : Nat}
    (h : fromVarint64 buffer = (v, n)) (hn : n ≠ 0) :
    n ≤ buffer.length ∧ ∀ rest, fromVarint64 (buffer.take n ++ rest) = (v, n) := by
  obtain ⟨-, hle, hstable⟩ := fromVarint64Loop_stable h hn
  exact ⟨by simpa using hle, by simpa [fromVarint64] using hstable⟩

theorem clippedVarint64_stable {buffer : Bytes} {lo hi v n : Nat}
    (h : clippedVarint64 buffer lo hi = (v, n)) (hn : n ≠ 0) :
    n ≤ buffer.length ∧ ∀ rest, clippedVarint64 (buffer.take n ++ rest) lo hi = (v, n) := by
  unfold clippedVarint64 at h
  split at h
  · cases h
    exact absurd rfl hn
  next hlohi =>
    split at h
    next value count hv =>
      split at h
      · cases h
        exact absurd rfl hn
      next hcount =>
        dsimp only at h
        split at h
        · cases h
          exact absurd rfl hn
        next hrange =>
          cases h
          obtain ⟨hle, hst⟩ := fromVarint64_stable hv hcount
          refine ⟨hle, fun rest => ?_⟩
          simp only [clippedVarint64, hlohi, if_false, hst rest, hcount, hrange]

/-- A value that is truncated for the range from `lo` on is truncated for a smaller range. -/
theorem clippedVarint64_truncated {buffer : Bytes} {lo lo' hi v : Nat} (hlo : lo ≤ lo')
    (hhi : lo' < hi) (h : clippedVarint64 buffer lo hi = (v, 0)) :
    v = 0 ∧ clippedVarint64 buffer lo' hi = (0, 0) := by
  have hc : ¬ lo ≥ hi := by omega
  have hc' : ¬ lo' ≥ hi := by omega
  unfold clippedVarint64 at h ⊢
  rw [if_neg hc] at h
  rw [if_neg hc']
  generalize fromVarint64 buffer = read at h ⊢
  obtain ⟨value, count⟩ := read
  dsimp only at h ⊢
  by_cases hcount : count = 0
  · rw [if_pos hcount] at h ⊢
    exact ⟨(Prod.mk.inj h).1.symm, rfl⟩
  · rw [if_neg hcount] at h ⊢
    by_cases hrange : value.toInt64.toInt < (lo : Int) ∨ value.toInt64.toInt > (hi : Int)
    · rw [if_pos hrange] at h
      rw [if_pos (by omega)]
      exact ⟨(Prod.mk.inj h).1.symm, rfl⟩
    · rw [if_neg hrange] at h
      exact absurd (Prod.mk.inj h).2 hcount

/-! ## Reading back -/

/-- The low seven bits of a byte. -/
theorem low_toNat (b : UInt8) : (b.toUInt64 &&& 0x7f).toNat = b.toNat % 128 := by
  rw [UInt64.toNat_and, UInt8.toNat_toUInt64]
  exact Nat.and_two_pow_sub_one_eq_mod _ 7

/-- The high bit of a byte. -/
theorem high_eq_zero_iff (b : UInt8) : b.toUInt64 &&& 0x80 = 0 ↔ b.toNat < 128 := by
  have hbyte : ∀ x < 256, x &&& 128 = 0 ↔ x < 128 := by decide +kernel
  rw [← UInt64.toNat_inj, UInt64.toNat_and, UInt8.toNat_toUInt64]
  exact hbyte b.toNat b.toNat_lt

/-- The byte that `ToVarint64` writes when more bytes follow. -/
theorem toNat_extended (value : UInt64) :
    (value ||| 0x80).toUInt8.toNat = 128 + value.toNat % 128 := by
  have hbyte : ∀ x < 256, x ||| 128 = 128 + x % 128 := by decide +kernel
  have hor : (value ||| 0x80).toNat % 2 ^ 8 = value.toNat % 2 ^ 8 ||| 128 := by
    rw [UInt64.toNat_or, Nat.or_mod_two_pow]
    rfl
  have hlow := hbyte (value.toNat % 2 ^ 8) (Nat.mod_lt _ (by decide))
  rw [UInt64.toNat_toUInt8, hor, hlow]
  omega

/-- The byte that `ToVarint64` writes last. -/
theorem toNat_last {value : UInt64} (hv : value.toNat < 128) :
    (value ||| 0x00).toUInt8.toNat = value.toNat := by
  rw [UInt64.or_zero, UInt64.toNat_toUInt8]
  omega

theorem toNat_shiftRight_seven (value : UInt64) : (value >>> 7).toNat = value.toNat / 128 := by
  rw [UInt64.toNat_shiftRight, Nat.shiftRight_eq_div_pow]
  rfl

/-- Adding bits above those that are there. -/
theorem or_shiftLeft {result x : UInt64} {k : ℕ} (hk : k < 64) (hr : result.toNat < 2 ^ k)
    (hx : x.toNat * 2 ^ k < 2 ^ 64) :
    (result ||| x <<< UInt64.ofNat k).toNat = result.toNat + x.toNat * 2 ^ k := by
  have hk64 : (UInt64.ofNat k).toNat = k := by
    rw [UInt64.toNat_ofNat']
    omega
  rw [UInt64.toNat_or, UInt64.toNat_shiftLeft, hk64, Nat.mod_eq_of_lt hk, Nat.shiftLeft_eq,
    Nat.mod_eq_of_lt hx, Nat.or_comm, Nat.mul_comm x.toNat, ← Nat.two_pow_add_eq_or_of_lt hr]
  omega

/-- The loop of `FromVarint64` at one more byte: it stops, or goes on with more bits. -/
theorem fromVarint64Loop_cons {b : UInt8} {buffer : Bytes} {count : ℕ} {shift result : UInt64} :
    fromVarint64Loop (b :: buffer) count shift result =
      if count + 1 < 9 then
        if b.toNat < 128 then (result ||| (b.toUInt64 &&& 0x7f) <<< shift, count + 1)
        else fromVarint64Loop buffer (count + 1) (shift + 7)
          (result ||| (b.toUInt64 &&& 0x7f) <<< shift)
      else (result ||| b.toUInt64 <<< shift, count + 1) := by
  simp only [fromVarint64Loop, high_eq_zero_iff, varint64MaximumBytes]

/-- The loop of `FromVarint64` reads back what the loop of `ToVarint64` wrote. After `count` bytes
the low `7 * count` bits are known. -/
theorem fromVarint64Loop_toVarint64Loop (rest : Bytes) {fuel count : ℕ} {value result : UInt64}
    (hfuel : count + fuel + 1 = 9) (hvalue : value ≠ 0) (hlt : value.toNat < 2 ^ (64 - 7 * count))
    (hresult : result.toNat < 2 ^ (7 * count)) :
    fromVarint64Loop (toVarint64Loop (fuel + 1) value ++ rest) count (UInt64.ofNat (7 * count))
        result =
      (UInt64.ofNat (result.toNat + value.toNat * 2 ^ (7 * count)),
        count + (toVarint64Loop (fuel + 1) value).length) := by
  induction fuel generalizing count value result with
  | zero =>
    -- the ninth byte holds eight bits
    obtain rfl : count = 8 := by omega
    have hbyte : (value ||| if value < 0x80 then 0x00 else 0x80).toUInt8.toNat = value.toNat := by
      split
      next hsmall =>
        exact toNat_last (by simpa [UInt64.lt_iff_toNat_lt] using hsmall)
      next hsmall =>
        have hv : 128 ≤ value.toNat := by simpa [UInt64.lt_iff_toNat_lt] using hsmall
        rw [toNat_extended]
        omega
    have hor := or_shiftLeft (x := (value ||| if value < 0x80 then 0x00 else 0x80).toUInt8.toUInt64)
      (k := 7 * 8) (by decide) hresult (by rw [UInt8.toNat_toUInt64, hbyte]; omega)
    rw [UInt8.toNat_toUInt64, hbyte] at hor
    rw [toVarint64Loop, if_neg hvalue, List.cons_append, fromVarint64Loop_cons,
      if_neg (by decide), ← hor, UInt64.ofNat_toNat]
    rfl
  | succ fuel ih =>
    have hcount : count + 1 < 9 := by omega
    have hpow : 2 ^ (64 - 7 * count) * 2 ^ (7 * count) = 2 ^ 64 := by
      rw [← pow_add]
      congr 1
      omega
    have hmul : value.toNat * 2 ^ (7 * count) < 2 ^ 64 :=
      hpow ▸ Nat.mul_lt_mul_of_pos_right hlt (by positivity)
    have hlow : value.toNat % 128 * 2 ^ (7 * count) ≤ value.toNat * 2 ^ (7 * count) :=
      Nat.mul_le_mul_right _ (Nat.mod_le _ _)
    rw [toVarint64Loop, if_neg hvalue, List.cons_append, fromVarint64Loop_cons, if_pos hcount]
    by_cases hsmall : value < 0x80
    · -- the last byte
      have hv : value.toNat < 128 := by simpa [UInt64.lt_iff_toNat_lt] using hsmall
      have hzero : value >>> 7 = 0 := by
        rw [← UInt64.toNat_inj, toNat_shiftRight_seven]
        exact Nat.div_eq_of_lt hv
      have hor := or_shiftLeft (x := (value ||| 0x00).toUInt8.toUInt64 &&& 0x7f) (k := 7 * count)
        (by omega) hresult (by rw [low_toNat, toNat_last hv]; omega)
      rw [low_toNat, toNat_last hv, Nat.mod_eq_of_lt hv] at hor
      rw [if_pos hsmall, toNat_last hv, if_pos hv, ← hor, UInt64.ofNat_toNat, hzero]
      rfl
    · -- seven bits, and more to come
      have hv : 128 ≤ value.toNat := by simpa [UInt64.lt_iff_toNat_lt] using hsmall
      have hmod : (128 + value.toNat % 128) % 128 = value.toNat % 128 := by omega
      have hor := or_shiftLeft (x := (value ||| 0x80).toUInt8.toUInt64 &&& 0x7f) (k := 7 * count)
        (by omega) hresult (by rw [low_toNat, toNat_extended, hmod]; omega)
      rw [low_toNat, toNat_extended, hmod] at hor
      have hshift : UInt64.ofNat (7 * count) + 7 = UInt64.ofNat (7 * (count + 1)) := by
        rw [Nat.mul_succ, UInt64.ofNat_add]
        rfl
      have hnext : value >>> 7 ≠ 0 := by
        rw [Ne, ← UInt64.toNat_inj, toNat_shiftRight_seven]
        have h0 : (0 : UInt64).toNat = 0 := rfl
        omega
      have hsplit : 2 ^ (64 - 7 * count) = 2 ^ (64 - 7 * (count + 1)) * 128 := by
        rw [show (128 : ℕ) = 2 ^ 7 from rfl, ← pow_add]
        congr 1
        omega
      have hsucc : 2 ^ (7 * (count + 1)) = 2 ^ (7 * count) * 128 := by
        rw [Nat.mul_succ, pow_add]
        rfl
      rw [if_neg hsmall, toNat_extended, if_neg (by omega), hshift,
        ih (by omega) hnext ?_ ?_, hor, toNat_shiftRight_seven, hsucc]
      · refine Prod.ext (congrArg UInt64.ofNat ?_) ?_
        · have hdiv := Nat.div_add_mod value.toNat 128
          nth_rewrite 3 [← hdiv]
          ring
        · simp only [List.length_cons]
          omega
      · rw [toNat_shiftRight_seven]
        omega
      · rw [hor, hsucc]
        have hbits : value.toNat % 128 * 2 ^ (7 * count) ≤ 127 * 2 ^ (7 * count) :=
          Nat.mul_le_mul_right _ (by omega)
        omega

theorem length_toVarint64_ne_zero (value : UInt64) : (toVarint64 value).length ≠ 0 := by
  unfold toVarint64
  split
  · simp
  next hsmall =>
    have hvalue : value ≠ 0 := by
      rintro rfl
      exact hsmall (by decide)
    simp [varint64MaximumBytes, toVarint64Loop, hvalue]

theorem toVarint64_ne_nil (value : UInt64) : toVarint64 value ≠ [] := fun h =>
  length_toVarint64_ne_zero value (by rw [h]; rfl)

theorem length_toVarint64Loop_le (fuel : ℕ) (value : UInt64) :
    (toVarint64Loop fuel value).length ≤ fuel := by
  induction fuel generalizing value with
  | zero => simp [toVarint64Loop]
  | succ fuel ih =>
    unfold toVarint64Loop
    split
    · simp
    · simpa using ih (value >>> 7)

theorem length_toVarint64_le (value : UInt64) : (toVarint64 value).length ≤ 9 := by
  unfold toVarint64
  split
  · simp
  · exact length_toVarint64Loop_le 9 value

/-- **A varint reads back**, whatever follows it. -/
theorem fromVarint64_toVarint64 (value : UInt64) (rest : Bytes) :
    fromVarint64 (toVarint64 value ++ rest) = (value, (toVarint64 value).length) := by
  unfold toVarint64 fromVarint64
  split
  next hsmall =>
    have hv : value.toNat < 128 := by simpa [UInt64.lt_iff_toNat_lt] using hsmall
    have hbyte : value.toUInt8.toNat = value.toNat := by
      rw [UInt64.toNat_toUInt8]
      omega
    have hlow : (0 : UInt64) ||| (value.toUInt8.toUInt64 &&& 0x7f) <<< 0 = value := by
      rw [UInt64.zero_or, UInt64.shiftLeft_zero, ← UInt64.toNat_inj, low_toNat, hbyte]
      omega
    rw [List.cons_append, fromVarint64Loop_cons, if_pos (by decide), hbyte, if_pos hv, hlow]
    rfl
  next hsmall =>
    have hvalue : value ≠ 0 := by
      rintro rfl
      exact hsmall (by decide)
    have hloop := @fromVarint64Loop_toVarint64Loop rest 8 0 value 0 (by decide) hvalue
      value.toNat_lt (by decide)
    show fromVarint64Loop (toVarint64Loop 9 value ++ rest) 0 0 0 =
      (value, (toVarint64Loop 9 value).length)
    simpa using hloop

/-- A length reads back if it is in the range. -/
theorem clippedVarint64_toVarint64 {lo hi k : ℕ} (hk : k < 2 ^ 63) (hlt : lo < hi) (rest : Bytes) :
    clippedVarint64 (toVarint64 (UInt64.ofNat k) ++ rest) lo hi =
      if lo ≤ k ∧ k ≤ hi then (k, (toVarint64 (UInt64.ofNat k)).length) else (0, 0) := by
  have hint : (UInt64.ofNat k).toInt64.toInt = (k : ℤ) := by
    rw [UInt64.toInt64_ofNat', Int64.toInt_ofNat_of_lt hk]
  have hlength : (toVarint64 (UInt64.ofNat k)).length ≠ 0 := length_toVarint64_ne_zero _
  simp only [clippedVarint64, fromVarint64_toVarint64, hint, hlength, if_false]
  rw [if_neg (by omega)]
  by_cases hrange : lo ≤ k ∧ k ≤ hi
  · rw [if_neg (by omega), if_pos hrange]
    rfl
  · rw [if_pos (by omega), if_neg hrange]

end Bitmarkd.Util
