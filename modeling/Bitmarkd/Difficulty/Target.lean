import Bitmarkd.Difficulty
import Bitmarkd.Lib.Mantissa
import Bitmarkd.Sample
import Bitmarkd.Util.Base58Inverse

/-!
# Difficulty bits and targets

The bits of a difficulty are an exponent `e` of 8 bits and a mantissa of 57 bits whose leading one
is left out; the target is the mantissa shifted left by `191 - e`. `SetBits` expands bits to the
target, `convertDifficultyIntoReciprocal` goes back: it takes eight bytes of the target from the
first non-zero one on, shifts them right until the leading one is bit 56, counts the ones that fall
out, and adds one to the mantissa if they are more than four.

Both directions are arithmetic on a mantissa (`setBits_eq_ok`, `scanBuffer_spec`). So the way from
bits to the target and back is exact (`bits_of_target`), and the way from a target to bits loses
less than one unit of the mantissa (`target_of_bits_iff`), unless the one is added to a mantissa of
ones only: the carry goes into the leading bit, which is left out, while the exponent stays.
-/

namespace Bitmarkd.Difficulty

open Lib Util

/-! ## The way back -/

/-- The next bytes of the buffer, or-ed into a word from byte `j - 1` downwards. -/
def orBytes : ℕ → Bytes → UInt64 → UInt64
  | j + 1, b :: rest, u => orBytes j rest (u ||| b.toUInt64 <<< UInt64.ofNat (8 * j))
  | _, _, u => u

/-- The loop that brings the leading one to bit 56: the word, the exponent and the number of ones
shifted out. -/
def normalise : ℕ → UInt64 → UInt64 → ℕ → Except Stop (UInt64 × UInt64 × ℕ)
  | 0, _, _, _ => .error .outOfSteps
  | turns + 1, u, e, rounder =>
    if 0xff00000000000000 &&& u = 0x0100000000000000 then .ok (u, e, rounder)
    else normalise turns (u >>> 1) (e - 1) (if u &&& 1 = 1 then rounder + 1 else rounder)

/-- The bits of a normalised word: it is rounded, the leading one is hidden and the exponent put in
front. -/
def packBits (u e : UInt64) (rounder : ℕ) : UInt64 :=
  let u := if rounder > 4 then u + 1 else u
  (u &&& (0x00ffffffffffffff : UInt64)) ||| e <<< 56

/-- The loop `scan_buffer` over what is left of a buffer of `len` bytes, at most 32. A buffer of
zeros leaves the bits as they are. -/
def scanBuffer (turns len : ℕ) : ℕ → Bytes → Except Stop (Option UInt64)
  | _, [] => .ok none
  | i, b :: rest =>
    if b = 0 then scanBuffer turns len (i + 1) rest
    else do
      let u := orBytes 7 rest (b.toUInt64 <<< 56)
      let e := UInt64.ofNat (32 - len + i) * 8 - 1
      let (u, e, rounder) ← normalise turns u e 0
      .ok (some (packBits u e rounder))

/-- `convertDifficultyIntoReciprocal`; `quotient` divides the target of difficulty one by the value
and panics if that is not a number. -/
def convertDifficultyIntoReciprocal (quotient : Float64 → Except Stop ℕ) (turns : ℕ)
    (difficulty : Difficulty) (f : Float64) : Except Stop Difficulty :=
  if belowOne f then .ok ⟨oneUint64, one, minimumReciprocal⟩
  else do
    let d ← quotient f
    let buffer := bigBytes d
    if buffer.length > 32 then panicAt .difficultySetBits
    else
      let bits ← scanBuffer turns buffer.length 0 buffer
      .ok ⟨bits.getD difficulty.bits, d, f⟩

/-! ## Words as numbers -/

/-- The exponent byte. -/
def exponent (u : UInt64) : ℕ := (u >>> 56).toNat

/-- The mantissa without its leading one. -/
def fraction (u : UInt64) : ℕ := (u &&& 0x00ffffffffffffff).toNat

theorem exponent_eq (u : UInt64) : exponent u = u.toNat / 2 ^ 56 := by
  rw [exponent, UInt64.toNat_shiftRight, Nat.shiftRight_eq_div_pow]
  rfl

theorem fraction_eq (u : UInt64) : fraction u = u.toNat % 2 ^ 56 := by
  rw [fraction, UInt64.toNat_and]
  exact Nat.and_two_pow_sub_one_eq_mod u.toNat 56

theorem fraction_lt (u : UInt64) : fraction u < 2 ^ 56 := by
  rw [fraction_eq]
  exact Nat.mod_lt _ (by decide)

theorem eq_of_exponent_of_fraction {u v : UInt64} (he : exponent u = exponent v)
    (hf : fraction u = fraction v) : u = v := by
  rw [exponent_eq, exponent_eq] at he
  rw [fraction_eq, fraction_eq] at hf
  apply UInt64.toNat_inj.mp
  omega

/-- Bits that do not overlap are added. -/
theorem or_eq_add {a b : ℕ} (w : ℕ) (hb : b < 2 ^ w) (ha : a % 2 ^ w = 0) : a ||| b = a + b := by
  obtain ⟨q, rfl⟩ := Nat.dvd_of_mod_eq_zero ha
  exact (Nat.two_pow_add_eq_or_of_lt hb q).symm

/-! ## `SetBits` -/

/-- The target of some bits. -/
def target (u : UInt64) : ℕ := (2 ^ 56 + fraction u) * 2 ^ (191 - exponent u)

theorem isMantissa_fraction (u : UInt64) : IsMantissa 56 (2 ^ 56 + fraction u) := by
  have := fraction_lt u
  constructor
  · omega
  · rw [pow_succ]
    omega

theorem target_oneUint64 : target oneUint64 = one := by decide +kernel

theorem exponent_oneUint64 : exponent oneUint64 = 0 := by decide

/-- `SetBits` stores the target, also for the bits it treats apart. -/
theorem setBits_of_lt (env : Env) {u : UInt64} (h : exponent u < 0xc0) :
    ∃ reciprocal, setBits env u = .ok ⟨u, target u, reciprocal⟩ := by
  unfold setBits
  by_cases hone : u = oneUint64
  · subst hone
    rw [if_pos rfl, ← target_oneUint64]
    exact ⟨_, rfl⟩
  · have hlt : ¬ (u >>> 56).toNat ≥ 0xc0 := not_le.mpr h
    have hmantissa : (u &&& 0x00ffffffffffffff ||| 0x0100000000000000).toNat
        = 2 ^ 56 + fraction u := by
      rw [UInt64.toNat_or, Nat.or_comm]
      exact or_eq_add 56 (fraction_lt u) (by decide)
    rw [if_neg hone, if_neg hlt, hmantissa, Nat.shiftLeft_eq]
    exact ⟨_, rfl⟩

theorem setBits_of_ge (env : Env) {u : UInt64} (h : 0xc0 ≤ exponent u) :
    setBits env u = panicAt .difficultySetBits := by
  have hone : u ≠ oneUint64 := by
    intro heq
    rw [heq, exponent_oneUint64] at h
    exact absurd h (by decide)
  unfold setBits
  rw [if_neg hone]
  exact if_pos h

theorem setBits_eq_ok {env : Env} {u : UInt64} {d : Difficulty} (h : setBits env u = .ok d) :
    exponent u < 0xc0 ∧ d.bits = u ∧ d.big = target u := by
  by_cases he : exponent u < 0xc0
  · obtain ⟨r, hr⟩ := setBits_of_lt env he
    rw [hr] at h
    cases h
    exact ⟨he, rfl, rfl⟩
  · rw [setBits_of_ge env (not_lt.mp he)] at h
    cases h

theorem target_lt_of_exponent_lt {u v : UInt64} (hv : exponent v < 0xc0)
    (h : exponent u < exponent v) : target v < target u :=
  (isMantissa_fraction v).mul_lt_mul (isMantissa_fraction u) (by omega)

theorem target_lt_of_fraction_lt {u v : UInt64} (he : exponent u = exponent v)
    (h : fraction u < fraction v) : target u < target v := by
  rw [target, target, he]
  exact Nat.mul_lt_mul_of_pos_right (by omega) (Nat.two_pow_pos _)

theorem target_inj {u v : UInt64} (hu : exponent u < 0xc0) (hv : exponent v < 0xc0)
    (h : target u = target v) : u = v := by
  have he : exponent u = exponent v := by
    rcases Nat.lt_trichotomy (exponent u) (exponent v) with hlt | heq | hgt
    · exact absurd h (target_lt_of_exponent_lt hv hlt).ne'
    · exact heq
    · exact absurd h (target_lt_of_exponent_lt hu hgt).ne
  have hf : fraction u = fraction v := by
    rcases Nat.lt_trichotomy (fraction u) (fraction v) with hlt | heq | hgt
    · exact absurd h (target_lt_of_fraction_lt he hlt).ne
    · exact heq
    · exact absurd h (target_lt_of_fraction_lt he.symm hgt).ne'
  exact eq_of_exponent_of_fraction he hf

/-! ## The scan -/

theorem toNat_or_shiftLeft {u : UInt64} (b : UInt8) {j : ℕ} (hj : j < 8)
    (hu : u.toNat % 2 ^ (8 * (j + 1)) = 0) :
    (u ||| b.toUInt64 <<< UInt64.ofNat (8 * j)).toNat = u.toNat + b.toNat * 2 ^ (8 * j) := by
  have hb := b.toNat_lt
  have hfits : b.toNat * 2 ^ (8 * j) < 2 ^ (8 * (j + 1)) := by
    rw [show 8 * (j + 1) = 8 + 8 * j by ring, pow_add]
    exact Nat.mul_lt_mul_of_pos_right hb (Nat.two_pow_pos _)
  have hword : b.toNat * 2 ^ (8 * j) < 2 ^ 64 :=
    hfits.trans_le (Nat.pow_le_pow_right (by decide) (by omega))
  have hshift : (UInt64.ofNat (8 * j)).toNat % 64 = 8 * j := by
    rw [UInt64.toNat_ofNat']
    omega
  rw [UInt64.toNat_or, UInt64.toNat_shiftLeft, hshift, UInt8.toNat_toUInt64, Nat.shiftLeft_eq,
    Nat.mod_eq_of_lt hword]
  exact or_eq_add _ hfits hu

/-- The bytes are read as a big-endian number. -/
theorem toNat_orBytes {j : ℕ} (hj : j ≤ 8) {l : Bytes} (hl : j ≤ l.length) {u : UInt64}
    (hu : u.toNat % 2 ^ (8 * j) = 0) :
    (orBytes j l u).toNat = u.toNat + beValue (l.take j) := by
  induction j generalizing l u with
  | zero => simp [orBytes, beValue, leValue]
  | succ j ih =>
    obtain _ | ⟨b, rest⟩ := l
    · simp at hl
    have hlength : j ≤ rest.length := by simpa using hl
    have hword := toNat_or_shiftLeft b (by omega) hu
    have hlow : (u ||| b.toUInt64 <<< UInt64.ofNat (8 * j)).toNat % 2 ^ (8 * j) = 0 := by
      have hdvd : 2 ^ (8 * j) ∣ u.toNat :=
        (Nat.pow_dvd_pow 2 (by omega)).trans (Nat.dvd_of_mod_eq_zero hu)
      rw [hword]
      exact Nat.mod_eq_zero_of_dvd (dvd_add hdvd (Dvd.intro_left _ rfl))
    rw [orBytes, ih (by omega) hlength hlow, hword, List.take_succ_cons, beValue_cons,
      List.length_take_of_le hlength, pow_mul, show (2 : ℕ) ^ 8 = 256 by rfl, Nat.add_assoc]

theorem and_top_eq_iff (u : UInt64) :
    0xff00000000000000 &&& u = 0x0100000000000000 ↔ u.toNat / 2 ^ 56 = 1 := by
  have hmask : UInt64.toNat 0xff00000000000000 = (2 ^ 8 - 1) <<< 56 := by decide
  have htop : (0xff00000000000000 &&& u).toNat = (u.toNat / 2 ^ 56) <<< 56 := by
    rw [UInt64.toNat_and, hmask]
    apply Nat.eq_of_testBit_eq
    intro i
    rw [Nat.testBit_and, Nat.testBit_shiftLeft, Nat.testBit_shiftLeft, Nat.testBit_two_pow_sub_one,
      Nat.testBit_div_two_pow]
    by_cases hlow : 56 ≤ i
    · by_cases hhigh : i < 64
      · simp [hlow, show i - 56 < 8 by omega]
      · have : u.toNat.testBit i = false :=
          Nat.testBit_lt_two_pow (u.toNat_lt.trans_le (Nat.pow_le_pow_right (by decide) (by omega)))
        simp [hlow, this]
    · simp [hlow]
  rw [← UInt64.toNat_inj, htop, Nat.shiftLeft_eq]
  show _ = 2 ^ 56 ↔ _
  omega

theorem toNat_shiftRight_one (u : UInt64) : (u >>> 1).toNat = u.toNat / 2 := by
  rw [UInt64.toNat_shiftRight, Nat.shiftRight_eq_div_pow]
  rfl

theorem and_one_eq_iff (u : UInt64) : u &&& 1 = 1 ↔ u.toNat % 2 = 1 := by
  rw [← UInt64.toNat_inj, UInt64.toNat_and]
  exact Eq.congr_left (Nat.and_one_is_mod _)

/-- A word with `w` bits too many is shifted `w` times. -/
theorem normalise_spec {w turns : ℕ} (hturns : w < turns) {u : UInt64} (e : UInt64) (rounder : ℕ)
    (hu : IsMantissa (56 + w) u.toNat) :
    normalise turns u e rounder =
      .ok (UInt64.ofNat (u.toNat / 2 ^ w), e - UInt64.ofNat w, rounder + ones w u.toNat) := by
  induction w generalizing turns u e rounder with
  | zero =>
    obtain _ | turns := turns
    · exact absurd hturns (Nat.lt_irrefl 0)
    have hdone : u.toNat / 2 ^ 56 = 1 := by
      obtain ⟨hlow, hhigh⟩ := hu
      omega
    rw [normalise, if_pos ((and_top_eq_iff u).mpr hdone)]
    simp [ones]
  | succ w ih =>
    obtain _ | turns := turns
    · exact absurd hturns (Nat.not_lt_zero _)
    obtain ⟨hlow, hhigh⟩ := hu
    have hpow : 2 ^ 57 ≤ 2 ^ (56 + (w + 1)) := Nat.pow_le_pow_right (by decide) (by omega)
    have hmore : ¬ u.toNat / 2 ^ 56 = 1 := by omega
    have hhalf : IsMantissa (56 + w) (u >>> 1).toNat := by
      rw [toNat_shiftRight_one]
      constructor
      · rw [← Nat.add_assoc, pow_succ] at hlow
        omega
      · rw [show 56 + (w + 1) + 1 = 56 + w + 1 + 1 by omega, pow_succ] at hhigh
        omega
    have hrounder : (if u &&& 1 = 1 then rounder + 1 else rounder) = rounder + u.toNat % 2 := by
      by_cases hbit : u.toNat % 2 = 1
      · rw [if_pos ((and_one_eq_iff u).mpr hbit), hbit]
      · rw [if_neg (mt (and_one_eq_iff u).mp hbit)]
        omega
    rw [normalise, if_neg (mt (and_top_eq_iff u).mp hmore), ih (by omega) _ _ hhalf, hrounder,
      toNat_shiftRight_one, Nat.div_div_eq_div_mul, ← pow_succ', ones, Nat.add_assoc,
      UInt64.ofNat_add]
    rw [sub_sub, add_comm (1 : UInt64)]
    rfl

/-- The bits that the rounding looks at: of those after the mantissa, as many as the first byte of
the number has after its leading one. -/
def droppedOnes (d : ℕ) : ℕ :=
  let k := d.size - 57
  ones (k % 8) (d / 2 ^ (k - k % 8))

/-- What the mantissa is rounded by. -/
def roundUp (d : ℕ) : ℕ := if 4 < droppedOnes d then 1 else 0

theorem toNat_packBits {u e : UInt64} {rounder : ℕ} (hu : u.toNat < 2 ^ 57) (he : e.toNat < 2 ^ 8) :
    (packBits u e rounder).toNat =
      e.toNat * 2 ^ 56 + (u.toNat + if 4 < rounder then 1 else 0) % 2 ^ 56 := by
  have hsum : (if rounder > 4 then u + 1 else u).toNat =
      u.toNat + if 4 < rounder then 1 else 0 := by
    by_cases h : 4 < rounder
    · rw [if_pos h, if_pos h, UInt64.toNat_add]
      exact Nat.mod_eq_of_lt (by show u.toNat + 1 < 2 ^ 64; omega)
    · rw [if_neg h, if_neg h, Nat.add_zero]
  have hshift : (e <<< 56).toNat = e.toNat * 2 ^ 56 := by
    rw [UInt64.toNat_shiftLeft, Nat.shiftLeft_eq]
    exact Nat.mod_eq_of_lt (by show e.toNat * 2 ^ 56 < 2 ^ 64; omega)
  have hfraction := fraction_eq (if rounder > 4 then u + 1 else u)
  unfold packBits
  rw [UInt64.toNat_or, hshift, ← hsum, ← hfraction, Nat.or_comm]
  exact or_eq_add 56 (fraction_lt _) (Nat.mul_mod_left _ _)

/-- The bytes of a number and its bits. -/
theorem size_of_length_bigBytes {d n : ℕ} (hlow : 2 ^ 56 ≤ d) (hn : (bigBytes d).length = n) :
    8 ≤ n ∧ 8 * (n - 1) < d.size ∧ d.size ≤ 8 * n := by
  have hsize : 56 < d.size := Nat.lt_size.mpr hlow
  have hfits : d.size ≤ 8 * n := by
    rw [Nat.size_le, pow_mul]
    exact (length_bigBytes_le_iff d n).mp hn.le
  have hneeded : 8 * (n - 1) < d.size := by
    rw [Nat.lt_size, pow_mul]
    exact not_lt.mp (mt (length_bigBytes_le_iff d (n - 1)).mpr (by omega))
  exact ⟨by omega, hneeded, hfits⟩

/-- The first eight bytes of a number. -/
theorem beValue_take_bigBytes {d n : ℕ} (hn : (bigBytes d).length = n) :
    beValue ((bigBytes d).take 8) = d / 2 ^ (8 * (n - 8)) := by
  have hsplit := beValue_append ((bigBytes d).take 8) ((bigBytes d).drop 8)
  have hrest := beValue_lt ((bigBytes d).drop 8)
  rw [List.take_append_drop, beValue_bigBytes] at hsplit
  rw [List.length_drop, hn] at hsplit hrest
  rw [pow_mul, show (2 : ℕ) ^ 8 = 256 by rfl]
  symm
  apply Nat.div_eq_of_lt_le
  · exact (Nat.le_add_right _ _).trans hsplit.ge
  · rw [Nat.succ_mul]
    exact hsplit.trans_lt (Nat.add_lt_add_left hrest _)

/-- **The bits of a number.** The exponent counts the zeros in front of it, and the mantissa is its
first 57 bits, rounded. -/
theorem scanBuffer_spec {d turns : ℕ} (hturns : 8 ≤ turns) (hlow : 2 ^ 56 ≤ d)
    (hhigh : d < 2 ^ 248) :
    ∃ u, scanBuffer turns (bigBytes d).length 0 (bigBytes d) = .ok (some u) ∧
      exponent u = 248 - d.size ∧ fraction u = (leadingBits 56 d + roundUp d) % 2 ^ 56 := by
  obtain ⟨n, hn⟩ : ∃ n, (bigBytes d).length = n := ⟨_, rfl⟩
  obtain ⟨hlength, hneeded, hfits⟩ := size_of_length_bigBytes hlow hn
  have hsize : d.size ≤ 248 := Nat.size_le.mpr hhigh
  -- the first byte has `w` bits after its leading one
  obtain ⟨w, hw⟩ : ∃ w, d.size = 57 + w + 8 * (n - 8) := ⟨d.size - 57 - 8 * (n - 8), by omega⟩
  have hw7 : w ≤ 7 := by omega
  have hword : beValue ((bigBytes d).take 8) = leadingBits (56 + w) d := by
    rw [beValue_take_bigBytes hn, leadingBits, hw]
    congr 2
    omega
  have hvalue := beValue_bigBytes d
  generalize hbytes : bigBytes d = buffer at hn hword hvalue
  obtain _ | ⟨b, rest⟩ := buffer
  · rw [List.length_nil] at hn
    omega
  rw [List.length_cons] at hn
  have hb : b ≠ 0 := by
    intro hzero
    have hlt := beValue_lt rest
    rw [hzero, beValue_cons, UInt8.toNat_zero, Nat.zero_mul, Nat.zero_add] at hvalue
    rw [hvalue, show rest.length = n - 1 by omega, show 256 = 2 ^ 8 by rfl, ← pow_mul,
      ← Nat.size_le] at hlt
    omega
  have hgather : (orBytes 7 rest (b.toUInt64 <<< 56)).toNat = leadingBits (56 + w) d := by
    have hread := toNat_orBytes le_rfl (l := b :: rest) (by rw [List.length_cons]; omega)
      (u := 0) (by decide)
    rw [orBytes, UInt64.zero_or, hword] at hread
    simpa using hread
  have hmantissa : IsMantissa (56 + w) (orBytes 7 rest (b.toUInt64 <<< 56)).toNat := by
    rw [hgather]
    exact isMantissa_leadingBits (Nat.lt_size.mp (by omega))
  have hspan : leadingBits (56 + w) d / 2 ^ w = leadingBits 56 d := by
    rw [leadingBits, leadingBits, Nat.div_div_eq_div_mul, ← pow_add]
    congr 2
    omega
  have hones : ones w (leadingBits (56 + w) d) = droppedOnes d := by
    have hk : (d.size - 57) % 8 = w := by omega
    rw [droppedOnes, leadingBits, hk]
    congr 3
    omega
  have hexponent : (UInt64.ofNat (32 - (b :: rest).length + 0) * 8 - 1 - UInt64.ofNat w).toNat
      = 248 - d.size := by
    have hcons : (b :: rest).length = n := hn
    rw [hcons, UInt64.toNat_sub, UInt64.toNat_sub, UInt64.toNat_mul, UInt64.toNat_ofNat',
      UInt64.toNat_ofNat']
    show (2 ^ 64 - w % 2 ^ 64 +
      (2 ^ 64 - 1 + (32 - n + 0) % 2 ^ 64 * 8 % 2 ^ 64) % 2 ^ 64) % 2 ^ 64 = _
    omega
  have hmain : (UInt64.ofNat (leadingBits 56 d)).toNat = leadingBits 56 d := by
    rw [UInt64.toNat_ofNat']
    have := (isMantissa_leadingBits hlow).2
    exact Nat.mod_eq_of_lt (by omega)
  rw [scanBuffer, if_neg hb]
  dsimp only
  rw [normalise_spec (by omega) _ _ hmantissa, hgather, hspan, hones, Nat.zero_add]
  refine ⟨_, rfl, ?_⟩
  rw [exponent_eq, fraction_eq, toNat_packBits, hexponent, hmain]
  · rw [Nat.mul_comm, Nat.mul_add_div (by decide), Nat.mul_add_mod, Nat.mod_mod,
      Nat.div_eq_of_lt (Nat.mod_lt _ (by decide))]
    exact ⟨rfl, rfl⟩
  · rw [hmain]
    exact (isMantissa_leadingBits hlow).2
  · rw [hexponent]
    omega

/-! ## There and back -/

theorem le_target {u : UInt64} : 2 ^ 56 ≤ target u :=
  (isMantissa_fraction u).1.trans (Nat.le_mul_of_pos_right _ (Nat.two_pow_pos _))

theorem size_target {u : UInt64} (hu : exponent u < 0xc0) : (target u).size = 248 - exponent u := by
  rw [target, (isMantissa_fraction u).size_mul]
  omega

/-- Nothing is rounded if the bits after the mantissa are zero. -/
theorem droppedOnes_eq_zero {d : ℕ} (h : 2 ^ (d.size - 57) ∣ d) : droppedOnes d = 0 := by
  rw [droppedOnes]
  generalize d.size - 57 = k at h
  apply ones_eq_zero_of_dvd
  apply Nat.dvd_div_of_mul_dvd
  rw [← pow_add, Nat.sub_add_cancel (Nat.mod_le k 8)]
  exact h

theorem roundUp_target {u : UInt64} (hu : exponent u < 0xc0) : roundUp (target u) = 0 := by
  have hdvd : 2 ^ ((target u).size - 57) ∣ target u := by
    rw [size_target hu, show 248 - exponent u - 57 = 191 - exponent u by omega]
    exact Dvd.intro_left _ rfl
  rw [roundUp, droppedOnes_eq_zero hdvd]
  rfl

theorem scanBuffer_target {u : UInt64} (hu : exponent u < 0xc0) {turns : ℕ} (hturns : 8 ≤ turns) :
    scanBuffer turns (bigBytes (target u)).length 0 (bigBytes (target u)) = .ok (some u) := by
  have hsize := size_target hu
  have hhigh : target u < 2 ^ 248 := Nat.size_le.mp (by omega)
  obtain ⟨v, hscan, he, hf⟩ := scanBuffer_spec hturns le_target hhigh
  have hv : v = u := by
    apply eq_of_exponent_of_fraction
    · rw [he, hsize]
      omega
    · have hlt := fraction_lt u
      rw [hf, roundUp_target hu, target, (isMantissa_fraction u).leadingBits_mul]
      omega
  rw [hscan, hv]

/-- **Bits and targets correspond.** Different bits have different targets, ordered by the exponent
downwards and then by the mantissa, and the bits of a target are the ones it was made from. -/
theorem bits_of_target (env : Env) :
    (∀ u, exponent u < 0xc0 → ∃ d, setBits env u = .ok d) ∧
    (∀ u v d d', setBits env u = .ok d → setBits env v = .ok d' →
      (d.big = d'.big → u = v) ∧
      (exponent u < exponent v → d'.big < d.big) ∧
      (exponent u = exponent v → fraction u < fraction v → d.big < d'.big)) ∧
    (∀ u d turns, setBits env u = .ok d → 8 ≤ turns →
      scanBuffer turns (bigBytes d.big).length 0 (bigBytes d.big) = .ok (some u)) := by
  refine ⟨?_, ?_, ?_⟩
  · intro u hu
    obtain ⟨r, hr⟩ := setBits_of_lt env hu
    exact ⟨_, hr⟩
  · intro u v d d' hd hd'
    obtain ⟨hu, -, hbig⟩ := setBits_eq_ok hd
    obtain ⟨hv, -, hbig'⟩ := setBits_eq_ok hd'
    rw [hbig, hbig']
    exact ⟨target_inj hu hv, target_lt_of_exponent_lt hv, target_lt_of_fraction_lt⟩
  · intro u d turns hd hturns
    obtain ⟨hu, -, hbig⟩ := setBits_eq_ok hd
    rw [hbig]
    exact scanBuffer_target hu hturns

/-! ## Rounding -/

/-- The one is added to a mantissa of ones only. -/
def Carries (d : ℕ) : Prop := leadingBits 56 d = 2 ^ 57 - 1 ∧ 4 < droppedOnes d

instance (d : ℕ) : Decidable (Carries d) := inferInstanceAs (Decidable (_ ∧ _))

/-- The mantissa that is read back. -/
theorem add_roundUp_mod {d : ℕ} (hlow : 2 ^ 56 ≤ d) :
    2 ^ 56 + (leadingBits 56 d + roundUp d) % 2 ^ 56 =
      if Carries d then 2 ^ 56 else leadingBits 56 d + roundUp d := by
  obtain ⟨hm, hm'⟩ := isMantissa_leadingBits hlow
  unfold Carries roundUp
  by_cases hround : 4 < droppedOnes d
  · by_cases hones : leadingBits 56 d = 2 ^ 57 - 1
    · simp [hround, hones]
    · simp only [hround, hones, if_true, false_and, if_false]
      omega
  · simp only [hround, and_false, if_false]
    omega

/-- A number lies between its mantissa and the next one. -/
theorem leadingBits_bracket (d : ℕ) :
    leadingBits 56 d * 2 ^ (d.size - 57) + d % 2 ^ (d.size - 57) = d ∧
      d % 2 ^ (d.size - 57) < 2 ^ (d.size - 57) := by
  refine ⟨?_, Nat.mod_lt _ (Nat.two_pow_pos _)⟩
  rw [leadingBits, Nat.mul_comm]
  exact Nat.div_add_mod d _

theorem dist_lt_iff {d : ℕ} (hlow : 2 ^ 56 ≤ d) :
    |(d : ℤ) - ((2 ^ 56 + (leadingBits 56 d + roundUp d) % 2 ^ 56) * 2 ^ (d.size - 57) : ℕ)|
      < 2 ^ (d.size - 57) ↔ ¬ Carries d := by
  obtain ⟨hvalue, hrest⟩ := leadingBits_bracket d
  have hpos : 0 < d % 2 ^ (d.size - 57) ∨ roundUp d = 0 := by
    by_cases hdvd : 2 ^ (d.size - 57) ∣ d
    · right
      rw [roundUp, droppedOnes_eq_zero hdvd]
      rfl
    · left
      exact Nat.pos_of_ne_zero (mt Nat.dvd_of_mod_eq_zero hdvd)
  have hround : roundUp d = 0 ∨ roundUp d = 1 := by
    rw [roundUp]
    split <;> simp
  rw [add_roundUp_mod hlow, ← Nat.cast_ofNat (R := ℤ), ← Nat.cast_pow, abs_lt]
  by_cases hcarry : Carries d
  · rw [if_pos hcarry]
    rw [hcarry.1] at hvalue
    generalize 2 ^ (d.size - 57) = unit at hvalue hrest
    generalize d % unit = rest at hvalue hrest
    simp only [hcarry, not_true, iff_false]
    omega
  · rw [if_neg hcarry, Nat.add_mul]
    generalize 2 ^ (d.size - 57) = unit at hvalue hrest hpos
    generalize d % unit = rest at hvalue hrest hpos
    generalize leadingBits 56 d * unit = main at hvalue
    rcases hround with hzero | hone
    · simp only [hcarry, not_false_iff, iff_true, hzero]
      omega
    · simp only [hcarry, not_false_iff, iff_true, hone]
      omega

/-- **The bits of a target are accurate** to one unit of the mantissa just when no carry is lost. -/
theorem target_of_bits_iff (env : Env) {d turns : ℕ} (hlow : 2 ^ 56 ≤ d) (hhigh : d ≤ one)
    (hturns : 8 ≤ turns) :
    (∃ u t, scanBuffer turns (bigBytes d).length 0 (bigBytes d) = .ok (some u) ∧
      exponent u < 0xc0 ∧ setBits env u = .ok t ∧
      |(d : ℤ) - t.big| < 2 ^ (d.size - 57)) ↔ ¬ Carries d := by
  have hbelow : d < 2 ^ 248 := hhigh.trans_lt (by decide)
  have hsize : 56 < d.size ∧ d.size ≤ 248 := ⟨Nat.lt_size.mpr hlow, Nat.size_le.mpr hbelow⟩
  obtain ⟨u, hscan, he, hf⟩ := scanBuffer_spec hturns hlow hbelow
  have hu : exponent u < 0xc0 := by omega
  obtain ⟨r, hset⟩ := setBits_of_lt env hu
  have htarget : target u =
      (2 ^ 56 + (leadingBits 56 d + roundUp d) % 2 ^ 56) * 2 ^ (d.size - 57) := by
    rw [target, he, hf]
    congr 2
    omega
  rw [← dist_lt_iff hlow, ← htarget]
  constructor
  · rintro ⟨v, t, hscan', -, hset', hdist⟩
    rw [hscan] at hscan'
    cases hscan'
    rw [hset] at hset'
    cases hset'
    exact hdist
  · intro hdist
    exact ⟨u, _, hscan, hu, hset, hdist⟩

end Bitmarkd.Difficulty

namespace Bitmarkd.Sample

open Difficulty Util Lib

theorem target_of_bits_two_pow :
    ∃ u t, scanBuffer 8 (bigBytes (2 ^ 56)).length 0 (bigBytes (2 ^ 56)) = .ok (some u) ∧
      exponent u < 0xc0 ∧ setBits env u = .ok t ∧
      |((2 ^ 56 : ℕ) : ℤ) - t.big| < 2 ^ ((2 ^ 56).size - 57) :=
  (target_of_bits_iff env le_rfl (by decide) le_rfl).mpr (by decide +kernel)

/-- A target of 247 ones becomes its half. -/
theorem bits_lose_carry :
    2 ^ 56 ≤ 2 ^ 247 - 1 ∧ 2 ^ 247 - 1 ≤ one ∧
      scanBuffer 8 (bigBytes (2 ^ 247 - 1)).length 0 (bigBytes (2 ^ 247 - 1))
        = .ok (some 0x0100000000000000) ∧
      ∃ t, setBits env 0x0100000000000000 = .ok t ∧
        2 ^ ((2 ^ 247 - 1).size - 57) ≤ |((2 ^ 247 - 1 : ℕ) : ℤ) - t.big| := by
  refine ⟨by decide, by decide, by decide +kernel, ?_⟩
  obtain ⟨r, hr⟩ := setBits_of_lt env (u := 0x0100000000000000) (by decide)
  exact ⟨_, hr, show _ ≤ |_ - (target 0x0100000000000000 : ℤ)| by decide +kernel⟩

end Bitmarkd.Sample
