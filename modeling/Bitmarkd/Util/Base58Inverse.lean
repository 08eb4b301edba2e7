import Bitmarkd.Lib.Radix
import Bitmarkd.Util.Base58

/-!
# Base58 and back

`ToBase58` and `FromBase58` are inverse to each other: byte strings and strings over the alphabet
are both a number with some leading zeros, written in base 256 and in base 58.
-/

namespace Bitmarkd.Util

open Lib Lib.Radix

/-- The digits of a byte string. -/
def byteDigits (b : Bytes) : List ℕ := b.map UInt8.toNat

/-- The digits of a string over the alphabet. -/
def charDigits (s : Bytes) : List ℕ := s.map (alphabet.idxOf ·)

/-- The character of a digit. -/
def charOf (d : ℕ) : UInt8 := alphabet.getD d 0x31

theorem idxOf_charOf {d : ℕ} (h : d < 58) : alphabet.idxOf (charOf d) = d := by
  revert d
  decide +kernel

theorem charOf_mem (d : ℕ) : charOf d ∈ alphabet := by
  by_cases h : d < 58
  · revert d
    decide +kernel
  · have hlength : alphabet.length ≤ d := Nat.le_of_not_lt h
    rw [charOf, List.getD_eq_default _ _ hlength]
    decide

theorem charOf_idxOf {c : UInt8} (h : c ∈ alphabet) : charOf (alphabet.idxOf c) = c := by
  revert c
  decide +kernel

theorem idxOf?_eq_some {c : UInt8} (h : c ∈ alphabet) :
    alphabet.idxOf? c = some (alphabet.idxOf c) := by
  revert c
  decide +kernel

theorem idxOf_lt {c : UInt8} (h : c ∈ alphabet) : alphabet.idxOf c < 58 :=
  List.idxOf_lt_length_of_mem h

/-! ## Reading digits -/

theorem leValue_eq (b : Bytes) : leValue b = Nat.ofDigits 256 (byteDigits b) := by
  induction b with
  | nil => rfl
  | cons x b ih =>
    rw [leValue, ih, byteDigits, byteDigits, List.map_cons, Nat.ofDigits_cons]

theorem beValue_eq (b : Bytes) : beValue b = value 256 (byteDigits b) := by
  rw [beValue, leValue_eq, value, byteDigits, byteDigits, List.map_reverse]

theorem byteDigits_lt (b : Bytes) : ∀ d ∈ byteDigits b, d < 256 := by
  intro d hd
  obtain ⟨x, -, rfl⟩ := List.mem_map.mp hd
  exact x.toNat_lt

theorem map_ofNat_byteDigits (b : Bytes) : (byteDigits b).map UInt8.ofNat = b := by
  simp [byteDigits, Function.comp_def]

theorem leading_byteDigits (b : Bytes) :
    leading (byteDigits b) = (b.takeWhile (· == 0)).length := by
  induction b with
  | nil => rfl
  | cons x b ih =>
    by_cases hx : x = 0
    · subst hx
      simpa [leading, byteDigits] using ih
    · have hx' : x.toNat ≠ 0 := fun h => hx (UInt8.toNat_inj.mp h)
      simp [leading, byteDigits, hx, hx']

theorem leading_charDigits {s : Bytes} (h : ∀ c ∈ s, c ∈ alphabet) :
    leading (charDigits s) = (s.takeWhile (· == 0x31)).length := by
  induction s with
  | nil => rfl
  | cons c s ih =>
    obtain ⟨hc, hs⟩ := List.forall_mem_cons.mp h
    by_cases hone : c = 0x31
    · subst hone
      have hzero : alphabet.idxOf 0x31 = 0 := by decide
      simpa [leading, charDigits, hzero] using ih hs
    · have hne : alphabet.idxOf c ≠ 0 := by
        intro hzero
        have hc' := charOf_idxOf hc
        rw [hzero] at hc'
        exact hone (hc'.symm.trans (by decide))
      simp [leading, charDigits, hone, hne]

/-- The loop computes the value of the digits. -/
theorem fromBase58Loop_eq {s : Bytes} (h : ∀ c ∈ s, c ∈ alphabet) (answer j : ℕ) :
    fromBase58Loop s answer j = some (answer + j * Nat.ofDigits 58 (charDigits s)) := by
  induction s generalizing answer j with
  | nil => simp [fromBase58Loop, charDigits]
  | cons c s ih =>
    obtain ⟨hc, hs⟩ := List.forall_mem_cons.mp h
    have hdigits : charDigits (c :: s) = alphabet.idxOf c :: charDigits s := rfl
    rw [fromBase58Loop, idxOf?_eq_some hc]
    dsimp only
    rw [ih hs, hdigits, Nat.ofDigits_cons]
    congr 1
    ring

theorem bigBytes_eq (n : ℕ) : bigBytes n = (Nat.digits 256 n).reverse.map UInt8.ofNat := by
  rw [bigBytes, List.map_reverse]

theorem beValue_bigBytes (n : ℕ) : beValue (bigBytes n) = n := by
  have hdigits : byteDigits (bigBytes n) = write 256 0 n := by
    rw [byteDigits, bigBytes_eq, List.map_map]
    refine (List.map_congr_left fun d hd => ?_).trans (List.map_id _)
    exact UInt8.toNat_ofNat_of_lt (Nat.digits_lt_base (by decide) (List.mem_reverse.mp hd))
  rw [beValue_eq, hdigits, value_write]

/-- The bytes of a number are as many as it needs. -/
theorem length_bigBytes_le_iff (n k : ℕ) : (bigBytes n).length ≤ k ↔ n < 256 ^ k := by
  rw [bigBytes, List.length_reverse, List.length_map, Nat.digits_length_le_iff (by decide)]

theorem mem_alphabet_of_fromBase58Loop {s : Bytes} {answer j n : ℕ}
    (h : fromBase58Loop s answer j = some n) : ∀ c ∈ s, c ∈ alphabet := by
  induction s generalizing answer j with
  | nil => simp
  | cons c s ih =>
    unfold fromBase58Loop at h
    split at h
    · cases h
    next idx hidx =>
      refine List.forall_mem_cons.mpr ⟨?_, ih h⟩
      by_contra hc
      rw [List.idxOf?_eq_none_iff.mpr hc] at hidx
      cases hidx

/-- `FromBase58` writes the number in base 256. -/
theorem fromBase58_eq {s : Bytes} (h : ∀ c ∈ s, c ∈ alphabet) :
    fromBase58 s =
      (write 256 (leading (charDigits s)) (value 58 (charDigits s))).map UInt8.ofNat := by
  have hloop := fromBase58Loop_eq (s := s.reverse) (fun c hc => h c (List.mem_reverse.mp hc)) 0 1
  have hvalue : Nat.ofDigits 58 (charDigits s.reverse) = value 58 (charDigits s) := by
    rw [value, charDigits, charDigits, List.map_reverse]
  rw [hvalue, Nat.zero_add, Nat.one_mul] at hloop
  rw [fromBase58, hloop, leading_charDigits h, write, List.map_append, List.map_replicate,
    ← bigBytes_eq]
  rfl

/-- `ToBase58` writes it in base 58. -/
theorem toBase58_eq (b : Bytes) :
    toBase58 b = (write 58 (leading (byteDigits b)) (value 256 (byteDigits b))).map charOf := by
  have hone : charOf 0 = 0x31 := by decide
  rw [toBase58, ← leading_byteDigits, beValue_eq, write, List.map_append, List.map_replicate, hone,
    List.reverse_append, List.reverse_replicate, List.map_reverse]
  rfl

/-! ## Inverse -/

theorem toBase58_mem_alphabet (b : Bytes) : ∀ c ∈ toBase58 b, c ∈ alphabet := by
  intro c hc
  rw [toBase58_eq] at hc
  obtain ⟨d, -, rfl⟩ := List.mem_map.mp hc
  exact charOf_mem d

/-- **What is encoded decodes.** -/
theorem fromBase58_toBase58 (b : Bytes) : fromBase58 (toBase58 b) = b := by
  have hdigits : charDigits (toBase58 b) =
      write 58 (leading (byteDigits b)) (value 256 (byteDigits b)) := by
    rw [toBase58_eq, charDigits, List.map_map]
    refine (List.map_congr_left fun d hd => ?_).trans (List.map_id _)
    exact idxOf_charOf (write_lt (by decide) d hd)
  rw [fromBase58_eq (toBase58_mem_alphabet b), hdigits, leading_write, value_write,
    write_leading_value (by decide) (byteDigits_lt b), map_ofNat_byteDigits]

/-- **What decodes is what is encoded.** -/
theorem toBase58_fromBase58_of_mem {s : Bytes} (hchars : ∀ c ∈ s, c ∈ alphabet) :
    toBase58 (fromBase58 s) = s := by
  have hdigits : byteDigits (fromBase58 s) =
      write 256 (leading (charDigits s)) (value 58 (charDigits s)) := by
    rw [fromBase58_eq hchars, byteDigits, List.map_map]
    refine (List.map_congr_left fun d hd => ?_).trans (List.map_id _)
    exact UInt8.toNat_ofNat_of_lt (write_lt (by decide) d hd)
  have hlt : ∀ d ∈ charDigits s, d < 58 := by
    intro d hd
    obtain ⟨c, hc, rfl⟩ := List.mem_map.mp hd
    exact idxOf_lt (hchars c hc)
  rw [toBase58_eq, hdigits, leading_write, value_write, write_leading_value (by decide) hlt,
    charDigits, List.map_map]
  exact (List.map_congr_left fun c hc => charOf_idxOf (hchars c hc)).trans (List.map_id _)

/-- A string with another character is not decoded. -/
theorem fromBase58_eq_nil {s : Bytes} (h : ∃ c ∈ s, c ∉ alphabet) : fromBase58 s = [] := by
  obtain ⟨c, hc, hout⟩ := h
  unfold fromBase58
  split
  · rfl
  next n hn =>
    exact absurd (mem_alphabet_of_fromBase58Loop hn c (List.mem_reverse.mpr hc)) hout

theorem mem_alphabet_of_fromBase58 {s : Bytes} (h : fromBase58 s ≠ []) : ∀ c ∈ s, c ∈ alphabet := by
  intro c hc
  by_contra hout
  exact h (fromBase58_eq_nil ⟨c, hc, hout⟩)

theorem toBase58_fromBase58 {s : Bytes} (h : fromBase58 s ≠ []) : toBase58 (fromBase58 s) = s :=
  toBase58_fromBase58_of_mem (mem_alphabet_of_fromBase58 h)

/-- **Base58 is a bijection** between the byte strings and the strings over the alphabet, and every
other string decodes to nothing. -/
theorem base58_bijective :
    (∀ b : Bytes, (∀ c ∈ toBase58 b, c ∈ alphabet) ∧ fromBase58 (toBase58 b) = b) ∧
    (∀ s : Bytes, (∀ c ∈ s, c ∈ alphabet) → toBase58 (fromBase58 s) = s) ∧
    ∀ s : Bytes, (∃ c ∈ s, c ∉ alphabet) → fromBase58 s = [] :=
  ⟨fun b => ⟨toBase58_mem_alphabet b, fromBase58_toBase58 b⟩,
    fun _ => toBase58_fromBase58_of_mem, fun _ => fromBase58_eq_nil⟩

end Bitmarkd.Util
