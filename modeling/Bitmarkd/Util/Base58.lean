import Bitmarkd.Fault

/-!
# Base58

`util/base58.go`: a byte string is read as one big number in base 58, with a leading `1` for each
leading zero byte. Strings are their bytes.
-/

namespace Bitmarkd.Util

open Lib

/-- The characters of `alphabet`, as bytes. -/
def alphabet : Bytes :=
  [0x31, 0x32, 0x33, 0x34, 0x35, 0x36, 0x37, 0x38, 0x39,
   0x41, 0x42, 0x43, 0x44, 0x45, 0x46, 0x47, 0x48, 0x4a, 0x4b, 0x4c, 0x4d, 0x4e,
   0x50, 0x51, 0x52, 0x53, 0x54, 0x55, 0x56, 0x57, 0x58, 0x59, 0x5a,
   0x61, 0x62, 0x63, 0x64, 0x65, 0x66, 0x67, 0x68, 0x69, 0x6a, 0x6b,
   0x6d, 0x6e, 0x6f, 0x70, 0x71, 0x72, 0x73, 0x74, 0x75, 0x76, 0x77, 0x78, 0x79, 0x7a]

/-- `big.Int.Bytes`: the digits of a number, most significant first, none for zero. -/
def bigBytes (n : Nat) : Bytes := ((Nat.digits 256 n).map UInt8.ofNat).reverse

/-- The loop of `FromBase58`, from the last character to the first. -/
def fromBase58Loop : Bytes → Nat → Nat → Option Nat
  | [], answer, _ => some answer
  | c :: reversed, answer, j =>
    match alphabet.idxOf? c with
    | none => none
    | some idx => fromBase58Loop reversed (answer + j * idx) (j * 58)

/-- `FromBase58`: empty if a character is not in the alphabet. -/
def fromBase58 (b : Bytes) : Bytes :=
  match fromBase58Loop b.reverse 0 1 with
  | none => []
  | some answer =>
    let numZeros := (b.takeWhile (· == 0x31)).length
    List.replicate numZeros 0 ++ bigBytes answer

/-- `ToBase58`. -/
def toBase58 (b : Bytes) : Bytes :=
  let answer := (Nat.digits 58 (beValue b)).map fun d => alphabet.getD d 0x31
  (answer ++ List.replicate (b.takeWhile (· == 0)).length 0x31).reverse

/-! ## Characters -/

theorem alphabet_ascii {c : UInt8} (h : c ∈ alphabet) : c < 0x80 := by
  revert c
  decide +kernel

theorem fromBase58Loop_ascii {s : Bytes} {answer j n : ℕ}
    (h : fromBase58Loop s answer j = some n) : ∀ c ∈ s, c < 0x80 := by
  induction s generalizing answer j with
  | nil => simp
  | cons c s ih =>
    unfold fromBase58Loop at h
    split at h
    · cases h
    next idx hidx =>
      refine List.forall_mem_cons.mpr ⟨?_, ih h⟩
      by_cases hc : c ∈ alphabet
      · exact alphabet_ascii hc
      · rw [List.idxOf?_eq_none_iff.mpr hc] at hidx
        cases hidx

/-- A string that decodes has only ASCII characters. -/
theorem fromBase58_ascii {s : Bytes} (h : fromBase58 s ≠ []) : ∀ c ∈ s, c < 0x80 := by
  unfold fromBase58 at h
  split at h
  · exact absurd rfl h
  next n hn => exact fun c hc => fromBase58Loop_ascii hn c (List.mem_reverse.mpr hc)

end Bitmarkd.Util
