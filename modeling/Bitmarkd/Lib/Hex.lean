import Bitmarkd.Lib.Bytes

/-!
# Hexadecimal text

Bytes as text of two digits each, in small letters, and back. Decoding also takes capital letters.
-/

namespace Bitmarkd.Lib

/-- A character of hexadecimal text. -/
def hexValue? (c : UInt8) : Option ℕ :=
  if 0x30 ≤ c ∧ c ≤ 0x39 then some (c.toNat - 0x30)
  else if 0x61 ≤ c ∧ c ≤ 0x66 then some (c.toNat - 0x61 + 10)
  else if 0x41 ≤ c ∧ c ≤ 0x46 then some (c.toNat - 0x41 + 10)
  else none

/-- `hex.Decode`. -/
def hexDecode : Bytes → Option Bytes
  | [] => some []
  | [_] => none
  | high :: low :: rest => do
    let h ← hexValue? high
    let l ← hexValue? low
    let b ← hexDecode rest
    return UInt8.ofNat (16 * h + l) :: b

/-- `hex.Encode`. -/
def hexEncode (b : Bytes) : Bytes :=
  let digits : Bytes := [0x30, 0x31, 0x32, 0x33, 0x34, 0x35, 0x36, 0x37, 0x38, 0x39, 0x61, 0x62,
    0x63, 0x64, 0x65, 0x66]
  b.flatMap fun x => [digits.getD (x.toNat / 16) 0, digits.getD (x.toNat % 16) 0]

theorem hexValue?_hexEncode (x : UInt8) : ∃ h l,
    hexValue? ([48, 49, 50, 51, 52, 53, 54, 55, 56, 57, 97, 98, 99, 100, 101, 102].getD
      (x.toNat / 16) 0) = some h ∧
    hexValue? ([48, 49, 50, 51, 52, 53, 54, 55, 56, 57, 97, 98, 99, 100, 101, 102].getD
      (x.toNat % 16) 0) = some l ∧ x = UInt8.ofNat (16 * h + l) := by
  have hdigit : ∀ d < 16, hexValue? ([48, 49, 50, 51, 52, 53, 54, 55, 56, 57, 97, 98, 99, 100, 101,
      102].getD d 0) = some d := by decide
  have hx := x.toNat_lt
  refine ⟨x.toNat / 16, x.toNat % 16, hdigit _ (by omega), hdigit _ (by omega), ?_⟩
  rw [Nat.div_add_mod, UInt8.ofNat_toNat]

theorem hexDecode_hexEncode (b : Bytes) : hexDecode (hexEncode b) = some b := by
  induction b with
  | nil => rfl
  | cons x b ih =>
    obtain ⟨h, l, hh, hl, rfl⟩ := hexValue?_hexEncode x
    simp only [hexEncode, List.flatMap_cons, List.cons_append, List.nil_append, hexDecode] at ih ⊢
    rw [ih, hh, hl]
    rfl

theorem length_hexEncode (b : Bytes) : (hexEncode b).length = 2 * b.length := by
  induction b with
  | nil => rfl
  | cons x b ih =>
    simp only [hexEncode, List.flatMap_cons, List.length_append, List.length_cons,
      List.length_nil] at ih ⊢
    omega

/-- Different bytes have different texts. -/
theorem hexEncode_injective : Function.Injective hexEncode := by
  intro b c h
  apply Option.some_injective
  rw [← hexDecode_hexEncode b, ← hexDecode_hexEncode c, h]

end Bitmarkd.Lib
