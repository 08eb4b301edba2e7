import Bitmarkd.Account
import Bitmarkd.Util.Base58Inverse
import Bitmarkd.Sample

/-!
# The texts of accounts and private keys

`account/account.go` and `account/private.go` write a key as base58: a key variant, the key and four
bytes of a checksum. The two readers differ in one bit of the variant, in the lengths of the keys
and in two errors, so there is one reader here for both.

**Writing.** The variant is one byte: the algorithm, the network and whether the key is public.

**Reading.** The variant is any varint. Two of its low bits are not looked at, and neither is the
number of its bytes, so that one key has several accepted texts (`key_texts_canonical_iff`,
`Sample.account_text_twice`).
-/

namespace Bitmarkd

open Lib Util Account

/-! ## Private keys -/

/-- The length of a private key: `ed25519.PrivateKeySize`, and two bytes for the debugging key. -/
def KeyType.privateKeyLength : KeyType → ℕ
  | .nothing => 2
  | .ed25519 => 64

/-- `ED25519PrivateKey` and `NothingPrivateKey`. -/
@[ext] structure PrivateKey where
  keyType : KeyType
  test : Bool
  privateKey : Bytes
  length_eq : privateKey.length = keyType.privateKeyLength
deriving DecidableEq

namespace PrivateKey

/-- The first byte of an encoded private key. -/
def keyVariant (privateKey : PrivateKey) : UInt8 :=
  let variant : UInt8 := match privateKey.keyType with
    | .nothing => 0x00
    | .ed25519 => 0x10
  if privateKey.test then variant ||| 0x02 else variant

/-- `Bytes`: the key variant and the private key. -/
def bytes (privateKey : PrivateKey) : Bytes := privateKey.keyVariant :: privateKey.privateKey

/-- The private key of a key type with these bytes, if the length is right. -/
def ofKey (keyType : KeyType) (test : Bool) (priv : Bytes) : Except Stop PrivateKey :=
  if h : priv.length = keyType.privateKeyLength then .ok ⟨keyType, test, priv, h⟩
  else fault .invalidKeyLength

end PrivateKey

/-! ## Texts -/

/-- `checksumLength`. -/
def checksumLength : ℕ := 4

/-- Some bytes and the first bytes of their hash. -/
def withChecksum (env : Env) (buffer : Bytes) : Bytes :=
  buffer ++ (env.sha3Sum256 buffer).bytes.take checksumLength

/-- `ED25519Account.String` and `NothingAccount.String`. -/
def Account.string (env : Env) (account : Account) : Bytes :=
  toBase58 (withChecksum env account.bytes)

/-- `ED25519PrivateKey.String` and `NothingPrivateKey.String`. -/
def PrivateKey.string (env : Env) (privateKey : PrivateKey) : Bytes :=
  toBase58 (withChecksum env privateKey.bytes)

/-- What a text can be read as. -/
inductive KeyKind
  | account
  | privateKey
deriving DecidableEq

/-- The error for a text that is no base58. -/
def KeyKind.cannotDecode : KeyKind → Fault
  | .account => .cannotDecodeAccount
  | .privateKey => .cannotDecodePrivateKey

/-- The error for a text of the other kind. -/
def KeyKind.notThis : KeyKind → Fault
  | .account => .notPublicKey
  | .privateKey => .notPrivateKey

/-- The bit `publicKeyCode` of a key variant of this kind. -/
def KeyKind.publicBit : KeyKind → UInt64
  | .account => publicKeyCode
  | .privateKey => 0

/-- `AccountFromBase58` and `PrivateKeyFromBase58`, up to the length of the key. -/
def keyFromBase58 (env : Env) (kind : KeyKind) (base58Encoded : Bytes) :
    Except Stop (KeyType × Bool × Bytes) :=
  let decoded := fromBase58 base58Encoded
  if decoded.length = 0 then fault kind.cannotDecode
  else
    let (keyVariant, keyVariantLength) := fromVarint64 decoded
    if keyVariantLength = 0 ∨ keyVariant &&& publicKeyCode ≠ kind.publicBit then fault kind.notThis
    else
      let keyAlgorithm := keyVariant >>> algorithmShift
      if keyAlgorithm ≥ algorithmLimit then fault .invalidKeyType
      else
        let isTest := decide (keyVariant &&& testKeyCode ≠ 0)
        if decoded.length ≤ keyVariantLength + checksumLength then fault .invalidKeyLength
        else
          let checksumStart := decoded.length - checksumLength
          let checksum := env.sha3Sum256 (decoded.take checksumStart)
          if checksum.bytes.take checksumLength ≠ decoded.drop checksumStart then
            fault .checksumMismatch
          else
            let keyType : KeyType := if keyAlgorithm = 1 then .ed25519 else .nothing
            .ok (keyType, isTest, (decoded.take checksumStart).drop keyVariantLength)

/-- `AccountFromBase58`. -/
def accountFromBase58 (env : Env) (accountBase58Encoded : Bytes) : Except Stop Account := do
  let (keyType, isTest, publicKey) ← keyFromBase58 env .account accountBase58Encoded
  Account.ofKey keyType isTest publicKey

/-- `PrivateKeyFromBase58`. -/
def privateKeyFromBase58 (env : Env) (privateKeyBase58Encoded : Bytes) :
    Except Stop PrivateKey := do
  let (keyType, isTest, priv) ← keyFromBase58 env .privateKey privateKeyBase58Encoded
  PrivateKey.ofKey keyType isTest priv

/-! ## What is read -/

/-- The byte that is written as the key variant. -/
def keyVariantOf (kind : KeyKind) (keyType : KeyType) (test : Bool) : UInt8 :=
  (match keyType with | .nothing => 0x00 | .ed25519 => 0x10) |||
    (match kind with | .account => 0x01 | .privateKey => 0x00) ||| if test then 0x02 else 0x00

theorem Account.bytes_eq_variant (a : Account) :
    a.bytes = keyVariantOf .account a.keyType a.test :: a.publicKey := by
  unfold bytes keyVariant keyVariantOf
  cases a.keyType <;> cases a.test <;> rfl

theorem PrivateKey.bytes_eq_variant (k : PrivateKey) :
    k.bytes = keyVariantOf .privateKey k.keyType k.test :: k.privateKey := by
  unfold bytes keyVariant keyVariantOf
  cases k.keyType <;> cases k.test <;> rfl

/-- The bits of a key variant that are looked at. -/
structure Selects (kind : KeyKind) (keyType : KeyType) (test : Bool) (variant : UInt64) : Prop where
  publicBit : variant &&& publicKeyCode = kind.publicBit
  algorithm : variant >>> algorithmShift = (match keyType with | .nothing => 0 | .ed25519 => 1)
  test : decide (variant &&& testKeyCode ≠ 0) = test

/-- A text is read as a key: its bytes are a varint, the key and the checksum of the two. -/
structure ReadsAs (env : Env) (kind : KeyKind) (s : Bytes) (keyType : KeyType) (test : Bool)
    (key code : Bytes) (variant : UInt64) : Prop where
  bytes : fromBase58 s = withChecksum env (code ++ key)
  key_ne_nil : key ≠ []
  read : fromVarint64 (fromBase58 s) = (variant, code.length)
  code_ne_nil : code ≠ []
  selects : Selects kind keyType test variant

section

variable {env : Env} {kind : KeyKind} {s key code : Bytes} {keyType : KeyType} {test : Bool}
  {variant : UInt64}

theorem length_withChecksum (b : Bytes) : (withChecksum env b).length = b.length + 4 := by
  simp [withChecksum, checksumLength]

theorem take_withChecksum (env : Env) (b : Bytes) :
    (withChecksum env b).take ((withChecksum env b).length - checksumLength) = b := by
  rw [length_withChecksum, checksumLength, Nat.add_sub_cancel, withChecksum, List.take_left]

theorem drop_withChecksum (env : Env) (b : Bytes) :
    (withChecksum env b).drop ((withChecksum env b).length - checksumLength) =
      (env.sha3Sum256 b).bytes.take checksumLength := by
  rw [length_withChecksum, checksumLength, Nat.add_sub_cancel, withChecksum, List.drop_left]
  rfl

theorem Selects.algorithm_lt (h : Selects kind keyType test variant) :
    ¬ variant >>> algorithmShift ≥ algorithmLimit := by
  rw [h.algorithm]
  cases keyType <;> decide

theorem eq_zero_of_lt_two {u : UInt64} (h : u < 2) (hne : u ≠ 1) : u = 0 := by
  have hlt : u.toNat < 2 := UInt64.lt_iff_toNat_lt.mp h
  have hone : u.toNat ≠ 1 := fun h' => hne (UInt64.toNat_inj.mp h')
  have hzero : u.toNat = 0 := by omega
  exact UInt64.toNat_inj.mp hzero

/-- A text whose length and checksum are right is read as what stands behind its varint. -/
theorem readsAs_of_checks {n : ℕ} (hread : fromVarint64 (fromBase58 s) = (variant, n)) (hn : n ≠ 0)
    (hlength : n + checksumLength < (fromBase58 s).length)
    (hchecksum : (env.sha3Sum256
        ((fromBase58 s).take ((fromBase58 s).length - checksumLength))).bytes.take checksumLength =
      (fromBase58 s).drop ((fromBase58 s).length - checksumLength))
    (hselects : Selects kind keyType test variant) :
    ReadsAs env kind s keyType test
      (((fromBase58 s).take ((fromBase58 s).length - checksumLength)).drop n)
      ((fromBase58 s).take n) variant := by
  generalize hdecoded : fromBase58 s = decoded at *
  have hsplit : decoded.take n ++ (decoded.take (decoded.length - checksumLength)).drop n =
      decoded.take (decoded.length - checksumLength) := by
    have hmin : min n (decoded.length - checksumLength) = n := by omega
    conv_lhs => rw [← hmin, ← List.take_take, hmin]
    exact List.take_append_drop _ _
  refine ⟨?_, ?_, ?_, ?_, hselects⟩
  · rw [hsplit, withChecksum, hchecksum, List.take_append_drop, hdecoded]
  · rw [← List.length_pos_iff, List.length_drop, List.length_take]
    omega
  · rw [hdecoded, hread, List.length_take, Nat.min_eq_left (by omega)]
  · rw [← List.length_pos_iff, List.length_take]
    omega

/-- **What `keyFromBase58` accepts.** -/
theorem keyFromBase58_eq_ok : keyFromBase58 env kind s = .ok (keyType, test, key) ↔
    ∃ code variant, ReadsAs env kind s keyType test key code variant := by
  constructor
  · intro h
    rcases hread : fromVarint64 (fromBase58 s) with ⟨variant, n⟩
    simp only [keyFromBase58, hread] at h
    split_ifs at h with hempty hvariant halgorithm hlength hchecksum hone
    all_goals try cases h
    · obtain ⟨hn, hpublic⟩ := not_or.mp hvariant
      exact ⟨_, _, readsAs_of_checks hread hn (not_le.mp hlength) (not_not.mp hchecksum)
        ⟨not_not.mp hpublic, hone, rfl⟩⟩
    · obtain ⟨hn, hpublic⟩ := not_or.mp hvariant
      have hzero : variant >>> algorithmShift = 0 :=
        eq_zero_of_lt_two (UInt64.not_le.mp halgorithm) hone
      exact ⟨_, _, readsAs_of_checks hread hn (not_le.mp hlength) (not_not.mp hchecksum)
        ⟨not_not.mp hpublic, hzero, rfl⟩⟩
  · rintro ⟨code, variant, h⟩
    have hkey := List.length_pos_iff.mpr h.key_ne_nil
    have hcode := List.length_pos_iff.mpr h.code_ne_nil
    have hlength : (fromBase58 s).length = code.length + key.length + 4 := by
      rw [h.bytes, length_withChecksum, List.length_append]
    have htake := take_withChecksum env (code ++ key)
    have hdrop := drop_withChecksum env (code ++ key)
    rw [← h.bytes] at htake hdrop
    have hempty : (fromBase58 s).length ≠ 0 := by omega
    have hlong : ¬ (fromBase58 s).length ≤ code.length + checksumLength := by
      rw [hlength, checksumLength]
      omega
    have halgorithm := h.selects.algorithm_lt
    simp only [keyFromBase58, h.read, h.selects.publicBit, h.selects.test, htake, hdrop,
      List.drop_left, hempty, hcode.ne', hlong, halgorithm, if_false, ne_eq, not_true_eq_false,
      or_self]
    rw [h.selects.algorithm]
    cases keyType <;> rfl

/-! ## Canonical texts -/

/-- The key variant is one byte, and the two bits of it that are not looked at are clear. -/
def PlainVariant (s : Bytes) : Prop := (fromBase58 s).headD 0 &&& 0x8c = 0

theorem selects_keyVariantOf (kind : KeyKind) (keyType : KeyType) (test : Bool) :
    Selects kind keyType test (keyVariantOf kind keyType test).toUInt64 := by
  cases kind <;> cases keyType <;> cases test <;> exact ⟨by decide, by decide, by decide⟩

theorem keyVariantOf_and (kind : KeyKind) (keyType : KeyType) (test : Bool) :
    keyVariantOf kind keyType test &&& 0x8c = 0 := by
  cases kind <;> cases keyType <;> cases test <;> decide

theorem fromVarint64_cons_of_lt {b : UInt8} (h : b < 0x80) (rest : Bytes) :
    fromVarint64 (b :: rest) = (b.toUInt64, 1) := by
  have hlow : b.toUInt64 < 0x80 := UInt64.lt_iff_toNat_lt.mpr (UInt8.lt_iff_toNat_lt.mp h)
  have hcode : toVarint64 b.toUInt64 = [b] := by simp [toVarint64, hlow]
  have hread := fromVarint64_toVarint64 b.toUInt64 rest
  rw [hcode] at hread
  exact hread

/-- A plain byte is known from the bits that are looked at. -/
theorem eq_keyVariantOf {b : UInt8} (hplain : b &&& 0x8c = 0)
    (h : Selects kind keyType test b.toUInt64) : b = keyVariantOf kind keyType test := by
  obtain ⟨hpublic, halgorithm, rfl⟩ := h
  revert hplain hpublic halgorithm
  cases kind <;> cases keyType <;> revert b <;> decide +kernel

/-- What is written is read back. -/
theorem keyFromBase58_text (kind : KeyKind) (keyType : KeyType) (test : Bool) (hkey : key ≠ []) :
    keyFromBase58 env kind (toBase58 (withChecksum env (keyVariantOf kind keyType test :: key))) =
      .ok (keyType, test, key) := by
  have hlow : keyVariantOf kind keyType test < 0x80 := by
    cases kind <;> cases keyType <;> cases test <;> decide
  refine keyFromBase58_eq_ok.mpr ⟨[keyVariantOf kind keyType test], _, ?_, hkey, ?_, by simp,
    selects_keyVariantOf kind keyType test⟩
  · exact fromBase58_toBase58 _
  · rw [fromBase58_toBase58]
    exact fromVarint64_cons_of_lt hlow _

/-- **A text is what is written for the key it is read as just when its variant is plain.** -/
theorem text_eq_iff_plainVariant (h : keyFromBase58 env kind s = .ok (keyType, test, key)) :
    toBase58 (withChecksum env (keyVariantOf kind keyType test :: key)) = s ↔ PlainVariant s := by
  obtain ⟨code, variant, h⟩ := keyFromBase58_eq_ok.mp h
  obtain ⟨b, code, rfl⟩ := List.exists_cons_of_ne_nil h.code_ne_nil
  have hbytes : fromBase58 s = b :: (code ++ key ++
      (env.sha3Sum256 (b :: code ++ key)).bytes.take checksumLength) := by
    rw [h.bytes, withChecksum]
    rfl
  have hplain : PlainVariant s ↔ b &&& 0x8c = 0 := by
    rw [PlainVariant, hbytes]
    rfl
  rw [hplain]
  constructor
  · intro htext
    have hread := congrArg fromBase58 htext
    rw [fromBase58_toBase58, hbytes, withChecksum, List.cons_append] at hread
    rw [← (List.cons.inj hread).1]
    exact keyVariantOf_and kind keyType test
  · intro hb
    have hlow : ∀ c : UInt8, c &&& 0x8c = 0 → c < 0x80 := by decide +kernel
    have hread := h.read
    rw [hbytes, fromVarint64_cons_of_lt (hlow b hb), Prod.mk.injEq, List.length_cons] at hread
    obtain ⟨rfl, hlength⟩ := hread
    have hcode : code = [] := List.length_eq_zero_iff.mp (by omega)
    subst hcode
    rw [← eq_keyVariantOf hb h.selects]
    have hs : toBase58 (fromBase58 s) = s := toBase58_fromBase58 (by rw [hbytes]; simp)
    rw [← hs, h.bytes]
    rfl

theorem accountFromBase58_eq_ok {a : Account} : accountFromBase58 env s = .ok a ↔
    keyFromBase58 env .account s = .ok (a.keyType, a.test, a.publicKey) := by
  constructor
  · intro h
    obtain ⟨⟨keyType, test, key⟩, hread, h⟩ := bind_eq_ok.mp h
    simp only [Account.ofKey] at h
    split at h
    · cases h
      exact hread
    · cases h
  · intro h
    exact bind_eq_ok.mpr ⟨_, h, dif_pos a.length_eq⟩

theorem privateKeyFromBase58_eq_ok {k : PrivateKey} : privateKeyFromBase58 env s = .ok k ↔
    keyFromBase58 env .privateKey s = .ok (k.keyType, k.test, k.privateKey) := by
  constructor
  · intro h
    obtain ⟨⟨keyType, test, key⟩, hread, h⟩ := bind_eq_ok.mp h
    simp only [PrivateKey.ofKey] at h
    split at h
    · cases h
      exact hread
    · cases h
  · intro h
    exact bind_eq_ok.mpr ⟨_, h, dif_pos k.length_eq⟩

end

theorem Account.publicKey_ne_nil (a : Account) : a.publicKey ≠ [] := by
  rw [← List.length_pos_iff, a.length_eq]
  cases a.keyType <;> decide

theorem PrivateKey.privateKey_ne_nil (k : PrivateKey) : k.privateKey ≠ [] := by
  rw [← List.length_pos_iff, k.length_eq]
  cases k.keyType <;> decide

/-- **The texts of accounts and of private keys.** What is written for a key is read back as the
key. A text that is accepted is what is written for the key it is read as just when its variant is
plain. -/
theorem key_texts_canonical_iff (env : Env) :
    ((∀ a : Account, accountFromBase58 env (a.string env) = .ok a) ∧
      ∀ s a, accountFromBase58 env s = .ok a → (a.string env = s ↔ PlainVariant s)) ∧
    ((∀ k : PrivateKey, privateKeyFromBase58 env (k.string env) = .ok k) ∧
      ∀ s k, privateKeyFromBase58 env s = .ok k → (k.string env = s ↔ PlainVariant s)) := by
  refine ⟨⟨fun a => ?_, fun s a h => ?_⟩, fun k => ?_, fun s k h => ?_⟩
  · rw [accountFromBase58_eq_ok, Account.string, a.bytes_eq_variant]
    exact keyFromBase58_text .account a.keyType a.test a.publicKey_ne_nil
  · rw [Account.string, a.bytes_eq_variant]
    exact text_eq_iff_plainVariant (accountFromBase58_eq_ok.mp h)
  · rw [privateKeyFromBase58_eq_ok, PrivateKey.string, k.bytes_eq_variant]
    exact keyFromBase58_text .privateKey k.keyType k.test k.privateKey_ne_nil
  · rw [PrivateKey.string, k.bytes_eq_variant]
    exact text_eq_iff_plainVariant (privateKeyFromBase58_eq_ok.mp h)

/-- A private key: one byte repeated. -/
def Sample.privateKey (k : UInt8) : PrivateKey :=
  ⟨.ed25519, true, List.replicate 64 k, by simp [KeyType.privateKeyLength]⟩

/-- The same account behind a variant with a bit that is not looked at, and behind a variant of two
bytes; the same private key behind a variant of two bytes. -/
theorem Sample.account_text_twice :
    (∃ s s', s ≠ s' ∧ s ≠ (account 1).string env ∧ s' ≠ (account 1).string env ∧
      accountFromBase58 env s = .ok (account 1) ∧ accountFromBase58 env s' = .ok (account 1)) ∧
    ∃ s, s ≠ (privateKey 1).string env ∧ privateKeyFromBase58 env s = .ok (privateKey 1) := by
  refine ⟨⟨toBase58 (withChecksum env (0x17 :: (account 1).publicKey)),
    toBase58 (withChecksum env (0x93 :: 0x00 :: (account 1).publicKey)), ?_⟩,
    toBase58 (withChecksum env (0x92 :: 0x00 :: (privateKey 1).privateKey)), ?_⟩
  · decide +kernel
  · decide +kernel

end Bitmarkd
