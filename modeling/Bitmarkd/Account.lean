import Bitmarkd.Util.Varint

/-!
# Environment and accounts

`Env` collects what the node takes from outside this repository: the hash functions, signature
verification, floating point arithmetic on difficulties, and the chain it was started for. Nothing
is assumed about them here; the theorems that need more (for instance that no two byte strings of a
run collide) say so.

An account is the key a byte string decodes to (`account/account.go`). The length of the public
key is fixed by the key type, so it is a field of the structure.
-/

namespace Bitmarkd

open Lib Util

/-- The chains a node can run on (`chain/chain.go`). -/
inductive Chain
  | bitmark
  | testing
  | local
deriving DecidableEq, Repr

/-- `merkle.Digest`. -/
abbrev Digest := FixedBytes 32

instance digestLawfulBEq : LawfulBEq Digest := inferInstance

/-- `blockdigest.Digest`. -/
abbrev BlockDigest := FixedBytes 32

/-- `transactionrecord.AssetIdentifier`. -/
abbrev AssetIdentifier := FixedBytes 64

/-- A `float64`, by its bits. -/
abbrev Float64 := UInt64

/-- Hash functions, signature verification, floating point division and the chain. -/
structure Env where
  /-- `sha3.Sum256`. -/
  sha3Sum256 : Bytes → Digest
  /-- `sha3.New384`, of everything that is written to it. -/
  sha3Sum384 : Bytes → FixedBytes 48
  /-- `sha3.Sum512`. -/
  sha3Sum512 : Bytes → AssetIdentifier
  /-- `sha256.Sum256`. -/
  sha256Sum : Bytes → FixedBytes 32
  /-- `argon2.Hash` with the parameters of `blockdigest`. -/
  argon2Hash : Bytes → BlockDigest
  /-- `ed25519.Verify`: public key, message, signature. -/
  ed25519Verify : Bytes → Bytes → Bytes → Bool
  /-- The quotient of one and the target of some difficulty bits, as `SetBits` computes it. -/
  reciprocalOfBits : UInt64 → Float64
  /-- `difficulty.NextDifficultyByPreviousTimespan`. -/
  nextDifficultyByPreviousTimespan : UInt64 → Float64 → Float64
  /-- The target of `reservoir.ScaledDifficulty`. -/
  scaledDifficulty : Nat → Nat
  chain : Chain

/-- `mode.IsTesting`. -/
def Env.isTesting (env : Env) : Bool :=
  match env.chain with
  | .bitmark => false
  | .testing | .local => true

/-- `merkle.NewDigest`. -/
def Env.newDigest (env : Env) (record : Bytes) : Digest := env.sha3Sum256 record

/-- `merkle.DigestFromBytes`. -/
def digestFromBytes (buffer : Bytes) : Except Stop Digest :=
  match FixedBytes.ofBytes? 32 buffer with
  | some d => .ok d
  | none => fault .notLink

/-- `transactionrecord.AssetIdentifierFromBytes`. -/
def assetIdentifierFromBytes (buffer : Bytes) : Except Stop AssetIdentifier :=
  match FixedBytes.ofBytes? 64 buffer with
  | some d => .ok d
  | none => fault .notAssetId

/-! ## Accounts -/

/-- The supported key algorithms. -/
inductive KeyType
  | nothing
  | ed25519
deriving DecidableEq, Repr

/-- The length of a public key: `ed25519.PublicKeySize`, and two bytes for the debugging key. -/
def KeyType.keyLength : KeyType → Nat
  | .nothing => 2
  | .ed25519 => 32

/-- `ED25519Account` and `NothingAccount`. -/
@[ext] structure Account where
  keyType : KeyType
  test : Bool
  publicKey : Bytes
  length_eq : publicKey.length = keyType.keyLength
deriving DecidableEq

namespace Account

/-- `publicKeyCode`. -/
def publicKeyCode : UInt64 := 0x01

/-- `testKeyCode`. -/
def testKeyCode : UInt64 := 0x02

/-- `algorithmShift`. -/
def algorithmShift : UInt64 := 4

/-- `algorithmLimit`. -/
def algorithmLimit : UInt64 := 2

/-- `IsTesting`. -/
def isTesting (account : Account) : Bool := account.test

/-- `IsZero`: the public key is all zero. -/
def isZero (account : Account) : Bool := account.publicKey.all (· == 0)

/-- The first byte of an encoded account. -/
def keyVariant (account : Account) : UInt8 :=
  let variant : UInt8 := match account.keyType with
    | .nothing => 0x01
    | .ed25519 => 0x11
  if account.test then variant ||| 0x02 else variant

/-- `Bytes`: the key variant and the public key. -/
def bytes (account : Account) : Bytes := account.keyVariant :: account.publicKey

/-- `ed25519.SignatureSize`. -/
def signatureSize : Nat := 64

/-- `CheckSignature`. -/
def checkSignature (env : Env) (account : Account) (message signature : Bytes) :
    Except Stop Unit :=
  match account.keyType with
  | .nothing => fault .invalidSignature
  | .ed25519 =>
    if signature.length ≠ signatureSize then fault .invalidSignature
    else if env.ed25519Verify account.publicKey message signature then .ok ()
    else fault .invalidSignature

/-- The account of a key type with this public key, if the length is right. -/
def ofKey (keyType : KeyType) (test : Bool) (publicKey : Bytes) : Except Stop Account :=
  if h : publicKey.length = keyType.keyLength then .ok ⟨keyType, test, publicKey, h⟩
  else fault .invalidKeyLength

/-- `AccountFromBytes`. -/
def accountFromBytes (accountBytes : Bytes) : Except Stop Account :=
  let (keyVariant, keyVariantLength) := fromVarint64 accountBytes
  if keyVariantLength = 0 ∨ keyVariant &&& publicKeyCode ≠ publicKeyCode then fault .notPublicKey
  else
    let keyAlgorithm := keyVariant >>> algorithmShift
    if keyAlgorithm ≥ algorithmLimit then fault .invalidKeyType
    else
      let isTest := decide (keyVariant &&& testKeyCode ≠ 0)
      if accountBytes.length ≤ keyVariantLength then fault .invalidKeyLength
      else if keyAlgorithm = 1 then ofKey .ed25519 isTest (accountBytes.drop keyVariantLength)
      else ofKey .nothing isTest (accountBytes.drop keyVariantLength)

/-! ## The encoding determines the account -/

theorem keyVariant_inj {a b : Account} (h : a.keyVariant = b.keyVariant) :
    a.keyType = b.keyType ∧ a.test = b.test := by
  revert h
  unfold keyVariant
  cases a.keyType <;> cases b.keyType <;> cases a.test <;> cases b.test <;> decide

@[simp] theorem bytes_inj {a b : Account} : a.bytes = b.bytes ↔ a = b := by
  refine ⟨fun h => ?_, fun h => by rw [h]⟩
  obtain ⟨hv, hk⟩ := List.cons.inj h
  obtain ⟨ht, hn⟩ := keyVariant_inj hv
  exact Account.ext ht hn hk

theorem length_bytes_le (a : Account) : a.bytes.length ≤ 33 := by
  have hkey : a.publicKey.length ≤ 32 := by
    rw [a.length_eq]
    cases a.keyType <;> decide
  simpa [bytes] using Nat.lt_succ_of_le hkey

/-- The key variant is a varint of one byte. -/
theorem bytes_eq (a : Account) :
    a.bytes = toVarint64 a.keyVariant.toUInt64 ++ a.publicKey := by
  have hlow : a.keyVariant.toUInt64 < 0x80 := by
    unfold keyVariant
    cases a.keyType <;> cases a.test <;> decide
  simp [toVarint64, hlow, bytes]

/-- What the key variant says of the account. -/
theorem keyVariant_flags (a : Account) :
    a.keyVariant.toUInt64 &&& publicKeyCode = publicKeyCode ∧
      a.keyVariant.toUInt64 >>> algorithmShift =
        (match a.keyType with | .nothing => 0 | .ed25519 => 1) ∧
      decide (a.keyVariant.toUInt64 &&& testKeyCode ≠ 0) = a.test := by
  unfold keyVariant
  cases a.keyType <;> cases a.test <;> decide

/-- An encoded account decodes to itself. -/
theorem accountFromBytes_bytes (a : Account) : accountFromBytes a.bytes = .ok a := by
  have hlength : (toVarint64 a.keyVariant.toUInt64).length = 1 := by
    have h := congrArg List.length a.bytes_eq
    simp only [bytes, List.length_cons, List.length_append] at h
    omega
  have hkey : ¬ a.bytes.length ≤ 1 := by
    have hlen := a.length_eq
    cases htype : a.keyType <;> simp [bytes, hlen, htype, KeyType.keyLength]
  have hread := fromVarint64_toVarint64 a.keyVariant.toUInt64 a.publicKey
  rw [← a.bytes_eq, hlength] at hread
  obtain ⟨hpublic, halgorithm, htest⟩ := a.keyVariant_flags
  obtain ⟨keyType, test, key, hlen⟩ := a
  simp only [accountFromBytes, hread, hpublic, halgorithm, htest, hkey]
  cases keyType
  all_goals
    simp only [bytes, List.drop_succ_cons, List.drop_zero, ofKey]
    exact dif_pos hlen

theorem length_of_checkSignature {env : Env} {a : Account} {message signature : Bytes}
    (h : a.checkSignature env message signature = .ok ()) : signature.length = 64 := by
  unfold checkSignature at h
  split at h
  · simp at h
  · split at h
    · simp at h
    · next hlen => simpa [signatureSize] using hlen

end Account

/-- A pointer to an account: `==` on Go pointers compares `addr`, not the account. -/
structure AccountPtr where
  addr : Nat
  account : Account
deriving DecidableEq

end Bitmarkd
