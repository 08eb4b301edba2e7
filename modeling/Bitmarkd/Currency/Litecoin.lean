import Bitmarkd.Sample
import Bitmarkd.Util.Base58Inverse

/-!
# Forms of a litecoin address

`currency/litecoin/validate.go`. The script addresses of litecoin have two versions, an old one that
they share with bitcoin and a new one, and `TransformAddress` goes from one to the other. A valid
address is the text of its version and its twenty bytes (`validateAddress_eq_ok`), so that
**transforming twice gives the address back** (`transform_involutive`).
-/

namespace Bitmarkd

open Lib Util

namespace Litecoin

variable {env : Env} {a b addressBytes : Bytes} {version : Version}

/-- `TransformAddress`. -/
def transformAddress (env : Env) (address : Bytes) : Except Stop Bytes := do
  let (version, addressBytes) ← validateAddress env address
  match version with
  | .livenet => return address
  | .livenetScript => return compose env .livenetScript2 addressBytes
  | .livenetScript2 => return compose env .livenetScript addressBytes
  | .testnet => return address
  | .testnetScript => return compose env .testnetScript2 addressBytes
  | .testnetScript2 => return compose env .testnetScript addressBytes

/-- The version of the other form. -/
def Version.transform : Version → Version
  | .livenet => .livenet
  | .livenetScript => .livenetScript2
  | .livenetScript2 => .livenetScript
  | .testnet => .testnet
  | .testnetScript => .testnetScript2
  | .testnetScript2 => .testnetScript

theorem Version.transform_transform (v : Version) : v.transform.transform = v := by
  cases v <;> rfl

theorem Version.ofByte?_byte (v : Version) : Version.ofByte? v.byte = some v := by
  cases v <;> rfl

theorem Version.byte_of_ofByte? {x : UInt8} {v : Version} (h : Version.ofByte? x = some v) :
    v.byte = x := by
  unfold Version.ofByte? at h
  split_ifs at h with h1 h2 h3 h4 h5 h6 <;> cases h <;> simp [Version.byte, *]

/-- The bytes of an address before they are encoded. -/
def payload (env : Env) (version : Version) (addressBytes : Bytes) : Bytes :=
  (version.byte :: addressBytes) ++
    (env.sha256Sum (env.sha256Sum (version.byte :: addressBytes)).bytes).bytes.take 4

theorem compose_eq (env : Env) (version : Version) (addressBytes : Bytes) :
    compose env version addressBytes = toBase58 (payload env version addressBytes) := rfl

/-- **A valid address** is the encoding of its version and its twenty bytes. -/
theorem validateAddress_eq_ok :
    validateAddress env a = .ok (version, addressBytes) ↔
      addressBytes.length = 20 ∧ a = compose env version addressBytes := by
  constructor
  · intro h
    unfold validateAddress at h
    dsimp only at h
    split at h
    · cases h
    next hlength =>
      split at h
      · cases h
      next hsum =>
        rw [not_not] at hlength hsum
        split at h
        · cases h
        next v hv =>
          cases h
          obtain ⟨x, rest, haddr⟩ : ∃ x rest, fromBase58 a = x :: rest := by
            cases haddr : fromBase58 a with
            | nil =>
              rw [haddr] at hlength
              cases hlength
            | cons x rest => exact ⟨x, rest, rfl⟩
          have ha := toBase58_fromBase58 (s := a) (by rw [haddr]; simp)
          rw [haddr] at hlength hsum hv ha ⊢
          have hx : version.byte = x := Version.byte_of_ofByte? hv
          have hrest : rest.length = 24 := by simpa using hlength
          have htake : (x :: rest).take 21 = version.byte :: rest.take 20 := by
            rw [hx]
            rfl
          rw [htake, hx] at hsum
          refine ⟨by simp [hrest], ?_⟩
          rw [← ha, compose_eq, payload]
          simp only [List.drop_succ_cons, List.drop_zero, hsum, hx, List.cons_append]
          rw [List.take_append_drop]
  · rintro ⟨hlength, rfl⟩
    have hsum : ((env.sha256Sum (env.sha256Sum (version.byte :: addressBytes)).bytes).bytes.take
        4).length = 4 := by simp
    have hpayload : (payload env version addressBytes).length = 25 := by
      simp [payload, hlength]
    have htake : (payload env version addressBytes).take 21 = version.byte :: addressBytes :=
      List.take_left' (by simp [hlength])
    have hdrop : (payload env version addressBytes).drop 21 =
        (env.sha256Sum (env.sha256Sum (version.byte :: addressBytes)).bytes).bytes.take 4 :=
      List.drop_left' (by simp [hlength])
    have hbytes : ((payload env version addressBytes).drop 1).take 20 = addressBytes :=
      List.take_left' hlength
    have hhead : (payload env version addressBytes).headD 0xff = version.byte := rfl
    unfold validateAddress
    dsimp only
    rw [compose_eq, fromBase58_toBase58, hpayload, htake, hdrop, hbytes, hhead,
      Version.ofByte?_byte]
    simp

/-- The other form of an address. -/
theorem transformAddress_eq_ok : transformAddress env a = .ok b ↔ ∃ version addressBytes,
    addressBytes.length = 20 ∧ a = compose env version addressBytes ∧
      b = compose env version.transform addressBytes := by
  constructor
  · intro h
    obtain ⟨⟨version, addressBytes⟩, hvalid, h⟩ := bind_eq_ok.mp h
    obtain ⟨hlength, ha⟩ := validateAddress_eq_ok.mp hvalid
    refine ⟨version, addressBytes, hlength, ha, ?_⟩
    cases version with
    | livenet | testnet =>
      cases h
      exact ha
    | livenetScript | livenetScript2 | testnetScript | testnetScript2 =>
      cases h
      rfl
  · rintro ⟨version, addressBytes, hlength, ha, rfl⟩
    refine bind_eq_ok.mpr ⟨_, validateAddress_eq_ok.mpr ⟨hlength, ha⟩, ?_⟩
    cases version with
    | livenet | testnet => rw [ha]; rfl
    | livenetScript | livenetScript2 | testnetScript | testnetScript2 => rfl

/-- **The other form of the other form** is the address. -/
theorem transformAddress_comm :
    transformAddress env a = .ok b ↔ transformAddress env b = .ok a := by
  have himp {a b : Bytes} (h : transformAddress env a = .ok b) :
      transformAddress env b = .ok a := by
    obtain ⟨version, addressBytes, hlength, ha, hb⟩ := transformAddress_eq_ok.mp h
    refine transformAddress_eq_ok.mpr ⟨version.transform, addressBytes, hlength, hb, ?_⟩
    rw [Version.transform_transform, ha]
  exact ⟨himp, himp⟩

/-- **Transforming an address.** The other form of a valid address is a valid address of the same
bytes and the same network, and its other form is the address. -/
theorem transform_involutive (h : validateAddress env a = .ok (version, addressBytes)) :
    ∃ b version', transformAddress env a = .ok b ∧
      validateAddress env b = .ok (version', addressBytes) ∧
      isTestnet version' = isTestnet version ∧ transformAddress env b = .ok a := by
  obtain ⟨hlength, ha⟩ := validateAddress_eq_ok.mp h
  have hb : transformAddress env a = .ok (compose env version.transform addressBytes) :=
    transformAddress_eq_ok.mpr ⟨version, addressBytes, hlength, ha, rfl⟩
  refine ⟨_, version.transform, hb, validateAddress_eq_ok.mpr ⟨hlength, rfl⟩, ?_,
    transformAddress_comm.mp hb⟩
  cases version <;> rfl

/-- The two forms of a script address. -/
theorem transform_involutive_script : ∃ b, validateAddress Sample.env
      (compose Sample.env .livenetScript (List.replicate 20 7)) =
        .ok (.livenetScript, List.replicate 20 7) ∧
    transformAddress Sample.env b =
      .ok (compose Sample.env .livenetScript (List.replicate 20 7)) := by
  have hvalid : validateAddress Sample.env
      (compose Sample.env .livenetScript (List.replicate 20 7)) =
        .ok (.livenetScript, List.replicate 20 7) :=
    validateAddress_eq_ok.mpr ⟨List.length_replicate, rfl⟩
  obtain ⟨b, -, -, -, -, hback⟩ := transform_involutive hvalid
  exact ⟨b, hvalid, hback⟩

end Litecoin

end Bitmarkd
