import Bitmarkd.TransactionRecord.Record

/-!
# Unpacking transaction records

`transactionrecord/unpack.go`. The state of a reader is `record[n:]`, what is left of the record
after the first `n` bytes. A slice that leaves the record panics, and `Unpack` recovers every
panic and returns `NotTransactionPack`; slices are taken to have no capacity beyond their length.

The decoder reads nothing but the bytes it consumes (`unpackBody_stable`), so a record cut out of
a block decodes to what it decoded to in the block (`unpack_take`).
-/

namespace Bitmarkd

open Lib Util

/-! ## Fields -/

/-- Fall out of `unpack_switch`. -/
def breakUnpackSwitch {α : Type} : Reader Stop α := Reader.fail (.fault .notTransactionPack)

/-- A `FromVarint64` that must not be truncated. -/
def readUint64 : Reader Stop UInt64 := fun record =>
  let (value, length) := fromVarint64 record
  if length = 0 then .error (.fault .notTransactionPack) else .ok (value, record.drop length)

/-- A `ClippedVarint64` in `minimum..8192` that must not be truncated. -/
def readLength (minimum : Nat) : Reader Stop Nat := fun record =>
  let (length, offset) := clippedVarint64 record minimum 8192
  if offset = 0 then .error (.fault .notTransactionPack) else .ok (length, record.drop offset)

/-- A field of at least `minimum` bytes with its length before it. -/
def readField (minimum : Nat) : Reader Stop Bytes := do
  let length ← readLength minimum
  Reader.take (.panic .indexOutOfRange) length

/-- An account of the network. -/
def readAccount (testnet : Bool) : Reader Stop Account := do
  let field ← readField 1
  let account ← Reader.lift (Account.accountFromBytes field)
  if account.isTesting ≠ testnet then Reader.fail (.fault .wrongNetworkForPublicKey)
  else pure account

/-- A link or share id. -/
def readDigest : Reader Stop Digest := do
  let field ← readField 1
  Reader.lift (digestFromBytes field)

/-- An asset id. -/
def readAssetIdentifier : Reader Stop AssetIdentifier := do
  let field ← readField 1
  Reader.lift (assetIdentifierFromBytes field)

/-- A currency. -/
def readCurrency : Reader Stop Currency := do
  let c ← readUint64
  Reader.lift (Currency.fromUint64 c)

/-- The version and the payment map of a block record. -/
def readPayments (env : Env) (testnet : Bool) : Reader Stop (UInt64 × Currency.Map) := do
  let version ← readUint64
  match paymentVersions[version.toNat]? with
  | none => Reader.fail (.fault .invalidCurrencyAddress)
  | some required =>
    if version < 1 then Reader.fail (.fault .invalidCurrencyAddress)
    else do
      let field ← readField 1
      let (payments, cs) ← Reader.lift (Currency.unpackMap env field testnet)
      if cs ≠ required then Reader.fail (.fault .invalidCurrencyAddress)
      else pure (version, payments)

/-- The byte at the front of the record. -/
def readByte : Reader Stop UInt8 := fun record =>
  match record with
  | [] => .error (.panic .indexOutOfRange)
  | b :: rest => .ok (b, rest)

/-- `unpackEscrow`. -/
def unpackEscrow : Reader Stop (Option Payment) := do
  let flag ← readByte
  if flag = 0 then pure none
  else if flag = 1 then do
    let currency ← readCurrency
    let address ← readField 1
    let amount ← readUint64
    pure (some ⟨currency, address, amount⟩)
  else breakUnpackSwitch

/-- The name of an asset. Its length is not checked for truncation: a bad length reads as an empty
name at the same place. -/
def readName : Reader Stop Bytes := fun record =>
  let (nameLength, nameOffset) := clippedVarint64 record 0 8192
  Reader.take (.panic .indexOutOfRange) nameLength (record.drop nameOffset)

/-! ## Records -/

def unpackOldBaseData (testnet : Bool) : Reader Stop Transaction := do
  let currency ← readCurrency
  let paymentAddress ← readField 1
  let owner ← readAccount testnet
  let nonce ← readUint64
  let signature ← readField 1
  let r : OldBaseData := ⟨currency, paymentAddress, owner, nonce, signature⟩
  Reader.lift r.check
  pure (.oldBaseData r)

def unpackAssetData (testnet : Bool) : Reader Stop Transaction := do
  let name ← readName
  let fingerprint ← readField 1
  let metadata ← readField 0
  let registrant ← readAccount testnet
  let signature ← readField 1
  let r : AssetData := ⟨name, fingerprint, metadata, registrant, signature⟩
  Reader.lift r.check
  pure (.assetData r)

def unpackBitmarkIssue (testnet : Bool) : Reader Stop Transaction := do
  let assetId ← readAssetIdentifier
  let owner ← readAccount testnet
  let nonce ← readUint64
  let signature ← readField 1
  let r : BitmarkIssue := ⟨assetId, owner, nonce, signature⟩
  Reader.lift r.check
  pure (.bitmarkIssue r)

def unpackBitmarkTransferUnratified (testnet : Bool) : Reader Stop Transaction := do
  let link ← readDigest
  let escrow ← unpackEscrow
  let owner ← readAccount testnet
  let signature ← readField 1
  let r : BitmarkTransferUnratified := ⟨link, escrow, owner, signature⟩
  Reader.lift r.check
  pure (.bitmarkTransferUnratified r)

def unpackBitmarkTransferCountersigned (testnet : Bool) : Reader Stop Transaction := do
  let link ← readDigest
  let escrow ← unpackEscrow
  let owner ← readAccount testnet
  let signature ← readField 1
  let countersignature ← readField 1
  let r : BitmarkTransferCountersigned := ⟨link, escrow, owner, signature, countersignature⟩
  Reader.lift r.check
  pure (.bitmarkTransferCountersigned r)

def unpackBlockFoundation (env : Env) (testnet : Bool) : Reader Stop Transaction := do
  let (version, payments) ← readPayments env testnet
  let owner ← readAccount testnet
  let nonce ← readUint64
  let signature ← readField 1
  let r : BlockFoundation := ⟨version, payments, owner, nonce, signature⟩
  Reader.lift (r.check env testnet)
  pure (.blockFoundation r)

def unpackBlockOwnerTransfer (env : Env) (testnet : Bool) : Reader Stop Transaction := do
  let link ← readDigest
  let escrow ← unpackEscrow
  let (version, payments) ← readPayments env testnet
  let owner ← readAccount testnet
  let signature ← readField 1
  let countersignature ← readField 1
  let r : BlockOwnerTransfer :=
    ⟨link, escrow, version, payments, owner, signature, countersignature⟩
  Reader.lift (r.check env testnet)
  pure (.blockOwnerTransfer r)

def unpackBitmarkShare : Reader Stop Transaction := do
  let link ← readDigest
  let quantity ← readUint64
  let signature ← readField 1
  let r : BitmarkShare := ⟨link, quantity, signature⟩
  Reader.lift r.check
  pure (.bitmarkShare r)

/-- The two accounts are separate allocations, so their addresses differ. -/
def unpackShareGrant (testnet : Bool) : Reader Stop Transaction := do
  let shareId ← readDigest
  let quantity ← readUint64
  let owner ← readAccount testnet
  let recipient ← readAccount testnet
  let beforeBlock ← readUint64
  let signature ← readField 1
  let countersignature ← readField 1
  let r : ShareGrant :=
    ⟨shareId, quantity, ⟨0, owner⟩, ⟨1, recipient⟩, beforeBlock, signature, countersignature⟩
  Reader.lift r.check
  pure (.shareGrant r)

/-- The two accounts are separate allocations, so their addresses differ. -/
def unpackShareSwap (testnet : Bool) : Reader Stop Transaction := do
  let shareIdOne ← readDigest
  let quantityOne ← readUint64
  let ownerOne ← readAccount testnet
  let shareIdTwo ← readDigest
  let quantityTwo ← readUint64
  let ownerTwo ← readAccount testnet
  let beforeBlock ← readUint64
  let signature ← readField 1
  let countersignature ← readField 1
  let r : ShareSwap :=
    ⟨shareIdOne, quantityOne, ⟨0, ownerOne⟩, shareIdTwo, quantityTwo, ⟨1, ownerTwo⟩,
      beforeBlock, signature, countersignature⟩
  Reader.lift r.check
  pure (.shareSwap r)

/-- The tag with this number. -/
def Tag.ofValue? (n : Nat) : Option Tag :=
  match n with
  | 1 => some .baseData
  | 2 => some .assetData
  | 3 => some .bitmarkIssue
  | 4 => some .bitmarkTransferUnratified
  | 5 => some .bitmarkTransferCountersigned
  | 6 => some .blockFoundation
  | 7 => some .blockOwnerTransfer
  | 8 => some .bitmarkShare
  | 9 => some .shareGrant
  | 10 => some .shareSwap
  | _ => none

/-- The fields after the tag. -/
def unpackFields (env : Env) (testnet : Bool) : Tag → Reader Stop Transaction
  | .baseData => unpackOldBaseData testnet
  | .assetData => unpackAssetData testnet
  | .bitmarkIssue => unpackBitmarkIssue testnet
  | .bitmarkTransferUnratified => unpackBitmarkTransferUnratified testnet
  | .bitmarkTransferCountersigned => unpackBitmarkTransferCountersigned testnet
  | .blockFoundation => unpackBlockFoundation env testnet
  | .blockOwnerTransfer => unpackBlockOwnerTransfer env testnet
  | .bitmarkShare => unpackBitmarkShare
  | .shareGrant => unpackShareGrant testnet
  | .shareSwap => unpackShareSwap testnet

/-- The body of `Unpack`, before panics are recovered. -/
def unpackBody (env : Env) (testnet : Bool) : Reader Stop Transaction := do
  let recordType ← readLength 1
  match Tag.ofValue? recordType with
  | none => breakUnpackSwitch
  | some tag => unpackFields env testnet tag

/-- `Packed.Unpack`: the record at the front of the bytes and the number of bytes it used. -/
def unpack (env : Env) (record : Bytes) (testnet : Bool) : Except Stop (Transaction × Nat) :=
  match unpackBody env testnet record with
  | .ok (t, rest) => .ok (t, record.length - rest.length)
  | .error (.fault e) => fault e
  | .error (.panic _) | .error .outOfSteps => fault .notTransactionPack

/-! ## Stability -/

theorem readUint64_stable : Reader.Stable readUint64 := by
  intro record rest x h
  unfold readUint64 at h
  split at h
  next value length hv =>
    split at h
    · cases h
    next hlen =>
      cases h
      obtain ⟨hle, hst⟩ := fromVarint64_stable hv hlen
      refine ⟨record.take length, (List.take_append_drop length record).symm, fun rest' => ?_⟩
      have htake : (record.take length).length = length := List.length_take_of_le hle
      simp only [readUint64, hst rest', hlen, if_false, List.drop_left' htake]

theorem readLength_stable (minimum : Nat) : Reader.Stable (readLength minimum) := by
  intro record rest x h
  unfold readLength at h
  split at h
  next length offset hv =>
    split at h
    · cases h
    next hoff =>
      cases h
      obtain ⟨hle, hst⟩ := clippedVarint64_stable hv hoff
      refine ⟨record.take offset, (List.take_append_drop offset record).symm, fun rest' => ?_⟩
      have htake : (record.take offset).length = offset := List.length_take_of_le hle
      simp only [readLength, hst rest', hoff, if_false, List.drop_left' htake]

theorem readField_stable (minimum : Nat) : Reader.Stable (readField minimum) :=
  .bind (readLength_stable minimum) fun _ => .take _ _

theorem readAccount_stable (testnet : Bool) : Reader.Stable (readAccount testnet) :=
  .bind (readField_stable 1) fun _ => .bind (.lift _) fun _ => .ite (.fail _) (.pure _)

theorem readDigest_stable : Reader.Stable readDigest := .bind (readField_stable 1) fun _ => .lift _

theorem readAssetIdentifier_stable : Reader.Stable readAssetIdentifier :=
  .bind (readField_stable 1) fun _ => .lift _

theorem readCurrency_stable : Reader.Stable readCurrency := .bind readUint64_stable fun _ => .lift _

theorem readPayments_stable (env : Env) (testnet : Bool) :
    Reader.Stable (readPayments env testnet) := by
  refine .bind readUint64_stable fun version => ?_
  split
  · exact .fail _
  · exact .ite (.fail _) (.bind (readField_stable 1) fun _ => .bind (.lift _) fun _ =>
      .ite (.fail _) (.pure _))

theorem readByte_stable : Reader.Stable readByte := by
  intro record rest x h
  cases record with
  | nil => cases h
  | cons b record =>
    cases h
    exact ⟨[x], rfl, fun _ => rfl⟩

theorem unpackEscrow_stable : Reader.Stable unpackEscrow :=
  .bind readByte_stable fun _ => .ite (.pure _) (.ite (.bind readCurrency_stable fun _ =>
    .bind (readField_stable 1) fun _ => .bind readUint64_stable fun _ => .pure _) (.fail _))

/-- A name whose length does not read leaves the fingerprint to be read at the same place, where
it does not read either. -/
theorem readName_then_stable {β : Type} {f : Bytes → Bytes → Reader Stop β}
    (hf : ∀ name fingerprint, Reader.Stable (f name fingerprint)) :
    Reader.Stable (readName >>= fun name => readField 1 >>= fun fp => f name fp) := by
  intro record rest y h
  obtain ⟨name, mid, hname, hrest⟩ := Reader.bind_eq_ok.mp h
  unfold readName at hname
  split at hname
  next nameLength nameOffset hv =>
    by_cases hoff : nameOffset = 0
    · -- the length did not read: neither does the one of the fingerprint
      exfalso
      subst hoff
      have htrunc : nameLength = 0 ∧ clippedVarint64 record 1 8192 = (0, 0) :=
        clippedVarint64_truncated (by decide) (by decide) hv
      obtain ⟨hlen, hzero⟩ := htrunc
      subst hlen
      simp only [Reader.take, Nat.zero_le, if_true, List.drop_zero, List.take_zero] at hname
      cases hname
      obtain ⟨fp, mid', hfp, -⟩ := Reader.bind_eq_ok.mp hrest
      obtain ⟨len, mid'', hl, -⟩ := Reader.bind_eq_ok.mp hfp
      simp [readLength, hzero] at hl
    · -- the length did read: the name is an ordinary field
      have hstable : Reader.Stable
          (readField 0 >>= fun name => readField 1 >>= fun fp => f name fp) :=
        (readField_stable 0).bind fun _ => (readField_stable 1).bind fun _ => hf _ _
      obtain ⟨hle, hst⟩ := clippedVarint64_stable hv hoff
      have hread : (readField 0 >>= fun name => readField 1 >>= fun fp => f name fp) record =
          .ok (y, rest) := by
        refine Reader.bind_eq_ok.mpr ⟨name, mid, ?_, hrest⟩
        refine Reader.bind_eq_ok.mpr ⟨nameLength, record.drop nameOffset, ?_, hname⟩
        simp only [readLength, hv, hoff, if_false]
      obtain ⟨front, hfront, hall⟩ := hstable hread
      refine ⟨front, hfront, fun rest' => ?_⟩
      obtain ⟨name', mid', hname', hrest'⟩ := Reader.bind_eq_ok.mp (hall rest')
      obtain ⟨len', mid'', hl', ht'⟩ := Reader.bind_eq_ok.mp hname'
      refine Reader.bind_eq_ok.mpr ⟨name', mid', ?_, hrest'⟩
      unfold readLength at hl'
      split at hl'
      next l o hlo =>
        split at hl'
        · cases hl'
        · cases hl'
          simp only [readName, hlo]
          exact ht'

/-! ### Records -/

theorem length_le_of_readField {minimum : Nat} {b rest field : Bytes}
    (h : readField minimum b = .ok (field, rest)) : field.length ≤ b.length := by
  obtain ⟨length, mid, hlen, htake⟩ := Reader.bind_eq_ok.mp h
  have hmid := (readLength_stable minimum).length_le hlen
  unfold Reader.take at htake
  split at htake
  · cases htake
    rw [List.length_take]
    omega
  · cases htake

theorem readName_length_le {b rest name : Bytes} (h : readName b = .ok (name, rest)) :
    rest.length ≤ b.length := by
  unfold readName Reader.take at h
  dsimp only at h
  split at h
  · cases h
    simp only [List.length_drop]
    omega
  · cases h

/-- A reader of records is stable, and returns no signature longer than its input. -/
structure ReadsRecord (p : Reader Stop Transaction) : Prop where
  stable : Reader.Stable p
  signature : ∀ ⦃b rest t⦄, p b = .ok (t, rest) → t.lastSignature.length ≤ b.length

theorem ReadsRecord.bind {α : Type} {p : Reader Stop α} {f : α → Reader Stop Transaction}
    (hp : Reader.Stable p) (hf : ∀ x, ReadsRecord (f x)) : ReadsRecord (p >>= f) where
  stable := .bind hp fun x => (hf x).stable
  signature b rest t h := by
    obtain ⟨x, mid, hpb, hfx⟩ := Reader.bind_eq_ok.mp h
    exact ((hf x).signature hfx).trans (hp.length_le hpb)

theorem ReadsRecord.bind_name {f : Bytes → Bytes → Reader Stop Transaction}
    (hf : ∀ name fingerprint, ReadsRecord (f name fingerprint)) :
    ReadsRecord (readName >>= fun name => readField 1 >>= fun fp => f name fp) where
  stable := readName_then_stable fun name fp => (hf name fp).stable
  signature b rest t h := by
    obtain ⟨name, mid, hname, hrest⟩ := Reader.bind_eq_ok.mp h
    have hfield := ReadsRecord.bind (readField_stable 1) fun fp => hf name fp
    exact (hfield.signature hrest).trans (readName_length_le hname)

/-- The last signature is the field before the check. -/
theorem ReadsRecord.last {mk : Bytes → Transaction} {check : Bytes → Except Stop Unit}
    (hmk : ∀ s, (mk s).lastSignature = s) :
    ReadsRecord (readField 1 >>= fun signature =>
      Reader.lift (check signature) >>= fun _ => pure (mk signature)) where
  stable := .bind (readField_stable 1) fun _ => .bind (.lift _) fun _ => .pure _
  signature b rest t h := by
    obtain ⟨signature, mid, hfield, hrest⟩ := Reader.bind_eq_ok.mp h
    obtain ⟨⟨⟩, mid', -, hpure⟩ := Reader.bind_eq_ok.mp hrest
    cases hpure
    rw [hmk]
    exact length_le_of_readField hfield

theorem unpackFields_readsRecord (env : Env) (testnet : Bool) (tag : Tag) :
    ReadsRecord (unpackFields env testnet tag) := by
  cases tag with
  | baseData =>
    exact .bind readCurrency_stable fun _ => .bind (readField_stable 1) fun _ =>
      .bind (readAccount_stable testnet) fun _ => .bind readUint64_stable fun _ =>
      .last fun _ => rfl
  | assetData =>
    exact .bind_name fun _ _ => .bind (readField_stable 0) fun _ =>
      .bind (readAccount_stable testnet) fun _ => .last fun _ => rfl
  | bitmarkIssue =>
    exact .bind readAssetIdentifier_stable fun _ => .bind (readAccount_stable testnet) fun _ =>
      .bind readUint64_stable fun _ => .last fun _ => rfl
  | bitmarkTransferUnratified =>
    exact .bind readDigest_stable fun _ => .bind unpackEscrow_stable fun _ =>
      .bind (readAccount_stable testnet) fun _ => .last fun _ => rfl
  | bitmarkTransferCountersigned =>
    exact .bind readDigest_stable fun _ => .bind unpackEscrow_stable fun _ =>
      .bind (readAccount_stable testnet) fun _ => .bind (readField_stable 1) fun _ =>
      .last fun _ => rfl
  | blockFoundation =>
    exact .bind (readPayments_stable env testnet) fun _ =>
      .bind (readAccount_stable testnet) fun _ => .bind readUint64_stable fun _ =>
      .last fun _ => rfl
  | blockOwnerTransfer =>
    exact .bind readDigest_stable fun _ => .bind unpackEscrow_stable fun _ =>
      .bind (readPayments_stable env testnet) fun _ => .bind (readAccount_stable testnet) fun _ =>
      .bind (readField_stable 1) fun _ => .last fun _ => rfl
  | bitmarkShare =>
    exact .bind readDigest_stable fun _ => .bind readUint64_stable fun _ => .last fun _ => rfl
  | shareGrant =>
    exact .bind readDigest_stable fun _ => .bind readUint64_stable fun _ =>
      .bind (readAccount_stable testnet) fun _ => .bind (readAccount_stable testnet) fun _ =>
      .bind readUint64_stable fun _ => .bind (readField_stable 1) fun _ => .last fun _ => rfl
  | shareSwap =>
    exact .bind readDigest_stable fun _ => .bind readUint64_stable fun _ =>
      .bind (readAccount_stable testnet) fun _ => .bind readDigest_stable fun _ =>
      .bind readUint64_stable fun _ => .bind (readAccount_stable testnet) fun _ =>
      .bind readUint64_stable fun _ => .bind (readField_stable 1) fun _ => .last fun _ => rfl

theorem unpackBody_stable (env : Env) (testnet : Bool) :
    Reader.Stable (unpackBody env testnet) := by
  refine .bind (readLength_stable 1) fun recordType => ?_
  split
  · exact .fail _
  · exact (unpackFields_readsRecord env testnet _).stable

/-- A tag takes at least one byte. -/
theorem unpackBody_length_lt {env : Env} {testnet : Bool} {record rest : Bytes} {t : Transaction}
    (h : unpackBody env testnet record = .ok (t, rest)) : rest.length < record.length := by
  obtain ⟨tag, mid, htag, hrest⟩ := Reader.bind_eq_ok.mp h
  have hmid : mid.length < record.length := by
    unfold readLength at htag
    split at htag
    next length offset hv =>
      split at htag
      · cases htag
      next hoff =>
        cases htag
        have := (clippedVarint64_stable hv hoff).1
        rw [List.length_drop]
        omega
  have hle : rest.length ≤ mid.length := by
    cases htv : Tag.ofValue? tag with
    | none =>
      simp only [htv] at hrest
      cases hrest
    | some tag' =>
      simp only [htv] at hrest
      exact (unpackFields_readsRecord env testnet tag').stable.length_le hrest
  omega

/-- **Unpacking is local.** A successful `Unpack` uses between one and all bytes of its input, and
what it returns depends on those bytes only. -/
theorem unpack_spec {env : Env} {testnet : Bool} {record : Bytes} {t : Transaction} {n : Nat}
    (h : unpack env record testnet = .ok (t, n)) :
    0 < n ∧ n ≤ record.length ∧
      ∀ rest, unpack env (record.take n ++ rest) testnet = .ok (t, n) := by
  unfold unpack at h
  split at h
  next t' rest hbody =>
    cases h
    have hlt := unpackBody_length_lt hbody
    obtain ⟨-, hall⟩ := (unpackBody_stable env testnet).consumed hbody
    refine ⟨by omega, by omega, fun rest' => ?_⟩
    have hlen : (record.take (record.length - rest.length)).length =
        record.length - rest.length := List.length_take_of_le (by omega)
    simp [unpack, hall rest', hlen]
  all_goals simp at h

/-- The bytes a successful `Unpack` used unpack to the same record. -/
theorem unpack_take {env : Env} {testnet : Bool} {record : Bytes} {t : Transaction} {n : Nat}
    (h : unpack env record testnet = .ok (t, n)) :
    unpack env (record.take n) testnet = .ok (t, n) := by
  simpa using (unpack_spec h).2.2 []

/-- A record is at least as long as its last signature. -/
theorem lastSignature_length_le {env : Env} {testnet : Bool} {record : Bytes} {t : Transaction}
    {n : Nat} (h : unpack env record testnet = .ok (t, n)) :
    t.lastSignature.length ≤ record.length := by
  unfold unpack at h
  split at h
  next t' rest hbody =>
    cases h
    obtain ⟨tag, mid, htag, hrest⟩ := Reader.bind_eq_ok.mp hbody
    have hmid := (readLength_stable 1).length_le htag
    cases htv : Tag.ofValue? tag with
    | none =>
      simp only [htv] at hrest
      cases hrest
    | some tag' =>
      simp only [htv] at hrest
      exact ((unpackFields_readsRecord env testnet tag').signature hrest).trans hmid
  all_goals simp at h

end Bitmarkd
