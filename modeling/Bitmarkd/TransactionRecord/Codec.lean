import Bitmarkd.Sample
import Bitmarkd.TransactionRecord.Fields

/-!
# Packing and unpacking

`Unpack` is written by hand, apart from `Pack`, with limits and checks of its own. `readsIff` says
for each of the ten record types what it does with the layout of a record: it returns the record if
`Readable` holds, and stops if not. What follows a record does not matter, so a list of packed
records in a row decodes record by record.

Of the conditions of `Readable`, a successful `Pack` has established all but two: that a payment
address outside a payment map is not empty, and that the accounts in the record are on the network
of the signer (`unpackAll_iff`).
-/

namespace Bitmarkd

open Lib Util Reader

/-! ## Records -/

namespace Transaction

/-- The record as the decoder returns it: the accounts of a share record are new allocations. -/
def normal : Transaction → Transaction
  | .shareGrant tx => .shareGrant { tx with
      owner := ⟨0, tx.owner.account⟩, recipient := ⟨1, tx.recipient.account⟩ }
  | .shareSwap tx => .shareSwap { tx with
      ownerOne := ⟨0, tx.ownerOne.account⟩, ownerTwo := ⟨1, tx.ownerTwo.account⟩ }
  | tx => tx

/-- The fields have lengths within the limits of the decoder. -/
structure Sized (tx : Transaction) : Prop where
  texts : ∀ s ∈ tx.texts, s.length ≤ 8192
  addresses : ∀ a ∈ tx.addresses, a.2.length ≤ 8192
  signatures : ∀ s ∈ tx.signatures, s.length ≤ 8192
  payments : ∀ m ∈ tx.payments?, m.Standard

/-- What the decoder checks. -/
@[mk_iff] structure Readable (env : Env) (testnet : Bool) (tx : Transaction) : Prop where
  accounts : ∀ a ∈ tx.accounts, a.isTesting = testnet
  addresses : ∀ a ∈ tx.addresses, a.2 ≠ []
  signatures : ∀ s ∈ tx.signatures, s ≠ []
  check : tx.normal.check env testnet = .ok ()

theorem fingerprint_ne_nil {tx : AssetData} (h : tx.check = .ok ()) : tx.fingerprint ≠ [] := by
  intro hnil
  obtain ⟨⟨⟩, -, h⟩ := bind_eq_ok.mp h
  obtain ⟨⟨⟩, -, h⟩ := bind_eq_ok.mp h
  obtain ⟨⟨⟩, -, h⟩ := bind_eq_ok.mp h
  obtain ⟨⟨⟩, hshort, h⟩ := bind_eq_ok.mp h
  rw [hnil] at hshort
  exact absurd hshort (by decide)

variable {env : Env} {testnet : Bool}

/-- The reader returns the record from its fields and signatures if it is readable, and stops if
not. -/
def Decodes (env : Env) (testnet : Bool) (tx : Transaction) (p : Reader Stop Transaction) : Prop :=
  ReadsIff (tx.Readable env testnet) p (tx.fields ++ tx.signatures.flatMap packBytes) tx.normal

theorem Decodes.of_reads {c : Prop} {p : Reader Stop Transaction} {b : Bytes} {tx : Transaction}
    (h : ReadsIff c p b tx.normal) (hb : b = tx.fields ++ tx.signatures.flatMap packBytes)
    (hc : c ↔ tx.Readable env testnet) : Decodes env testnet tx p :=
  (h.of_eq hb).congr hc

theorem Sized.signature {tx : Transaction} {s : Bytes} (h : tx.Sized) (hs : tx.signatures = [s]) :
    s.length ≤ 8192 := h.signatures s (by simp [hs])

theorem Sized.signature_pair {tx : Transaction} {s s' : Bytes} (h : tx.Sized)
    (hs : tx.signatures = [s, s']) : s.length ≤ 8192 ∧ s'.length ≤ 8192 :=
  ⟨h.signatures s (by simp [hs]), h.signatures s' (by simp [hs])⟩

theorem oldBaseData_reads {tx : OldBaseData} (h : (oldBaseData tx).Sized) :
    Decodes env testnet (oldBaseData tx) (unpackOldBaseData testnet) := by
  refine .of_reads (.bind (readCurrency_reads tx.currency)
    (.bind (readField_one_reads (h.addresses _ List.mem_cons_self))
      (.bind (readAccount_reads testnet tx.owner) (.bind (readUint64_reads tx.nonce)
        (.bind (readField_one_reads (h.signature rfl)) (.checked _)))))) ?_ ?_
  · simp [fields, signatures]
  · simp [readable_iff, accounts, addresses, signatures, normal, check]
    tauto

theorem bitmarkIssue_reads {tx : BitmarkIssue} (h : (bitmarkIssue tx).Sized) :
    Decodes env testnet (bitmarkIssue tx) (unpackBitmarkIssue testnet) := by
  refine .of_reads (.bind (readAssetIdentifier_reads tx.assetId)
    (.bind (readAccount_reads testnet tx.owner) (.bind (readUint64_reads tx.nonce)
      (.bind (readField_one_reads (h.signature rfl)) (.checked _))))) ?_ ?_
  · simp [fields, signatures]
  · simp [readable_iff, accounts, addresses, signatures, normal, check]

theorem bitmarkTransferUnratified_reads {tx : BitmarkTransferUnratified}
    (h : (bitmarkTransferUnratified tx).Sized) :
    Decodes env testnet (bitmarkTransferUnratified tx)
      (unpackBitmarkTransferUnratified testnet) := by
  refine .of_reads (.bind (readDigest_reads tx.link) (.bind (unpackEscrow_reads h.addresses)
    (.bind (readAccount_reads testnet tx.owner)
      (.bind (readField_one_reads (h.signature rfl)) (.checked _))))) ?_ ?_
  · simp [fields, signatures]
  · simp [readable_iff, accounts, addresses, signatures, normal, check]
    tauto

theorem bitmarkTransferCountersigned_reads {tx : BitmarkTransferCountersigned}
    (h : (bitmarkTransferCountersigned tx).Sized) :
    Decodes env testnet (bitmarkTransferCountersigned tx)
      (unpackBitmarkTransferCountersigned testnet) := by
  have hs : tx.signature.length ≤ 8192 ∧ tx.countersignature.length ≤ 8192 := h.signature_pair rfl
  refine .of_reads (.bind (readDigest_reads tx.link) (.bind (unpackEscrow_reads h.addresses)
    (.bind (readAccount_reads testnet tx.owner) (.bind (readField_one_reads hs.1)
      (.bind (readField_one_reads hs.2) (.checked _)))))) ?_ ?_
  · simp [fields, signatures]
  · simp [readable_iff, accounts, addresses, signatures, normal, check]
    tauto

theorem bitmarkShare_reads {tx : BitmarkShare} (h : (bitmarkShare tx).Sized) :
    Decodes env testnet (bitmarkShare tx) unpackBitmarkShare := by
  refine .of_reads (.bind (readDigest_reads tx.link) (.bind (readUint64_reads tx.quantity)
    (.bind (readField_one_reads (h.signature rfl)) (.checked _)))) ?_ ?_
  · simp [fields, signatures]
  · simp [readable_iff, accounts, addresses, signatures, normal, check]

theorem shareGrant_reads {tx : ShareGrant} (h : (shareGrant tx).Sized) :
    Decodes env testnet (shareGrant tx) (unpackShareGrant testnet) := by
  have hs : tx.signature.length ≤ 8192 ∧ tx.countersignature.length ≤ 8192 := h.signature_pair rfl
  refine .of_reads (.bind (readDigest_reads tx.shareId) (.bind (readUint64_reads tx.quantity)
    (.bind (readAccount_reads testnet tx.owner.account)
      (.bind (readAccount_reads testnet tx.recipient.account)
        (.bind (readUint64_reads tx.beforeBlock) (.bind (readField_one_reads hs.1)
          (.bind (readField_one_reads hs.2) (.checked _)))))))) ?_ ?_
  · simp [fields, signatures]
  · simp [readable_iff, accounts, addresses, signatures, normal, check]
    tauto

theorem shareSwap_reads {tx : ShareSwap} (h : (shareSwap tx).Sized) :
    Decodes env testnet (shareSwap tx) (unpackShareSwap testnet) := by
  have hs : tx.signature.length ≤ 8192 ∧ tx.countersignature.length ≤ 8192 := h.signature_pair rfl
  refine .of_reads (.bind (readDigest_reads tx.shareIdOne) (.bind (readUint64_reads tx.quantityOne)
    (.bind (readAccount_reads testnet tx.ownerOne.account) (.bind (readDigest_reads tx.shareIdTwo)
      (.bind (readUint64_reads tx.quantityTwo)
        (.bind (readAccount_reads testnet tx.ownerTwo.account)
          (.bind (readUint64_reads tx.beforeBlock) (.bind (readField_one_reads hs.1)
            (.bind (readField_one_reads hs.2) (.checked _)))))))))) ?_ ?_
  · simp [fields, signatures]
  · simp [readable_iff, accounts, addresses, signatures, normal, check]
    tauto

theorem assetData_reads {tx : AssetData} (h : (assetData tx).Sized) :
    Decodes env testnet (assetData tx) (unpackAssetData testnet) := by
  have htexts : tx.name.length ≤ 8192 ∧ tx.fingerprint.length ≤ 8192 ∧
      tx.metadata.length ≤ 8192 := by
    simpa [texts] using h.texts
  refine .of_reads (.bind (readName_reads htexts.1) (.bind (readField_one_reads htexts.2.1)
    (.bind (readField_reads htexts.2.2 (Nat.zero_le 1))
      (.bind (readAccount_reads testnet tx.registrant)
        (.bind (readField_one_reads (h.signature rfl)) (.checked _)))))) ?_ ?_
  · simp [fields, signatures]
  · -- the check of the record includes that of the fingerprint
    have hfingerprint := @fingerprint_ne_nil tx
    simp [readable_iff, accounts, addresses, signatures, normal, check]
    tauto

theorem blockFoundation_reads {tx : BlockFoundation} (h : (blockFoundation tx).Sized) :
    Decodes env testnet (blockFoundation tx) (unpackBlockFoundation env testnet) := by
  refine .of_reads (.bind (h.payments _ rfl).readPayments_reads
    (.bind (readAccount_reads testnet tx.owner) (.bind (readUint64_reads tx.nonce)
      (.bind (readField_one_reads (h.signature rfl)) (.checked _))))) ?_ ?_
  · simp [fields, signatures]
  · have hcheck := @BlockFoundation.payments_of_check env tx testnet
    simp [readable_iff, accounts, addresses, signatures, normal, check]
    tauto

theorem blockOwnerTransfer_reads {tx : BlockOwnerTransfer} (h : (blockOwnerTransfer tx).Sized) :
    Decodes env testnet (blockOwnerTransfer tx) (unpackBlockOwnerTransfer env testnet) := by
  have hs : tx.signature.length ≤ 8192 ∧ tx.countersignature.length ≤ 8192 := h.signature_pair rfl
  refine .of_reads (.bind (readDigest_reads tx.link) (.bind (unpackEscrow_reads h.addresses)
    (.bind (h.payments _ rfl).readPayments_reads
      (.bind (readAccount_reads testnet tx.owner) (.bind (readField_one_reads hs.1)
        (.bind (readField_one_reads hs.2) (.checked _))))))) ?_ ?_
  · simp [fields, signatures]
  · have hcheck := @BlockOwnerTransfer.payments_of_check env tx testnet
    simp [readable_iff, accounts, addresses, signatures, normal, check]
    tauto

/-- **The decoder on the layout of a record**: it returns the record, or stops. -/
theorem readsIff {tx : Transaction} (h : tx.Sized) :
    ReadsIff (tx.Readable env testnet) (unpackBody env testnet) tx.layout tx.normal := by
  have htag : ReadsIff _ (readLength 1) (createPacked tx.tag) tx.tag.value.toNat :=
    .of_eq (readLength_reads (k := tx.tag.value.toNat) (by cases tx.tag <;> decide) (by decide))
      (by simp [createPacked])
  have hvalue : Tag.ofValue? tx.tag.value.toNat = some tx.tag := by cases tx.tag <;> rfl
  have hrange : 1 ≤ tx.tag.value.toNat ∧ tx.tag.value.toNat ≤ 8192 := by
    cases tx.tag <;> decide
  have hfields : Decodes env testnet tx (unpackFields env testnet tx.tag) := by
    cases tx with
    | oldBaseData tx => exact oldBaseData_reads h
    | assetData tx => exact assetData_reads h
    | bitmarkIssue tx => exact bitmarkIssue_reads h
    | bitmarkTransferUnratified tx => exact bitmarkTransferUnratified_reads h
    | bitmarkTransferCountersigned tx => exact bitmarkTransferCountersigned_reads h
    | blockFoundation tx => exact blockFoundation_reads h
    | blockOwnerTransfer tx => exact blockOwnerTransfer_reads h
    | bitmarkShare tx => exact bitmarkShare_reads h
    | shareGrant tx => exact shareGrant_reads h
    | shareSwap tx => exact shareSwap_reads h
  have h : ReadsIff _ (unpackBody env testnet) _ tx.normal :=
    .bind htag (d := tx.Readable env testnet) (by simp only [hvalue]; exact hfields)
  refine ReadsIff.congr (h.of_eq ?_) ?_
  · simp [layout, message]
  · simp [hrange]

/-! ## Records that `Pack` accepts -/

/-- What `Pack` does not check: no address outside a payment map is empty, and the accounts in the
record are on the network. -/
structure Unpackable (testnet : Bool) (tx : Transaction) : Prop where
  accounts : ∀ a ∈ tx.accounts, a.isTesting = testnet
  addresses : ∀ a ∈ tx.addresses, a.2 ≠ []

instance (testnet : Bool) (tx : Transaction) : Decidable (tx.Unpackable testnet) :=
  decidable_of_iff ((∀ a ∈ tx.accounts, a.isTesting = testnet) ∧ ∀ a ∈ tx.addresses, a.2 ≠ [])
    ⟨fun h => ⟨h.1, h.2⟩, fun h => ⟨h.accounts, h.addresses⟩⟩

/-- The check passes whatever the addresses of the accounts were. -/
theorem check_normal {tx : Transaction} (h : tx.check env testnet = .ok ()) :
    tx.normal.check env testnet = .ok () := by
  cases tx with
  | shareGrant tx =>
    obtain ⟨⟨⟩, h₁, h⟩ := bind_eq_ok.mp h
    obtain ⟨⟨⟩, h₂, h⟩ := bind_eq_ok.mp h
    obtain ⟨⟨⟩, h₃, h⟩ := bind_eq_ok.mp h
    obtain ⟨⟨⟩, h₄, h⟩ := bind_eq_ok.mp h
    obtain ⟨⟨⟩, -, h⟩ := bind_eq_ok.mp h
    simp only [normal, check, ShareGrant.check, h₁, h₂, h₃, h₄, bind, Except.bind]
    exact h
  | shareSwap tx =>
    obtain ⟨⟨⟩, h₁, h⟩ := bind_eq_ok.mp h
    obtain ⟨⟨⟩, h₂, h⟩ := bind_eq_ok.mp h
    obtain ⟨⟨⟩, h₃, h⟩ := bind_eq_ok.mp h
    obtain ⟨⟨⟩, h₄, h⟩ := bind_eq_ok.mp h
    obtain ⟨⟨⟩, -, h⟩ := bind_eq_ok.mp h
    simp only [normal, check, ShareSwap.check, h₁, h₂, h₃, h₄, bind, Except.bind]
    exact h
  | _ => exact h

theorem texts_length_le {tx : AssetData} (h : tx.check = .ok ()) :
    tx.name.length ≤ 8192 ∧ tx.fingerprint.length ≤ 8192 ∧ tx.metadata.length ≤ 8192 := by
  obtain ⟨⟨⟩, -, h⟩ := bind_eq_ok.mp h
  obtain ⟨⟨⟩, -, h⟩ := bind_eq_ok.mp h
  obtain ⟨⟨⟩, hname, h⟩ := bind_eq_ok.mp h
  obtain ⟨⟨⟩, -, h⟩ := bind_eq_ok.mp h
  obtain ⟨⟨⟩, hfingerprint, h⟩ := bind_eq_ok.mp h
  obtain ⟨⟨⟩, hmetadata, -⟩ := bind_eq_ok.mp h
  have hname := failIf_eq_ok.mp hname
  have hfingerprint := failIf_eq_ok.mp hfingerprint
  have hmetadata := failIf_eq_ok.mp hmetadata
  simp only [maxNameLength, maxFingerprintLength, maxMetadataLength, not_lt]
    at hname hfingerprint hmetadata
  have h₁ := length_le_runeCount tx.name
  have h₂ := length_le_runeCount tx.fingerprint
  have h₃ := length_le_runeCount tx.metadata
  omega

theorem PackedBy.sized {tx : Transaction} {signer : Account} {packed : Bytes}
    (h : PackedBy env tx signer packed) : tx.Sized where
  texts := by
    cases tx with
    | assetData tx => simpa [Transaction.texts] using texts_length_le h.check
    | _ => simp [Transaction.texts]
  addresses a ha := by
    have hrunes := Currency.runeCount_of_validateAddress (h.addresses a ha)
    have hlength := length_le_runeCount a.2
    omega
  signatures s hs := by
    rw [h.signatures s hs]
    decide
  payments := by
    cases tx with
    | blockFoundation tx =>
      rintro m ⟨⟩
      exact .of_check (BlockFoundation.payments_of_check h.check)
    | blockOwnerTransfer tx =>
      rintro m ⟨⟩
      exact .of_check (BlockOwnerTransfer.payments_of_check h.check)
    | _ => simp [payments?]

theorem PackedBy.readable_iff {tx : Transaction} {signer : Account} {packed : Bytes}
    (h : PackedBy env tx signer packed) :
    tx.Readable env signer.isTesting ↔ tx.Unpackable signer.isTesting := by
  refine ⟨fun hr => ⟨hr.accounts, hr.addresses⟩, fun hu => ⟨hu.accounts, hu.addresses, ?_, ?_⟩⟩
  · intro s hs hnil
    have hlength := h.signatures s hs
    simp [hnil] at hlength
  · exact check_normal h.check

end Transaction

/-! ## Records in a row -/

/-- `Unpack` applied again and again to what is left, until nothing is left; with `fuel` records to
go. -/
def unpackLoop (env : Env) (testnet : Bool) : ℕ → Bytes → Except Stop (List Transaction)
  | 0, record => if record = [] then .ok [] else .error .outOfSteps
  | fuel + 1, record =>
    if record = [] then .ok []
    else do
      let (tx, n) ← unpack env record testnet
      let txs ← unpackLoop env testnet fuel (record.drop n)
      return tx :: txs

/-- All records of a byte string. -/
def unpackAll (env : Env) (testnet : Bool) (record : Bytes) : Except Stop (List Transaction) :=
  unpackLoop env testnet record.length record

theorem Transaction.layout_ne_nil (tx : Transaction) : tx.layout ≠ [] := fun h =>
  toVarint64_ne_nil _ (List.append_eq_nil_iff.mp (List.append_eq_nil_iff.mp h).1).1

section Row

variable {env : Env} {testnet : Bool}

theorem unpack_layout {tx : Transaction} (h : tx.Sized) (hr : tx.Readable env testnet)
    (rest : Bytes) :
    unpack env (tx.layout ++ rest) testnet = .ok (tx.normal, tx.layout.length) := by
  rw [unpack, (Transaction.readsIff h).reads hr rest]
  simp

theorem unpack_layout_ne_ok {tx : Transaction} (h : tx.Sized) (hr : ¬ tx.Readable env testnet)
    (rest : Bytes) (y : Transaction × ℕ) : unpack env (tx.layout ++ rest) testnet ≠ .ok y := by
  intro hy
  unfold unpack at hy
  split at hy
  next t left hbody => exact (Transaction.readsIff h).rejects hr rest _ hbody
  · simp at hy
  · simp at hy
  · simp at hy

/-- One more record in front. -/
theorem unpackLoop_layout {tx : Transaction} (h : tx.Sized) {fuel : ℕ} {rest : Bytes}
    {txs : List Transaction} :
    unpackLoop env testnet (fuel + 1) (tx.layout ++ rest) = .ok (tx.normal :: txs) ↔
      tx.Readable env testnet ∧ unpackLoop env testnet fuel rest = .ok txs := by
  have hne : tx.layout ++ rest ≠ [] := fun h => tx.layout_ne_nil (List.append_eq_nil_iff.mp h).1
  rw [unpackLoop, if_neg hne]
  by_cases hr : tx.Readable env testnet
  · simp [unpack_layout h hr, hr, bind, Except.bind, pure, Except.pure]
    cases unpackLoop env testnet fuel rest <;> simp
  · simp only [hr, false_and, iff_false]
    intro hok
    obtain ⟨y, hy, -⟩ := bind_eq_ok.mp hok
    exact unpack_layout_ne_ok h hr rest y hy

/-- A call of `Pack`: the record, the signer and the bytes. -/
structure Packing where
  tx : Transaction
  signer : AccountPtr
  packed : Bytes

/-- The call succeeds, with a signer on this network. -/
structure Packing.Ok (env : Env) (testnet : Bool) (r : Packing) : Prop where
  pack : r.tx.pack env r.signer = .ok r.packed
  network : r.signer.account.isTesting = testnet

/-- The induction is on the records; there are never more of them than bytes. -/
theorem unpackLoop_iff {rs : List Packing} (h : ∀ r ∈ rs, r.Ok env testnet) {fuel : ℕ}
    (hfuel : (rs.map (·.packed)).flatten.length ≤ fuel) :
    unpackLoop env testnet fuel (rs.map (·.packed)).flatten = .ok (rs.map (·.tx.normal)) ↔
      ∀ r ∈ rs, r.tx.Unpackable testnet := by
  induction rs generalizing fuel with
  | nil => cases fuel <;> simp [unpackLoop]
  | cons r rs ih =>
    rw [List.forall_mem_cons] at h
    obtain ⟨hpack, rfl⟩ := h.1
    have hp := Transaction.pack_eq_ok hpack
    have hpos : r.tx.layout.length ≠ 0 := by simpa using r.tx.layout_ne_nil
    simp only [List.map_cons, List.flatten_cons, hp.bytes, List.length_append] at hfuel ⊢
    obtain ⟨fuel, rfl⟩ : ∃ k, fuel = k + 1 := ⟨fuel - 1, by omega⟩
    rw [unpackLoop_layout hp.sized, hp.readable_iff, ih h.2 (by omega), List.forall_mem_cons]

/-- **Packed records decode to themselves**, one after the other and with nothing left over, exactly
if no address outside a payment map is empty and the accounts are on the network. -/
theorem unpackAll_iff {rs : List Packing} (h : ∀ r ∈ rs, r.Ok env testnet) :
    unpackAll env testnet (rs.map (·.packed)).flatten = .ok (rs.map (·.tx.normal)) ↔
      ∀ r ∈ rs, r.tx.Unpackable testnet :=
  unpackLoop_iff h le_rfl

end Row

/-! ## Other encodings of a record -/

namespace Transaction

/-- The bytes begin with the layout of a record: all numbers are shortest varints, all accounts have
the key variant of their type and network, and a payment map has its two entries in order. -/
def Canonical (record : Bytes) : Prop := ∃ (tx : Transaction) (rest : Bytes),
  tx.Sized ∧ record = tx.layout ++ rest

/-- The layout does not depend on where the accounts are. -/
theorem layout_normal (tx : Transaction) : tx.normal.layout = tx.layout := by
  cases tx <;> rfl

/-- **Packing a decoded record** gives the bytes it was decoded from exactly if they are in the
layout of some record; the decoder accepts others. -/
theorem pack_eq_consumed_iff {env : Env} {testnet : Bool} {record packed : Bytes} {n : ℕ}
    {tx : Transaction} {signer : AccountPtr} (h : unpack env record testnet = .ok (tx, n))
    (hpack : tx.pack env signer = .ok packed) : packed = record.take n ↔ Canonical record := by
  have hp := pack_eq_ok hpack
  constructor
  · intro htake
    refine ⟨tx, record.drop n, hp.sized, ?_⟩
    rw [← hp.bytes, htake, List.take_append_drop]
  · rintro ⟨tx', rest, hsized, rfl⟩
    by_cases hr : tx'.Readable env testnet
    · rw [unpack_layout hsized hr] at h
      cases h
      rw [List.take_left, hp.bytes, layout_normal]
    · exact absurd h (unpack_layout_ne_ok hsized hr rest _)

end Transaction

namespace Sample

/-- The calls that pack these records. -/
def packings (txs : List Transaction) : List Packing :=
  txs.map fun tx => ⟨tx, ⟨0, account 1⟩, packed tx⟩

theorem unpackAll_three :
    unpackAll env true ((packings [foundation, issue 1 2 3, grant (id 7) 4 1 2 5]).map
        (·.packed)).flatten = .ok [foundation, issue 1 2 3, grant (id 7) 4 1 2 5] := by
  refine (unpackAll_iff fun r hr => ?_).mpr (by decide +kernel)
  constructor <;> revert r <;> decide +kernel

/-- A base record that is paid in no currency, to the empty address. -/
def baseUnpaid : Transaction := .oldBaseData ⟨.nothing, [], account 1, 0, signature 1⟩

/-- It can be packed, and its packed form does not decode. -/
theorem baseUnpaid_not_unpacked :
    baseUnpaid.pack env ⟨0, account 1⟩ = .ok (packed baseUnpaid) ∧
      unpackAll env true (packed baseUnpaid) = fault .notTransactionPack := by
  decide +kernel

/-- An issue whose signature length is written in two bytes. -/
def paddedIssue : Bytes :=
  (issue 1 2 3).message ++ [0xc0, 0x00] ++ signature 2

/-- The padded bytes decode to the signed issue, whose packed form is another. -/
theorem paddedIssue_not_packed :
    unpack env paddedIssue true = .ok (issue 1 2 3, paddedIssue.length) ∧
      (issue 1 2 3).pack env ⟨0, account 3⟩ = .ok (packed (issue 1 2 3)) ∧
      packed (issue 1 2 3) ≠ paddedIssue.take paddedIssue.length := by
  decide +kernel

theorem issue_unpacked :
    unpack env (packed (issue 1 2 3)) true = .ok (issue 1 2 3, (packed (issue 1 2 3)).length) := by
  decide +kernel

theorem issue_packed :
    (issue 1 2 3).pack env ⟨0, account 3⟩ = .ok (packed (issue 1 2 3)) := by
  decide +kernel

theorem pack_eq_consumed_issue :
    packed (issue 1 2 3) = (packed (issue 1 2 3)).take (packed (issue 1 2 3)).length ↔
      Transaction.Canonical (packed (issue 1 2 3)) :=
  Transaction.pack_eq_consumed_iff issue_unpacked issue_packed

end Sample

end Bitmarkd
