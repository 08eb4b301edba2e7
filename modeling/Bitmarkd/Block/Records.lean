import Bitmarkd.Block.Delete

/-!
# The records of a block

The transaction data of a block is a sequence of packed records (`Records`). Validation and
deletion both take it apart with `Unpack`; here both loops are brought to the one list of records,
and validation to what it says of each record (`ValidItem`).
-/

namespace Bitmarkd

open Lib

/-! ## Transaction data -/

/-- The bytes are one packed record. -/
def IsRecord (env : Env) (packed : Bytes) (tx : Transaction) : Prop :=
  unpack env packed env.isTesting = .ok (tx, packed.length)

/-- The bytes are a sequence of packed records. -/
inductive Records (env : Env) : Bytes → List (Bytes × Transaction) → Prop
  | nil : Records env [] []
  | cons {packed data : Bytes} {tx : Transaction} {rs : List (Bytes × Transaction)} :
      IsRecord env packed tx → Records env data rs →
      Records env (packed ++ data) ((packed, tx) :: rs)

section Data

variable {env : Env} {packed data : Bytes} {tx : Transaction} {n : Nat}

/-- What `Unpack` finds at the front of the data is a record. -/
theorem isRecord_of_unpack (h : unpack env data env.isTesting = .ok (tx, n)) :
    IsRecord env (data.take n) tx := by
  have hlen : (data.take n).length = n := List.length_take_of_le (unpack_spec h).2.1
  rw [IsRecord, hlen]
  exact unpack_take h

theorem IsRecord.length_pos (h : IsRecord env packed tx) : 0 < packed.length := (unpack_spec h).1

/-- A record is found in front of any data. -/
theorem IsRecord.unpack_append (h : IsRecord env packed tx) (data : Bytes) :
    unpack env (packed ++ data) env.isTesting = .ok (tx, packed.length) := by
  simpa using (unpack_spec h).2.2 data

theorem IsRecord.unique {tx' : Transaction} (h : IsRecord env packed tx)
    (h' : IsRecord env packed tx') : tx = tx' :=
  (Prod.mk.inj (Except.ok.inj (h.symm.trans h'))).1

theorem Records.isRecord {rs : List (Bytes × Transaction)} (h : Records env data rs) :
    ∀ r ∈ rs, IsRecord env r.1 r.2 := by
  induction h with
  | nil => simp
  | cons hr _ ih =>
    intro r hmem
    rcases List.mem_cons.mp hmem with rfl | hmem
    · exact hr
    · exact ih r hmem

theorem Records.eq_nil {rs : List (Bytes × Transaction)} (h : Records env [] rs) : rs = [] := by
  generalize hd : ([] : Bytes) = data at h
  cases h with
  | nil => rfl
  | cons hr _ =>
    have := hr.length_pos
    rw [List.nil_eq_append_iff] at hd
    simp [hd.1] at this

/-- Data is a sequence of records in one way. -/
theorem Records.unique {rs rs' : List (Bytes × Transaction)} (h : Records env data rs)
    (h' : Records env data rs') : rs = rs' := by
  induction h generalizing rs' with
  | nil => exact h'.eq_nil.symm
  | @cons packed data tx rs hr hrest ih =>
    generalize hd : packed ++ data = whole at h'
    cases h' with
    | nil =>
      have := hr.length_pos
      rw [List.append_eq_nil_iff] at hd
      simp [hd.1] at this
    | @cons packed' data' tx' rs' hr' hrest' =>
      have hu := hr.unpack_append data
      rw [hd, hr'.unpack_append data'] at hu
      obtain ⟨rfl, hlen⟩ := Prod.mk.inj (Except.ok.inj hu)
      obtain ⟨rfl, rfl⟩ := List.append_inj hd hlen.symm
      rw [ih hrest']

end Data

/-! ## Validation -/

/-- Validation accepted the record as this transaction. -/
structure ValidItem (env : Env) (v : View) (suppress : Bool) (localAssets : List AssetIdentifier)
    (item : Txn) : Prop where
  isRecord : IsRecord env item.packed item.unpacked
  txId_eq : item.txId = env.newDigest item.packed
  valid : validateTransaction env v suppress localAssets item.txId item.unpacked =
    .ok (item.linkOwner, item.blockNumberKey)

/-- The packed record and the transaction of an item. -/
def Txn.record (item : Txn) : Bytes × Transaction := (item.packed, item.unpacked)

section Validation

variable {env : Env} {v : View} {suppress : Bool} {localAssets : List AssetIdentifier}

/-- **Validation** reads a block as its records, each of them valid. -/
theorem validateTransactions_eq_ok {count : Nat} {data : Bytes} {txs : List Txn}
    (h : validateTransactions env v suppress count data localAssets = .ok txs) :
    txs.length = count ∧ (count ≠ 0 → Records env data (txs.map Txn.record)) ∧
      ∀ item ∈ txs, ∃ la, ValidItem env v suppress la item := by
  induction count generalizing data localAssets txs with
  | zero =>
    cases h
    simp
  | succ count ih =>
    obtain ⟨⟨tx, n⟩, hunpack, h⟩ := bind_eq_ok.mp h
    obtain ⟨⟨linkOwner, key⟩, hvalid, h⟩ := bind_eq_ok.mp h
    obtain ⟨⟨⟩, hlast, h⟩ := bind_eq_ok.mp h
    obtain ⟨rest, hrest, h⟩ := bind_eq_ok.mp h
    cases h
    obtain ⟨hlen, hrecords, hitems⟩ := ih hrest
    have hr := isRecord_of_unpack hunpack
    refine ⟨by simp [hlen], fun _ => ?_, ?_⟩
    · have hdata : Records env (data.drop n) (rest.map Txn.record) := by
        rcases Nat.eq_zero_or_pos count with rfl | hpos
        · -- the last record: the data after it is empty
          have hnil : data.drop n = [] := by simpa using hlast
          rw [hnil, List.length_eq_zero_iff.mp hlen]
          exact .nil
        · exact hrecords hpos.ne'
      have hall := Records.cons hr hdata
      rwa [List.take_append_drop] at hall
    · intro item hmem
      rcases List.mem_cons.mp hmem with rfl | hmem
      · exact ⟨_, hr, rfl, hvalid⟩
      · exact hitems item hmem

/-- A block is validated when its records are valid, their ids have the merkle root of the header,
and the first of them are a foundation. -/
theorem validateBlock_eq_ok {node : Node} {header : Header} {data : Bytes} {txs : List Txn}
    {foundation : Foundation} (h : validateBlock env node header data = .ok (txs, foundation)) :
    Records env data (txs.map Txn.record) ∧
      (∀ item ∈ txs, ∃ la, ValidItem env node.access.view (header.version = 1) la item) ∧
      extractFoundation env txs = .ok foundation ∧ foundation.txStart ≤ txs.length := by
  obtain ⟨txs', htxs, h⟩ := bind_eq_ok.mp h
  obtain ⟨⟨⟩, -, h⟩ := bind_eq_ok.mp h
  obtain ⟨foundation', hfoundation, h⟩ := bind_eq_ok.mp h
  obtain ⟨⟨⟩, hstart, h⟩ := bind_eq_ok.mp h
  cases h
  obtain ⟨hlen, hrecords, hitems⟩ := validateTransactions_eq_ok htxs
  refine ⟨hrecords ?_, hitems, hfoundation, by simpa using hstart⟩
  intro hzero
  rw [hzero, List.length_eq_zero_iff] at hlen
  subst hlen
  simp [extractFoundation] at hfoundation

/-! ### What each kind of validation checks -/

theorem validateBitmarkTransfer_eq_ok {link : Digest} {pack : Option Account → Except Stop Bytes}
    {o : Account} : validateBitmarkTransfer env v link pack = .ok o ↔
      (∃ bn, ownerOf env v link = .ok (some (bn, o))) ∧ (∃ packed, pack (some o) = .ok packed) ∧
      currentlyOwns v o link = true ∧
      ∃ d, getOwnerData v link = .ok d ∧ ∀ assetId, d.item ≠ .share assetId := by
  unfold validateBitmarkTransfer
  rw [bind_eq_ok]
  constructor
  · rintro ⟨found, hfound, h⟩
    cases found with
    | none => simp at h
    | some found =>
      obtain ⟨bn, owner⟩ := found
      obtain ⟨packed, hpack, h⟩ := bind_eq_ok.mp h
      obtain ⟨⟨⟩, howns, h⟩ := bind_eq_ok.mp h
      have howns : currentlyOwns v owner link = true := by simpa using howns
      split at h
      · simp at h
      next d hd =>
        have hok : owner = o ∧ ∀ assetId, d.item ≠ .share assetId := by
          split at h
          · simp at h
          next hi => exact ⟨Except.ok.inj h, by simp [hi]⟩
          next hi => exact ⟨Except.ok.inj h, by simp [hi]⟩
        obtain ⟨rfl, hitem⟩ := hok
        exact ⟨⟨bn, hfound⟩, ⟨packed, hpack⟩, howns, d, hd, hitem⟩
  · rintro ⟨⟨bn, hfound⟩, ⟨packed, hpack⟩, howns, d, hd, hitem⟩
    refine ⟨_, hfound, bind_eq_ok.mpr ⟨packed, hpack, bind_eq_ok.mpr ⟨(), ?_, ?_⟩⟩⟩
    · simp [howns]
    · simp only [hd]
      cases hi : d.item with
      | share assetId => exact absurd hi (hitem assetId)
      | asset assetId => rfl
      | block => rfl

theorem validateBlockOwnerTransfer_eq_ok {tx : BlockOwnerTransfer} {o : Account} {key : Bytes} :
    validateBlockOwnerTransfer env v tx = .ok (o, key) ↔
      (∃ bn, ownerOf env v tx.link = .ok (some (bn, o))) ∧
      (∃ packed, tx.pack env (some o) = .ok packed) ∧ currentlyOwns v o tx.link = true ∧
      v.get .blockOwnerTxIndex tx.link.bytes = some key ∧
      checkPayments env tx.version env.isTesting tx.payments = .ok () := by
  unfold validateBlockOwnerTransfer
  rw [bind_eq_ok]
  constructor
  · rintro ⟨found, hfound, h⟩
    obtain ⟨packed, hpack, h⟩ := bind_eq_ok.mp h
    cases found with
    | none => simp at h
    | some found =>
      obtain ⟨bn, owner⟩ := found
      obtain ⟨⟨⟩, howns, h⟩ := bind_eq_ok.mp h
      have howns : currentlyOwns v owner tx.link = true := by simpa using howns
      split at h
      · simp at h
      next thisBN hkey =>
        obtain ⟨⟨⟩, hpay, h⟩ := bind_eq_ok.mp h
        obtain ⟨rfl, rfl⟩ := Prod.mk.inj (Except.ok.inj h)
        exact ⟨⟨bn, hfound⟩, ⟨packed, hpack⟩, howns, hkey, hpay⟩
  · rintro ⟨⟨bn, hfound⟩, ⟨packed, hpack⟩, howns, hkey, hpay⟩
    refine ⟨_, hfound, bind_eq_ok.mpr ⟨packed, hpack, bind_eq_ok.mpr ⟨(), by simp [howns], ?_⟩⟩⟩
    simp only [hkey]
    exact bind_eq_ok.mpr ⟨(), hpay, rfl⟩

theorem validateBitmarkShare_eq_ok {tx : BitmarkShare} {o : Account} :
    validateBitmarkShare env v tx = .ok o ↔
      (∃ bn, ownerOf env v tx.link = .ok (some (bn, o))) ∧
      (∃ packed, tx.pack env (some o) = .ok packed) ∧
      ∃ d assetId, getOwnerData v tx.link = .ok d ∧ d.item = .asset assetId := by
  unfold validateBitmarkShare
  rw [bind_eq_ok]
  constructor
  · rintro ⟨found, hfound, h⟩
    cases found with
    | none => simp at h
    | some found =>
      obtain ⟨bn, owner⟩ := found
      obtain ⟨packed, hpack, h⟩ := bind_eq_ok.mp h
      split at h
      · simp at h
      next d hd =>
        split at h
        next assetId hi =>
          cases h
          exact ⟨⟨bn, hfound⟩, ⟨packed, hpack⟩, d, assetId, hd, hi⟩
        all_goals simp at h
  · rintro ⟨⟨bn, hfound⟩, ⟨packed, hpack⟩, d, assetId, hd, hi⟩
    refine ⟨_, hfound, bind_eq_ok.mpr ⟨packed, hpack, ?_⟩⟩
    simp only [hd, hi]
    rfl

/-- Every kind of validation packs the record, so its last signature is a real one. -/
theorem lastSignature_of_validateTransaction {txId : Digest} {tx : Transaction}
    {r : Option Account × Bytes}
    (h : validateTransaction env v suppress localAssets txId tx = .ok r) :
    tx.lastSignature.length = 64 := by
  cases tx with
  | oldBaseData tx =>
    obtain ⟨packed, hpack, -⟩ := bind_eq_ok.mp h
    exact OldBaseData.signature_of_pack hpack
  | assetData tx =>
    obtain ⟨packed, hpack, -⟩ := bind_eq_ok.mp h
    exact AssetData.signature_of_pack hpack
  | bitmarkIssue tx =>
    obtain ⟨packed, hpack, -⟩ := bind_eq_ok.mp h
    exact BitmarkIssue.signature_of_pack hpack
  | bitmarkTransferUnratified tx =>
    obtain ⟨o, hvalid, -⟩ := bind_eq_ok.mp h
    obtain ⟨-, ⟨packed, hpack⟩, -⟩ := validateBitmarkTransfer_eq_ok.mp hvalid
    exact BitmarkTransferUnratified.signature_of_pack hpack
  | bitmarkTransferCountersigned tx =>
    obtain ⟨o, hvalid, -⟩ := bind_eq_ok.mp h
    obtain ⟨-, ⟨packed, hpack⟩, -⟩ := validateBitmarkTransfer_eq_ok.mp hvalid
    exact BitmarkTransferCountersigned.signature_of_pack hpack
  | blockFoundation tx =>
    obtain ⟨packed, hpack, -⟩ := bind_eq_ok.mp h
    exact BlockFoundation.signature_of_pack hpack
  | blockOwnerTransfer tx =>
    obtain ⟨⟨o, key⟩, hvalid, -⟩ := bind_eq_ok.mp h
    obtain ⟨-, ⟨packed, hpack⟩, -⟩ := validateBlockOwnerTransfer_eq_ok.mp hvalid
    exact BlockOwnerTransfer.signature_of_pack hpack
  | bitmarkShare tx =>
    obtain ⟨o, hvalid, -⟩ := bind_eq_ok.mp h
    obtain ⟨-, ⟨packed, hpack⟩, -⟩ := validateBitmarkShare_eq_ok.mp hvalid
    exact BitmarkShare.signature_of_pack hpack
  | shareGrant tx =>
    obtain ⟨packed, hpack, -⟩ := bind_eq_ok.mp h
    exact ShareGrant.signature_of_pack hpack
  | shareSwap tx =>
    obtain ⟨packed, hpack, -⟩ := bind_eq_ok.mp h
    exact ShareSwap.signature_of_pack hpack

/-- A valid record is longer than a foundation's hash input. -/
theorem ValidItem.length_le {item : Txn} (h : ValidItem env v suppress localAssets item) :
    64 ≤ item.packed.length := by
  rw [← lastSignature_of_validateTransaction h.valid]
  exact lastSignature_length_le h.isRecord

end Validation

end Bitmarkd
