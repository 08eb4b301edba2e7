import Bitmarkd.Node

/-!
# One record at a time

What storing one record, and undoing one, does to the database: one case for each branch of the
code that succeeds (`Applied`, `Unapplied`). The two kinds of bitmark transfer are one case.
-/

namespace Bitmarkd

open Lib

/-- The link and the new owner of a bitmark transfer. -/
def Transaction.transfer? : Transaction → Option (Digest × Account)
  | .bitmarkTransferUnratified tx => some (tx.link, tx.owner)
  | .bitmarkTransferCountersigned tx => some (tx.link, tx.owner)
  | _ => none

/-- Put the record of a transaction in pool `Transactions`. -/
def Access.storeRecord (a : Access) (number : UInt64) (item : Txn) : Access :=
  a.poolPutNB .transactions item.txId.bytes number item.packed

/-! ## Storing -/

/-- The database after storing one record of block `number`. -/
inductive Applied (env : Env) (number : UInt64) (a : Access) (item : Txn) : Access → Prop
  | assetKnown {tx : AssetData} : item.unpacked = .assetData tx →
      a.view.has .assets (tx.assetId env).bytes = true → Applied env number a item a
  | asset {tx : AssetData} : item.unpacked = .assetData tx →
      a.view.has .assets (tx.assetId env).bytes = false →
      Applied env number a item
        (a.poolPutNB .assets (tx.assetId env).bytes number item.packed)
  | issueKnown {tx : BitmarkIssue} : item.unpacked = .bitmarkIssue tx →
      a.view.has .transactions item.txId.bytes = true → Applied env number a item a
  | issue {tx : BitmarkIssue} {a' : Access} : item.unpacked = .bitmarkIssue tx →
      a.view.has .transactions item.txId.bytes = false →
      createAsset (a.storeRecord number item) item.txId number tx.assetId tx.owner = .ok a' →
      Applied env number a item a'
  | transfer {link : Digest} {owner linkOwner : Account} {a' : Access} :
      item.unpacked.transfer? = some (link, owner) → item.linkOwner = some linkOwner →
      transferOwnership (a.storeRecord number item) link item.txId number linkOwner (some owner) =
        .ok a' → Applied env number a item a'
  | blockOwner {tx : BlockOwnerTransfer} {linkOwner : Account} {pkPayments : Bytes} {a' : Access} :
      item.unpacked = .blockOwnerTransfer tx → item.linkOwner = some linkOwner →
      tx.payments.pack env env.isTesting = .ok pkPayments →
      transferOwnership ((((a.storeRecord number item).poolPut .blockOwnerPayment
        item.blockNumberKey pkPayments).poolPut .blockOwnerTxIndex item.txId.bytes
        item.blockNumberKey).poolRemove .blockOwnerTxIndex tx.link.bytes) tx.link item.txId number
        linkOwner (some tx.owner) = .ok a' → Applied env number a item a'
  | share {tx : BitmarkShare} {linkOwner : Account} {a' : Access} :
      item.unpacked = .bitmarkShare tx → item.linkOwner = some linkOwner →
      share (a.storeRecord number item) tx.link item.txId number linkOwner tx.quantity = .ok a' →
      Applied env number a item a'
  | grant {tx : ShareGrant} {a' : Access} : item.unpacked = .shareGrant tx →
      updateShareGrant a tx = .ok a' → Applied env number a item (a'.storeRecord number item)
  | swap {tx : ShareSwap} {a' : Access} : item.unpacked = .shareSwap tx →
      updateShareSwap a tx = .ok a' → Applied env number a item (a'.storeRecord number item)

theorem requireLinkOwner_eq_ok {item : Txn} {linkOwner : Account} :
    item.requireLinkOwner = .ok linkOwner ↔ item.linkOwner = some linkOwner := by
  unfold Txn.requireLinkOwner
  split <;> simp_all

/-- `updateTransaction` succeeds in one of these ways. -/
theorem applied_of_updateTransaction {env : Env} {number : UInt64} {a a' : Access} {item : Txn}
    (h : updateTransaction env number a item = .ok a') : Applied env number a item a' := by
  unfold updateTransaction at h
  dsimp only at h
  split at h <;> rename_i hitem
  · simp at h
  · simp at h
  · split at h <;> rename_i hhas <;> cases h
    · exact .assetKnown hitem hhas
    · exact .asset hitem (by simpa using hhas)
  · split at h <;> rename_i hhas
    · cases h
      exact .issueKnown hitem hhas
    · exact .issue hitem (by simpa using hhas) h
  · obtain ⟨linkOwner, hlink, h⟩ := bind_eq_ok.mp h
    exact .transfer (by rw [hitem]; rfl) (requireLinkOwner_eq_ok.mp hlink) h
  · obtain ⟨linkOwner, hlink, h⟩ := bind_eq_ok.mp h
    exact .transfer (by rw [hitem]; rfl) (requireLinkOwner_eq_ok.mp hlink) h
  · split at h <;> rename_i hpack
    · simp at h
    · obtain ⟨linkOwner, hlink, h⟩ := bind_eq_ok.mp h
      exact .blockOwner hitem (requireLinkOwner_eq_ok.mp hlink) hpack h
  · obtain ⟨linkOwner, hlink, h⟩ := bind_eq_ok.mp h
    exact .share hitem (requireLinkOwner_eq_ok.mp hlink) h
  · obtain ⟨a₁, hupdate, h⟩ := bind_eq_ok.mp h
    cases h
    exact .grant hitem hupdate
  · obtain ⟨a₁, hupdate, h⟩ := bind_eq_ok.mp h
    cases h
    exact .swap hitem hupdate

section Inversion

variable {env : Env} {number : UInt64} {a a' : Access} {item : Txn}

theorem Applied.of_share (h : Applied env number a item a') {tx : BitmarkShare}
    (htx : item.unpacked = .bitmarkShare tx) : ∃ linkOwner, item.linkOwner = some linkOwner ∧
      Bitmarkd.share (a.storeRecord number item) tx.link item.txId number linkOwner tx.quantity =
        .ok a' := by
  cases h with
  | share htx' howner hshare =>
    rw [htx] at htx'
    cases htx'
    exact ⟨_, howner, hshare⟩
  | assetKnown htx' | asset htx' | issueKnown htx' | issue htx' | transfer htx' | blockOwner htx'
  | grant htx' | swap htx' =>
    rw [htx] at htx'
    cases htx'

theorem Applied.of_grant (h : Applied env number a item a') {tx : ShareGrant}
    (htx : item.unpacked = .shareGrant tx) :
    ∃ a₁, updateShareGrant a tx = .ok a₁ ∧ a' = a₁.storeRecord number item := by
  cases h with
  | grant htx' hupdate =>
    rw [htx] at htx'
    cases htx'
    exact ⟨_, hupdate, rfl⟩
  | assetKnown htx' | asset htx' | issueKnown htx' | issue htx' | transfer htx' | blockOwner htx'
  | share htx' | swap htx' =>
    rw [htx] at htx'
    cases htx'

theorem Applied.of_swap (h : Applied env number a item a') {tx : ShareSwap}
    (htx : item.unpacked = .shareSwap tx) :
    ∃ a₁, updateShareSwap a tx = .ok a₁ ∧ a' = a₁.storeRecord number item := by
  cases h with
  | swap htx' hupdate =>
    rw [htx] at htx'
    cases htx'
    exact ⟨_, hupdate, rfl⟩
  | assetKnown htx' | asset htx' | issueKnown htx' | issue htx' | transfer htx' | blockOwner htx'
  | share htx' | grant htx' =>
    rw [htx] at htx'
    cases htx'

end Inversion

/-- The update loop, record by record. -/
inductive AppliedAll (env : Env) (number : UInt64) : Access → List Txn → Access → Prop
  | nil (a : Access) : AppliedAll env number a [] a
  | cons {a a₁ a' : Access} {item : Txn} {rest : List Txn} : Applied env number a item a₁ →
      AppliedAll env number a₁ rest a' → AppliedAll env number a (item :: rest) a'

theorem appliedAll_of_updateTransactions {env : Env} {number : UInt64} {a a' : Access}
    {items : List Txn} (h : updateTransactions env number a items = .ok a') :
    AppliedAll env number a items a' := by
  induction items generalizing a with
  | nil =>
    cases h
    exact .nil _
  | cons item rest ih =>
    obtain ⟨a₁, hupdate, h⟩ := bind_eq_ok.mp h
    exact .cons (applied_of_updateTransaction hupdate) (ih h)

/-! ## Undoing -/

/-- The database after undoing one record. -/
inductive Unapplied (env : Env) (a : Access) (txId : Digest) (tx : Transaction) : Access → Prop
  | foundation {owner : Account} : tx.blockOwner? = some owner → Unapplied env a txId tx a
  | asset {r : AssetData} : tx = .assetData r →
      Unapplied env a txId tx (a.poolRemove .assets (r.assetId env).bytes)
  | issueUnknown {r : BitmarkIssue} : tx = .bitmarkIssue r →
      a.view.has .transactions txId.bytes = false → Unapplied env a txId tx a
  | issue {r : BitmarkIssue} {a' : Access} : tx = .bitmarkIssue r →
      a.view.has .transactions txId.bytes = true →
      transferOwnership (a.poolRemove .transactions txId.bytes) txId txId 0 r.owner none = .ok a' →
      Unapplied env a txId tx a'
  | transfer {link : Digest} {owner linkOwner : Account} {number : UInt64} {a' : Access} :
      tx.transfer? = some (link, owner) →
      ownerOf env (a.poolRemove .transactions txId.bytes).view link
        = .ok (some (number, linkOwner)) →
      transferOwnership (a.poolRemove .transactions txId.bytes) txId link number owner
        (some linkOwner) = .ok a' → Unapplied env a txId tx a'
  | blockOwner {r : BlockOwnerTransfer} {linkOwner : Account} {number : UInt64} {d : OwnerData}
      {packedPayments : Bytes} {a' : Access} : tx = .blockOwnerTransfer r →
      ownerOf env (a.poolRemove .transactions txId.bytes).view r.link =
        .ok (some (number, linkOwner)) →
      getOwnerData (a.poolRemove .transactions txId.bytes).view txId = .ok d → d.item = .block →
      transferOwnership (a.poolRemove .transactions txId.bytes) txId r.link number r.owner
        (some linkOwner) = .ok a' →
      previousPayments env a' r.link = .ok packedPayments →
      Unapplied env a txId tx (((a'.poolPut .blockOwnerPayment (be64 d.issueBlockNumber)
        packedPayments).poolPut .blockOwnerTxIndex r.link.bytes
        (be64 d.issueBlockNumber)).poolRemove .blockOwnerTxIndex txId.bytes)
  | share {r : BitmarkShare} {linkOwner : Account} {number : UInt64} {d : OwnerData}
      {assetId : AssetIdentifier} {a' : Access} : tx = .bitmarkShare r →
      ownerOf env a.view r.link = .ok (some (number, linkOwner)) →
      getOwnerData a.view txId = .ok d → d.item = .share assetId →
      transferOwnership (((a.poolRemove .transactions txId.bytes).poolRemove .shares
        d.issueTxId.bytes).poolRemove .shareQuantity (ownerKey linkOwner d.issueTxId)) txId r.link
        number linkOwner (some linkOwner) = .ok a' → Unapplied env a txId tx a'
  | grant {r : ShareGrant} {a' : Access} : tx = .shareGrant r →
      undoShareGrant a txId r = .ok a' → Unapplied env a txId tx a'
  | swap {r : ShareSwap} {a' : Access} : tx = .shareSwap r →
      undoShareSwap a txId r = .ok a' → Unapplied env a txId tx a'

theorem requireOwnerOf_eq_ok {env : Env} {a : Access} {link : Digest} {r : UInt64 × Account} :
    requireOwnerOf env a link = .ok r ↔ ownerOf env a.view link = .ok (some r) := by
  unfold requireOwnerOf
  rw [bind_eq_ok]
  constructor
  · rintro ⟨found, hfound, h⟩
    cases found with
    | none => simp at h
    | some found =>
      cases h
      exact hfound
  · exact fun h => ⟨_, h, rfl⟩

theorem unapplied_of_undoBitmarkTransfer {env : Env} {a a' : Access} {txId link : Digest}
    {owner : Account} {tx : Transaction} (htx : tx.transfer? = some (link, owner))
    (h : undoBitmarkTransfer env a txId link owner = .ok a') : Unapplied env a txId tx a' := by
  obtain ⟨⟨number, linkOwner⟩, hfound, h⟩ := bind_eq_ok.mp h
  exact .transfer htx (requireOwnerOf_eq_ok.mp hfound) h

/-- `undoTransaction` succeeds in one of these ways. -/
theorem unapplied_of_undoTransaction {env : Env} {a a' : Access} {txId : Digest}
    {tx : Transaction} (h : undoTransaction env a txId tx = .ok a') :
    Unapplied env a txId tx a' := by
  cases tx with
  | oldBaseData tx =>
    cases h
    exact .foundation rfl
  | blockFoundation tx =>
    cases h
    exact .foundation rfl
  | assetData tx =>
    cases h
    exact .asset rfl
  | bitmarkIssue tx =>
    simp only [undoTransaction] at h
    split at h <;> rename_i hhas
    · exact .issue rfl hhas h
    · cases h
      exact .issueUnknown rfl (by simpa using hhas)
  | bitmarkTransferUnratified tx => exact unapplied_of_undoBitmarkTransfer rfl h
  | bitmarkTransferCountersigned tx => exact unapplied_of_undoBitmarkTransfer rfl h
  | blockOwnerTransfer tx =>
    obtain ⟨⟨number, linkOwner⟩, hfound, h⟩ := bind_eq_ok.mp h
    dsimp only at h
    split at h
    · simp at h
    next d hd =>
      split at h
      · simp at h
      · simp at h
      next hi =>
        obtain ⟨a₁, htransfer, h⟩ := bind_eq_ok.mp h
        obtain ⟨packedPayments, hpay, h⟩ := bind_eq_ok.mp h
        cases h
        exact .blockOwner rfl (requireOwnerOf_eq_ok.mp hfound) hd hi htransfer hpay
  | bitmarkShare tx =>
    obtain ⟨⟨number, linkOwner⟩, hfound, h⟩ := bind_eq_ok.mp h
    dsimp only at h
    split at h
    · simp at h
    next d hd =>
      split at h
      · simp at h
      · simp at h
      next assetId hi => exact .share rfl (requireOwnerOf_eq_ok.mp hfound) hd hi h
  | shareGrant tx => exact .grant rfl h
  | shareSwap tx => exact .swap rfl h

end Bitmarkd
