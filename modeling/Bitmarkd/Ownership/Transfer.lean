import Bitmarkd.Ownership.Data
import Bitmarkd.TransactionRecord.Unpack

/-!
# Ownership transfer

`ownership/transfer.go`. A head is moved from one tx id to another: the owner's list entry, the
index entry and the owner data of the old tx id are deleted, and new ones are created. All reads go
through the transaction, so after a deletion in the same transaction they are stale.
-/

namespace Bitmarkd

open Lib

/-- The key `owner ⧺ txId` of pools `OwnerTxIndex` and `ShareQuantity`. -/
def ownerKey (owner : Account) (txId : Digest) : Bytes := owner.bytes ++ txId.bytes

@[simp] theorem ownerKey_inj {o o' : Account} {t t' : Digest} :
    ownerKey o t = ownerKey o' t' ↔ o = o' ∧ t = t' := by
  rw [ownerKey, ownerKey, FixedBytes.append_inj, Account.bytes_inj]

/-- `create`: add the tx id to the owner's list and store the owner data. -/
def create (a : Access) (txId : Digest) (ownerData : OwnerData) (owner : Account) :
    Except Stop Access :=
  let nKey := owner.bytes
  let count := (a.view.get .ownerNextCount nKey).getD (be64 0)
  if count.length ≠ 8 then panicAt .ownerNextCountCorrupt
  else
    let a := a.poolPut .ownerNextCount nKey (be64 (ofBE64 count + 1))
    let a := a.poolPut .ownerList (owner.bytes ++ count) txId.bytes
    let a := a.poolPut .ownerTxIndex (ownerKey owner txId) count
    .ok (a.poolPut .ownerData txId.bytes ownerData.pack)

/-- The deletions at the start of `transfer`. -/
def deleteOwner (a : Access) (currentOwner : Account) (previousTxId : Digest) (dCount : Bytes) :
    Access :=
  let a := a.poolRemove .ownerList (currentOwner.bytes ++ dCount)
  let a := a.poolRemove .ownerTxIndex (ownerKey currentOwner previousTxId)
  a.poolRemove .ownerData previousTxId.bytes

/-- The share records that `transfer` writes for a new share: the total quantity, all of which goes
to the creator. -/
def createShare (a : Access) (shareId transferTxId : Digest) (currentOwner : Account)
    (quantity : UInt64) : Access :=
  let a := a.poolPut .shares shareId.bytes (be64 quantity ++ transferTxId.bytes)
  a.poolPut .shareQuantity (ownerKey currentOwner shareId) (be64 quantity)

/-- `transfer`. -/
def transfer (a : Access) (previousTxId transferTxId : Digest) (transferBlockNumber : UInt64)
    (currentOwner : Account) (newOwner : Option Account) (quantity : UInt64) :
    Except Stop Access :=
  match a.view.get .ownerTxIndex (ownerKey currentOwner previousTxId) with
  | none => panicAt .ownerTxIndexCorrupt
  | some dCount =>
    match getOwnerData a.view previousTxId with
    | .error _ => panicAt .ownershipCorrupt
    | .ok ownerData =>
      let a := deleteOwner a currentOwner previousTxId dCount
      if quantity = 0 then
        match newOwner with
        | none => .ok a
        | some newOwner =>
          match ownerData.item with
          | .asset _ | .block =>
            create a transferTxId { ownerData with transferBlockNumber } newOwner
          | .share assetId =>
            -- only on delete: a share goes back to an asset of the same owner
            create a transferTxId { ownerData with transferBlockNumber, item := .asset assetId }
              currentOwner
      else
        match ownerData.item with
        | .asset assetId =>
          -- the id of the share is the issue id of the bitmark
          let a := createShare a ownerData.issueTxId transferTxId currentOwner quantity
          create a transferTxId { ownerData with transferBlockNumber, item := .share assetId }
            currentOwner
        | .block | .share _ => panicAt .ownershipCorrupt

/-- `Transfer`. -/
def transferOwnership (a : Access) (previousTxId transferTxId : Digest)
    (transferBlockNumber : UInt64) (currentOwner : Account) (newOwner : Option Account) :
    Except Stop Access :=
  transfer a previousTxId transferTxId transferBlockNumber currentOwner newOwner 0

/-- `Share`. -/
def share (a : Access) (previousTxId transferTxId : Digest) (transferBlockNumber : UInt64)
    (currentOwner : Account) (balance : UInt64) : Except Stop Access :=
  transfer a previousTxId transferTxId transferBlockNumber currentOwner none balance

/-- `CreateAsset`. -/
def createAsset (a : Access) (issueTxId : Digest) (issueBlockNumber : UInt64)
    (assetId : AssetIdentifier) (newOwner : Account) : Except Stop Access :=
  create a issueTxId ⟨issueBlockNumber, issueTxId, issueBlockNumber, .asset assetId⟩ newOwner

/-- `CreateBlock`. -/
def createBlock (a : Access) (issueTxId : Digest) (blockNumber : UInt64) (newOwner : Account) :
    Except Stop Access :=
  create a issueTxId ⟨blockNumber, issueTxId, blockNumber, .block⟩ newOwner

/-- The owner that `OwnerOf` takes from a record, if it is of a type that has one. -/
def Transaction.owner? : Transaction → Option Account
  | .bitmarkIssue tx => some tx.owner
  | .bitmarkTransferUnratified tx => some tx.owner
  | .bitmarkTransferCountersigned tx => some tx.owner
  | .blockFoundation tx => some tx.owner
  | .blockOwnerTransfer tx => some tx.owner
  | .oldBaseData _ | .assetData _ | .bitmarkShare _ | .shareGrant _ | .shareSwap _ => none

/-- `OwnerOf`: the block number and the owner of a stored record, `none` if there is no record. -/
def ownerOf (env : Env) (v : View) (txId : Digest) : Except Stop (Option (UInt64 × Account)) := do
  match ← v.getNB .transactions txId.bytes with
  | none => return none
  | some (blockNumber, packed) =>
    match unpack env packed env.isTesting with
    | .error _ => panicAt .ownerOfUnpack
    | .ok (transaction, _) =>
      match transaction.owner? with
      | some owner => return some (blockNumber, owner)
      | none => panicAt .ownerOfIncorrectTransaction

/-- `CurrentlyOwns`. -/
def currentlyOwns (v : View) (owner : Account) (txId : Digest) : Bool :=
  v.has .ownerTxIndex (ownerKey owner txId)

/-! ## What the functions do -/

section Spec

variable {a a' : Access} {t u : Digest} {d : OwnerData} {o : Account}

/-- `create` succeeds with the four writes. -/
theorem create_eq_ok (h : create a t d o = .ok a') : ∃ count,
    count = (a.view.get .ownerNextCount o.bytes).getD (be64 0) ∧ count.length = 8 ∧
    a' = (((a.poolPut .ownerNextCount o.bytes (be64 (ofBE64 count + 1))).poolPut
      .ownerList (o.bytes ++ count) t.bytes).poolPut .ownerTxIndex (ownerKey o t) count).poolPut
      .ownerData t.bytes d.pack := by
  unfold create at h
  dsimp only at h
  split at h
  · simp at h
  next hlen =>
    cases h
    exact ⟨_, rfl, by simpa using hlen, rfl⟩

/-- `transfer` succeeds after finding the index entry and the owner data of the old tx id. -/
theorem transfer_eq_ok {bn q : UInt64} {new : Option Account}
    (h : transfer a u t bn o new q = .ok a') :
    ∃ dCount d, a.view.get .ownerTxIndex (ownerKey o u) = some dCount ∧
      getOwnerData a.view u = .ok d ∧
      ((q = 0 ∧ new = none ∧ a' = deleteOwner a o u dCount) ∨
        (q = 0 ∧ ∃ o' item, new.isSome ∧
          ((item = d.item ∧ new = some o' ∧ ∀ s, d.item ≠ .share s) ∨
            (∃ s, d.item = .share s ∧ item = .asset s ∧ o' = o)) ∧
          create (deleteOwner a o u dCount) t ⟨bn, d.issueTxId, d.issueBlockNumber, item⟩ o' =
            .ok a') ∨
        (q ≠ 0 ∧ ∃ s, d.item = .asset s ∧
          create (createShare (deleteOwner a o u dCount) d.issueTxId t o q) t
            ⟨bn, d.issueTxId, d.issueBlockNumber, .share s⟩ o = .ok a')) := by
  unfold transfer at h
  split at h
  · simp at h
  next dCount hidx =>
    split at h
    · simp at h
    next d hd =>
      refine ⟨dCount, d, hidx, hd, ?_⟩
      dsimp only at h
      split at h
      next hq =>
        split at h
        · cases h
          exact Or.inl ⟨hq, rfl, rfl⟩
        next o' =>
          refine Or.inr (Or.inl ⟨hq, ?_⟩)
          split at h
          next s hi => exact ⟨o', d.item, rfl, Or.inl ⟨rfl, rfl, by simp [hi]⟩, h⟩
          next hi => exact ⟨o', d.item, rfl, Or.inl ⟨rfl, rfl, by simp [hi]⟩, h⟩
          next s hi => exact ⟨o, .asset s, rfl, Or.inr ⟨s, hi, rfl, rfl⟩, h⟩
      next hq =>
        split at h
        next s hi => exact Or.inr (Or.inr ⟨hq, s, hi, h⟩)
        · simp at h
        · simp at h

/-- `create` panics only on a bad counter. -/
theorem create_total (h : ∀ c, a.view.get .ownerNextCount o.bytes = some c → c.length = 8) :
    ∃ a', create a t d o = .ok a' := by
  unfold create
  have hlen : ((a.view.get .ownerNextCount o.bytes).getD (be64 0)).length = 8 := by
    cases hc : a.view.get .ownerNextCount o.bytes with
    | none => simp
    | some c => simpa using h c hc
  simp [hlen]

end Spec

end Bitmarkd
