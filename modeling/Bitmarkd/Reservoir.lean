import Bitmarkd.Ownership.Transfer

/-!
# Checks of the reservoir

`reservoir/transfer.go`, `reservoir/sharegrant.go` and `reservoir/shareswap.go`: the balance checks,
which block storage uses as well, and the verification that a record goes through before it is
pooled. The verification is modelled for a reservoir that holds no transaction, so its pending and
verified indexes are empty; what is returned is the tx id that the record would be pooled under.
-/

namespace Bitmarkd

open Lib

/-- A balance check: the owner has at least `quantity` of a share. -/
def checkBalance (v : View) (owner : Account) (shareId : Digest) (quantity : UInt64) :
    Except Stop UInt64 := do
  match ← v.getN .shareQuantity (ownerKey owner shareId) with
  | none => fault .insufficientShares
  | some balance => if balance < quantity then fault .insufficientShares else return balance

/-- `CheckGrantBalance`. -/
def checkGrantBalance (v : View) (grant : ShareGrant) : Except Stop UInt64 :=
  if grant.quantity = 0 then fault .shareQuantityTooSmall
  else checkBalance v grant.owner.account grant.shareId grant.quantity

/-- `CheckSwapBalances`. -/
def checkSwapBalances (v : View) (swap : ShareSwap) : Except Stop (UInt64 × UInt64) :=
  if swap.quantityOne = 0 ∨ swap.quantityTwo = 0 then fault .shareQuantityTooSmall
  else do
    let balanceOne ← checkBalance v swap.ownerOne.account swap.shareIdOne swap.quantityOne
    let balanceTwo ← checkBalance v swap.ownerTwo.account swap.shareIdTwo swap.quantityTwo
    return (balanceOne, balanceTwo)

/-- The records that spend a link: the interface `transactionrecord.BitmarkTransfer`. -/
inductive BitmarkTransfer
  | unratified (tx : BitmarkTransferUnratified)
  | countersigned (tx : BitmarkTransferCountersigned)
  | blockOwner (tx : BlockOwnerTransfer)
  | share (tx : BitmarkShare)
deriving DecidableEq

namespace BitmarkTransfer

/-- `GetLink`. -/
def getLink : BitmarkTransfer → Digest
  | .unratified tx => tx.link
  | .countersigned tx => tx.link
  | .blockOwner tx => tx.link
  | .share tx => tx.link

/-- `Pack`. -/
def pack (env : Env) (address : Option Account) : BitmarkTransfer → Except Stop Bytes
  | .unratified tx => tx.pack env address
  | .countersigned tx => tx.pack env address
  | .blockOwner tx => tx.pack env address
  | .share tx => tx.pack env address

/-- The record of a transfer. -/
def record : BitmarkTransfer → Transaction
  | .unratified tx => .bitmarkTransferUnratified tx
  | .countersigned tx => .bitmarkTransferCountersigned tx
  | .blockOwner tx => .blockOwnerTransfer tx
  | .share tx => .bitmarkShare tx

/-- The transfer is of a block. -/
def isBlockOwner : BitmarkTransfer → Bool
  | .blockOwner _ => true
  | .unratified _ | .countersigned _ | .share _ => false

end BitmarkTransfer

/-- The allowed transitions: the owner of the linked record, if a transfer of this type may follow
it. -/
def transitionOwner (previous : Transaction) (transfer : BitmarkTransfer) :
    Except Stop Account :=
  match previous with
  | .bitmarkIssue tx =>
    if transfer.isBlockOwner then fault .linkToInvalidOrUnconfirmedTransaction else .ok tx.owner
  | .bitmarkTransferUnratified tx =>
    if transfer.isBlockOwner then fault .linkToInvalidOrUnconfirmedTransaction else .ok tx.owner
  | .bitmarkTransferCountersigned tx =>
    if transfer.isBlockOwner then fault .linkToInvalidOrUnconfirmedTransaction else .ok tx.owner
  | .oldBaseData tx =>
    if transfer.isBlockOwner then .ok tx.owner else fault .linkToInvalidOrUnconfirmedTransaction
  | .blockFoundation tx =>
    if transfer.isBlockOwner then .ok tx.owner else fault .linkToInvalidOrUnconfirmedTransaction
  | .blockOwnerTransfer tx =>
    if transfer.isBlockOwner then .ok tx.owner else fault .linkToInvalidOrUnconfirmedTransaction
  | .assetData _ | .bitmarkShare _ | .shareGrant _ | .shareSwap _ =>
    fault .linkToInvalidOrUnconfirmedTransaction

/-- `verifyTransfer`. -/
def verifyTransfer (env : Env) (v : View) (transfer : BitmarkTransfer) : Except Stop Digest := do
  let link := transfer.getLink
  match ← v.getNB .transactions link.bytes with
  | none => fault .linkToInvalidOrUnconfirmedTransaction
  | some (_, previousPacked) =>
    let (previousTransaction, _) ← unpack env previousPacked env.isTesting
    let currentOwner ← transitionOwner previousTransaction transfer
    let packedTransfer ← transfer.pack env (some currentOwner)
    let txId := env.newDigest packedTransfer
    failIf (txId = link) .transactionLinksToSelf
    failIf (v.has .transactions txId.bytes) .transactionAlreadyExists
    failIf (¬ currentlyOwns v currentOwner link) .doubleTransferAttempt
    let _ ← getOwnerData v link
    return txId

/-- The owner data of a share, under the tx id of the record that created it. -/
def shareOwnerData (v : View) (shareId : Digest) : Except Stop OwnerData := do
  match ← v.getNB .shares shareId.bytes with
  | none => fault .doubleTransferAttempt
  | some (_, shareTxId) =>
    match getOwnerDataB v shareTxId with
    | .error _ => fault .doubleTransferAttempt
    | .ok ownerData => return ownerData

/-- `verifyGrant`. -/
def verifyGrant (env : Env) (v : View) (height : UInt64) (grant : ShareGrant) :
    Except Stop Digest := do
  failIf (grant.beforeBlock ≤ height) .recordHasExpired
  let _ ← checkGrantBalance v grant
  let packedGrant ← grant.pack env grant.owner
  let txId := env.newDigest packedGrant
  failIf (v.has .transactions txId.bytes) .transactionAlreadyExists
  let _ ← shareOwnerData v grant.shareId
  return txId

/-- `verifySwap`. -/
def verifySwap (env : Env) (v : View) (height : UInt64) (swap : ShareSwap) :
    Except Stop Digest := do
  failIf (swap.beforeBlock ≤ height) .recordHasExpired
  let _ ← checkSwapBalances v swap
  let packedSwap ← swap.pack env swap.ownerOne
  let txId := env.newDigest packedSwap
  failIf (v.has .transactions txId.bytes) .transactionAlreadyExists
  let _ ← shareOwnerData v swap.shareIdOne
  return txId

end Bitmarkd
