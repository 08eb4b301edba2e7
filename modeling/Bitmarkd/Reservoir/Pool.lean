import Bitmarkd.Asset.Cache
import Bitmarkd.Ledger.View
import Bitmarkd.Reservoir
import Bitmarkd.Reservoir.Payment

/-!
# The reservoir

`reservoir/setup.go`, `transfer.go`, `issues.go`, `sharegrant.go`, `shareswap.go` and
`expiration.go`: the records that wait for a payment (pending) or for a block (verified). A
transfer, a grant or a swap waits alone, issues wait in sets; each waits under its pay id, the hash
of its packed records. Next to the six pools there are an index from tx ids to pay ids for each
stage, the links that pooled transfers spend, two counts, the payments that came before their
record, and what the pooled grants and swaps spend.

An operation reads the database, the clock and the asset cache (`Context`). Go's maps have no order,
so a loop over one is given an order of the keys.
-/

namespace Bitmarkd

open Lib

@[simp] theorem BitmarkTransfer.link?_record (transfer : BitmarkTransfer) :
    transfer.record.link? = some transfer.getLink := by
  cases transfer <;> rfl

/-! ## State -/

/-- `pay.PayId`. -/
abbrev PayId := FixedBytes 48

/-- `pay.NewPayId`. -/
def newPayId (env : Env) (packed : List Bytes) : PayId := env.sha3Sum384 packed.flatten

/-- `PayNonce`. -/
abbrev PayNonce := FixedBytes 8

/-- `transactionData`. -/
structure TransactionData where
  txId : Digest
  transaction : Transaction
  packed : Bytes
deriving DecidableEq

/-- `transactionPaymentData`. -/
structure TransactionPaymentData where
  tx : TransactionData
  payId : PayId
  payments : List PaymentAlternative
  expiresAt : Time
deriving DecidableEq

/-- `issuePaymentData`. -/
structure IssuePaymentData where
  txs : List TransactionData
  payId : PayId
  payments : List PaymentAlternative
  expiresAt : Time
deriving DecidableEq

/-- `issueFreeData`, with the target of its difficulty. -/
structure IssueFreeData where
  txs : List TransactionData
  payId : PayId
  nonce : PayNonce
  difficulty : Nat
  expiresAt : Time
deriving DecidableEq

/-- `spendKey`. -/
structure SpendKey where
  owner : FixedBytes 64
  share : Digest
deriving DecidableEq

/-- `globalDataType`. -/
structure Reservoir where
  enabled : Bool
  verifiedTransactions : Table PayId TransactionData
  verifiedFreeIssues : Table PayId IssueFreeData
  verifiedPaidIssues : Table PayId IssuePaymentData
  verifiedIndex : Table Digest PayId
  inProgressLinks : Table Digest Digest
  pendingTransactions : Table PayId TransactionPaymentData
  pendingFreeIssues : Table PayId IssueFreeData
  pendingPaidIssues : Table PayId IssuePaymentData
  pendingIndex : Table Digest PayId
  pendingFreeCount : Int
  pendingPaidCount : Int
  orphanPayments : Table PayId PaymentDetail
  spend : Table SpendKey UInt64
  autoVerify : Bool

/-- What the operations read. -/
structure Context where
  view : View
  /-- `blockheader.Height`. -/
  height : UInt64
  now : Time
  assets : AssetCache
  /-- `blockheader.DigestForBlock`. -/
  digestForBlock : UInt64 → Option BlockDigest

/-- `blockrecord.MaximumTransactions`. -/
def maximumTransactions : Nat := 10000

/-- `MaximumIssues`. -/
def maximumIssues : Nat := 100

/-- `maximumPendingFreeIssues`. -/
def maximumPendingFreeIssues : Nat := maximumTransactions * 2

/-- `maximumPendingPaidIssues`. -/
def maximumPendingPaidIssues : Nat := maximumTransactions * 2

/-- `maximumPendingTransactions`. -/
def maximumPendingTransactions : Nat := maximumTransactions * 16

/-- `makeSpendKey`. The bytes of an account fit. -/
def makeSpendKey (owner : Account) (shareId : Digest) : SpendKey :=
  ⟨.ofSlice 64 owner.bytes, shareId⟩

namespace Reservoir

/-- The reservoir after `Initialise`. -/
def empty (autoVerify : Bool) : Reservoir where
  enabled := true
  verifiedTransactions := ∅
  verifiedFreeIssues := ∅
  verifiedPaidIssues := ∅
  verifiedIndex := ∅
  inProgressLinks := ∅
  pendingTransactions := ∅
  pendingFreeIssues := ∅
  pendingPaidIssues := ∅
  pendingIndex := ∅
  pendingFreeCount := 0
  pendingPaidCount := 0
  orphanPayments := ∅
  spend := ∅
  autoVerify := autoVerify

/-! ## Payments -/

/-- `acceptablePayment`. -/
def acceptablePayment (r : Reservoir) (detail : Option PaymentDetail)
    (payments : List PaymentAlternative) : Bool :=
  r.autoVerify || detail.any fun detail => detail.paysOne payments

/-- The single transaction part of `setVerified`, for an entry whose payment is acceptable. -/
def verifyTransaction (payId : PayId) (entry : TransactionPaymentData) (r : Reservoir) :
    Reservoir :=
  { r with
    pendingTransactions := r.pendingTransactions.erase payId
    verifiedTransactions := r.verifiedTransactions.insert payId entry.tx
    pendingIndex := r.pendingIndex.erase entry.tx.txId
    verifiedIndex := r.verifiedIndex.insert entry.tx.txId payId }

/-- The issue block part of `setVerified`, for an entry whose payment is acceptable. -/
def verifyPaidIssues (payId : PayId) (entry : IssuePaymentData) (r : Reservoir) : Reservoir :=
  { r with
    pendingPaidCount := r.pendingPaidCount - entry.txs.length
    pendingPaidIssues := r.pendingPaidIssues.erase payId
    verifiedPaidIssues := r.verifiedPaidIssues.insert payId entry
    pendingIndex := r.pendingIndex.eraseAll (entry.txs.map (·.txId))
    verifiedIndex := r.verifiedIndex.insertAll (entry.txs.map (·.txId)) payId }

/-- `setVerified`. -/
def setVerified (payId : PayId) (detail : PaymentDetail) (r : Reservoir) : Bool × Reservoir :=
  match r.pendingTransactions.lookup payId with
  | some entry =>
    if r.acceptablePayment (some detail) entry.payments then (true, r.verifyTransaction payId entry)
    else (false, r)
  | none =>
    match r.pendingPaidIssues.lookup payId with
    | some entry =>
      if r.acceptablePayment (some detail) entry.payments then
        (true, r.verifyPaidIssues payId entry)
      else (false, r)
    | none => (false, r)

/-- `SetTransferVerified`. -/
def setTransferVerified (payId : PayId) (detail : PaymentDetail) (r : Reservoir) : Reservoir :=
  match r.setVerified payId detail with
  | (true, r) => r
  | (false, r) => { r with orphanPayments := r.orphanPayments.insert payId detail }

/-! ## Deletion -/

/-- The links without that of a transfer. -/
def dropLink (links : Table Digest Digest) (tx : TransactionData) : Table Digest Digest :=
  match tx.transaction.link? with
  | some link => links.erase link
  | none => links

/-- `internalDelete`, pending transactions. -/
def deletePendingTransaction (payId : PayId) (r : Reservoir) : Reservoir :=
  match r.pendingTransactions.lookup payId with
  | none => r
  | some entry => { r with
    pendingIndex := r.pendingIndex.erase entry.tx.txId
    inProgressLinks := dropLink r.inProgressLinks entry.tx
    pendingTransactions := r.pendingTransactions.erase payId }

/-- `internalDelete`, pending free issues. -/
def deletePendingFreeIssues (payId : PayId) (r : Reservoir) : Reservoir :=
  match r.pendingFreeIssues.lookup payId with
  | none => r
  | some entry => { r with
    pendingIndex := r.pendingIndex.eraseAll (entry.txs.map (·.txId))
    pendingFreeCount := r.pendingFreeCount - entry.txs.length
    pendingFreeIssues := r.pendingFreeIssues.erase payId }

/-- `internalDelete`, pending paid issues. -/
def deletePendingPaidIssues (payId : PayId) (r : Reservoir) : Reservoir :=
  match r.pendingPaidIssues.lookup payId with
  | none => r
  | some entry => { r with
    pendingIndex := r.pendingIndex.eraseAll (entry.txs.map (·.txId))
    pendingPaidCount := r.pendingPaidCount - entry.txs.length
    pendingPaidIssues := r.pendingPaidIssues.erase payId }

/-- `internalDelete`, verified transactions. -/
def deleteVerifiedTransaction (payId : PayId) (r : Reservoir) : Reservoir :=
  match r.verifiedTransactions.lookup payId with
  | none => r
  | some entry => { r with
    verifiedIndex := r.verifiedIndex.erase entry.txId
    inProgressLinks := dropLink r.inProgressLinks entry
    verifiedTransactions := r.verifiedTransactions.erase payId }

/-- `internalDelete`, verified free issues. -/
def deleteVerifiedFreeIssues (payId : PayId) (r : Reservoir) : Reservoir :=
  match r.verifiedFreeIssues.lookup payId with
  | none => r
  | some entry => { r with
    verifiedIndex := r.verifiedIndex.eraseAll (entry.txs.map (·.txId))
    verifiedFreeIssues := r.verifiedFreeIssues.erase payId }

/-- `internalDelete`, verified paid issues. -/
def deleteVerifiedPaidIssues (payId : PayId) (r : Reservoir) : Reservoir :=
  match r.verifiedPaidIssues.lookup payId with
  | none => r
  | some entry => { r with
    verifiedIndex := r.verifiedIndex.eraseAll (entry.txs.map (·.txId))
    verifiedPaidIssues := r.verifiedPaidIssues.erase payId }

/-- `internalDelete`. -/
def internalDelete (payId : PayId) (r : Reservoir) : Reservoir :=
  ((((((r.deletePendingTransaction payId).deletePendingFreeIssues payId).deletePendingPaidIssues
    payId).deleteVerifiedTransaction payId).deleteVerifiedFreeIssues payId).deleteVerifiedPaidIssues
    payId)

/-- Delete the entry that an index has for a tx id. -/
def deleteIndexed (index : Reservoir → Table Digest PayId) (txId : Digest) (r : Reservoir) :
    Reservoir :=
  match (index r).lookup txId with
  | none => r
  | some payId => r.internalDelete payId

/-- `internalDeleteByTxId`. -/
def internalDeleteByTxId (txId : Digest) (r : Reservoir) : Reservoir :=
  (r.deleteIndexed pendingIndex txId).deleteIndexed verifiedIndex txId

/-- `DeleteByTxId`. -/
def deleteByTxId (txId : Digest) (r : Reservoir) : Except Stop Reservoir :=
  if r.enabled then panicAt .reservoirNotLocked else .ok (r.internalDeleteByTxId txId)

/-- `DeleteByLink`. -/
def deleteByLink (link : Digest) (r : Reservoir) : Except Stop Reservoir :=
  if r.enabled then panicAt .reservoirNotLocked
  else
    match r.inProgressLinks.lookup link with
    | none => .ok r
    | some txId => .ok (r.internalDeleteByTxId txId)

/-- `expired`. -/
def expired (now exp : Time) : Bool := exp = 0 ∨ exp < now

/-- An order of the keys of each of the six pools. -/
structure PoolOrder where
  pendingTransactions : List PayId
  pendingFreeIssues : List PayId
  pendingPaidIssues : List PayId
  verifiedTransactions : List PayId
  verifiedFreeIssues : List PayId
  verifiedPaidIssues : List PayId
deriving DecidableEq

/-- The orders are of the pools of a reservoir. -/
structure PoolOrder.Of (order : PoolOrder) (r : Reservoir) : Prop where
  pendingTransactions : r.pendingTransactions.KeyOrder order.pendingTransactions
  pendingFreeIssues : r.pendingFreeIssues.KeyOrder order.pendingFreeIssues
  pendingPaidIssues : r.pendingPaidIssues.KeyOrder order.pendingPaidIssues
  verifiedTransactions : r.verifiedTransactions.KeyOrder order.verifiedTransactions
  verifiedFreeIssues : r.verifiedFreeIssues.KeyOrder order.verifiedFreeIssues
  verifiedPaidIssues : r.verifiedPaidIssues.KeyOrder order.verifiedPaidIssues

instance (order : PoolOrder) (r : Reservoir) : Decidable (order.Of r) :=
  decidable_of_iff (r.pendingTransactions.KeyOrder order.pendingTransactions ∧
    r.pendingFreeIssues.KeyOrder order.pendingFreeIssues ∧
    r.pendingPaidIssues.KeyOrder order.pendingPaidIssues ∧
    r.verifiedTransactions.KeyOrder order.verifiedTransactions ∧
    r.verifiedFreeIssues.KeyOrder order.verifiedFreeIssues ∧
    r.verifiedPaidIssues.KeyOrder order.verifiedPaidIssues)
    ⟨fun h => ⟨h.1, h.2.1, h.2.2.1, h.2.2.2.1, h.2.2.2.2.1, h.2.2.2.2.2⟩,
      fun h => ⟨h.1, h.2, h.3, h.4, h.5, h.6⟩⟩

/-- Delete an entry if it has expired. -/
def deleteExpired (now exp : Time) (payId : PayId) (r : Reservoir) : Except Stop Reservoir :=
  .ok (if expired now exp then r.internalDelete payId else r)

/-- `deleteExpiredItems`. -/
def deleteExpiredItems (now : Time) (order : PoolOrder) (r : Reservoir) :
    Except Stop Reservoir := do
  let r ← Table.rangeLoop pendingTransactions (fun payId item => deleteExpired now item.expiresAt
    payId) order.pendingTransactions r
  let r ← Table.rangeLoop pendingFreeIssues (fun payId item => deleteExpired now item.expiresAt
    payId) order.pendingFreeIssues r
  Table.rangeLoop pendingPaidIssues (fun payId item => deleteExpired now item.expiresAt
    payId) order.pendingPaidIssues r

/-! ## Spending and rescanning -/

/-- `spend[k] += quantity`. -/
def addSpend (k : SpendKey) (quantity : UInt64) (r : Reservoir) : Reservoir :=
  { r with spend := r.spend.insert k ((r.spend.lookup k).getD 0 + quantity) }

/-- What a grant adds to the spend table. -/
def spendGrant (grant : ShareGrant) (r : Reservoir) : Reservoir :=
  r.addSpend (makeSpendKey grant.owner.account grant.shareId) grant.quantity

/-- What a swap adds to the spend table. -/
def spendSwap (swap : ShareSwap) (r : Reservoir) : Reservoir :=
  (r.addSpend (makeSpendKey swap.ownerOne.account swap.shareIdOne) swap.quantityOne).addSpend
    (makeSpendKey swap.ownerTwo.account swap.shareIdTwo) swap.quantityTwo

/-- `ClearSpend`. -/
def clearSpend (r : Reservoir) : Except Stop Reservoir :=
  if r.enabled then panicAt .reservoirNotLocked else .ok { r with spend := ∅ }

/-- The link of a pooled transfer can still be spent by its owner. -/
def linkOwned (env : Env) (v : View) (link : Digest) : Except Stop Bool := do
  match ← ownerOf env v link with
  | none => return false
  | some (_, linkOwner) => return currentlyOwns v linkOwner link

/-- The transfer cases of `rescanItem`. -/
def rescanTransfer (env : Env) (v : View) (txId link : Digest) (r : Reservoir) :
    Except Stop Reservoir := do
  if ← linkOwned env v link then return r else return r.internalDeleteByTxId txId

/-- `rescanItem`. -/
def rescanItem (env : Env) (v : View) (item : TransactionData) (r : Reservoir) :
    Except Stop Reservoir :=
  match item.transaction with
  | .oldBaseData _ | .assetData _ | .blockFoundation _ => panicAt .rescanFound
  | .bitmarkIssue _ =>
    .ok (if v.has .transactions item.txId.bytes then r.internalDeleteByTxId item.txId else r)
  | .bitmarkTransferUnratified tx => r.rescanTransfer env v item.txId tx.link
  | .bitmarkTransferCountersigned tx => r.rescanTransfer env v item.txId tx.link
  | .blockOwnerTransfer tx => r.rescanTransfer env v item.txId tx.link
  | .bitmarkShare tx => r.rescanTransfer env v item.txId tx.link
  | .shareGrant tx =>
    match checkGrantBalance v tx with
    | .error (.fault _) => .ok (r.internalDeleteByTxId item.txId)
    | .error e => .error e
    | .ok _ => .ok (r.spendGrant tx)
  | .shareSwap tx =>
    match checkSwapBalances v tx with
    | .error (.fault _) => .ok (r.internalDeleteByTxId item.txId)
    | .error e => .error e
    | .ok _ => .ok (r.spendSwap tx)

/-- The loop of `Rescan` over the records of an entry. -/
def rescanItems (env : Env) (v : View) : List TransactionData → Reservoir → Except Stop Reservoir
  | [], r => .ok r
  | item :: items, r => do
    let r ← r.rescanItem env v item
    rescanItems env v items r

/-- `Rescan`. -/
def rescan (env : Env) (v : View) (order : PoolOrder) (r : Reservoir) : Except Stop Reservoir := do
  let r := { r with spend := ∅ }
  let r ← Table.rangeLoop pendingTransactions (fun _ item => rescanItem env v item.tx)
    order.pendingTransactions r
  let r ← Table.rangeLoop pendingFreeIssues (fun _ item => rescanItems env v item.txs)
    order.pendingFreeIssues r
  let r ← Table.rangeLoop pendingPaidIssues (fun _ item => rescanItems env v item.txs)
    order.pendingPaidIssues r
  let r ← Table.rangeLoop verifiedTransactions (fun _ tx => rescanItem env v tx)
    order.verifiedTransactions r
  let r ← Table.rangeLoop verifiedFreeIssues (fun _ item => rescanItems env v item.txs)
    order.verifiedFreeIssues r
  Table.rangeLoop verifiedPaidIssues (fun _ item => rescanItems env v item.txs)
    order.verifiedPaidIssues r

/-! ## Transfers, grants and swaps -/

/-- What the verification of a record has found. -/
structure VerifiedInfo where
  txId : Digest
  packed : Bytes
  previousPayment : Option Payment
  ownerData : OwnerData
deriving DecidableEq

/-- The payment in the record that a transfer follows. -/
def previousPayment : Transaction → Option Payment
  | .bitmarkTransferUnratified tx => tx.escrow
  | .bitmarkTransferCountersigned tx => tx.escrow
  | .blockOwnerTransfer tx => tx.escrow
  | .oldBaseData _ | .assetData _ | .bitmarkIssue _ | .blockFoundation _ | .bitmarkShare _
  | .shareGrant _ | .shareSwap _ => none

/-- `verifyTransfer`: what was found, and whether the transfer may be a duplicate. -/
def verifyTransfer (env : Env) (v : View) (transfer : BitmarkTransfer) (r : Reservoir) :
    Except Stop (VerifiedInfo × Bool) := do
  let link := transfer.getLink
  match ← v.getNB .transactions link.bytes with
  | none => fault .linkToInvalidOrUnconfirmedTransaction
  | some (_, previousPacked) =>
    let (previousTransaction, _) ← unpack env previousPacked env.isTesting
    let currentOwner ← transitionOwner previousTransaction transfer
    let packedTransfer ← transfer.pack env (some currentOwner)
    let txId := env.newDigest packedTransfer
    failIf (txId = link) .transactionLinksToSelf
    failIf ((r.inProgressLinks.lookup link).any (· ≠ txId)) .doubleTransferAttempt
    failIf (r.verifiedIndex.lookup txId).isSome .transactionAlreadyExists
    failIf (v.has .transactions txId.bytes) .transactionAlreadyExists
    failIf (¬ currentlyOwns v currentOwner link) .doubleTransferAttempt
    let ownerData ← getOwnerData v link
    return (⟨txId, packedTransfer, previousPayment previousTransaction, ownerData⟩,
      (r.pendingIndex.lookup txId).isSome)

/-- `verifyGrant`, with the balance. -/
def verifyGrant (env : Env) (v : View) (height : UInt64) (grant : ShareGrant) (r : Reservoir) :
    Except Stop (UInt64 × VerifiedInfo × Bool) := do
  failIf (grant.beforeBlock ≤ height) .recordHasExpired
  let balance ← checkGrantBalance v grant
  let packedGrant ← grant.pack env grant.owner
  let txId := env.newDigest packedGrant
  failIf (r.verifiedIndex.lookup txId).isSome .transactionAlreadyExists
  failIf (v.has .transactions txId.bytes) .transactionAlreadyExists
  let ownerData ← shareOwnerData v grant.shareId
  return (balance, ⟨txId, packedGrant, none, ownerData⟩, (r.pendingIndex.lookup txId).isSome)

/-- `verifySwap`, with the two balances. -/
def verifySwap (env : Env) (v : View) (height : UInt64) (swap : ShareSwap) (r : Reservoir) :
    Except Stop ((UInt64 × UInt64) × VerifiedInfo × Bool) := do
  failIf (swap.beforeBlock ≤ height) .recordHasExpired
  let balances ← checkSwapBalances v swap
  let packedSwap ← swap.pack env swap.ownerOne
  let txId := env.newDigest packedSwap
  failIf (r.verifiedIndex.lookup txId).isSome .transactionAlreadyExists
  failIf (v.has .transactions txId.bytes) .transactionAlreadyExists
  let ownerData ← shareOwnerData v swap.shareIdOne
  return (balances, ⟨txId, packedSwap, none, ownerData⟩, (r.pendingIndex.lookup txId).isSome)

/-! The verification of the empty reservoir gives the tx id of `Bitmarkd.verifyTransfer`,
`verifyGrant` and `verifySwap`. -/

section Empty

variable (env : Env) (v : View) (height : UInt64) (auto : Bool)

theorem failIf_false {e : Fault} [Decidable False] : failIf False e = pure () := if_neg id

theorem verifyTransfer_empty (transfer : BitmarkTransfer) :
    (fun out => out.1.txId) <$> (empty auto).verifyTransfer env v transfer =
      Bitmarkd.verifyTransfer env v transfer := by
  simp only [verifyTransfer, Bitmarkd.verifyTransfer, map_bind]
  refine bind_congr fun found => ?_
  cases found with
  | none => rfl
  | some found => simp [empty, failIf_false]

theorem verifyGrant_empty (grant : ShareGrant) :
    (fun out => out.2.1.txId) <$> (empty auto).verifyGrant env v height grant =
      Bitmarkd.verifyGrant env v height grant := by
  simp [verifyGrant, Bitmarkd.verifyGrant, empty, failIf_false]

theorem verifySwap_empty (swap : ShareSwap) :
    (fun out => out.2.1.txId) <$> (empty auto).verifySwap env v height swap =
      Bitmarkd.verifySwap env v height swap := by
  simp [verifySwap, Bitmarkd.verifySwap, empty, failIf_false]

end Empty

/-- A record goes to the verified pool. -/
def addVerified (payId : PayId) (item : TransactionData) (r : Reservoir) : Reservoir :=
  { r with
    verifiedTransactions := r.verifiedTransactions.insert payId item
    verifiedIndex := r.verifiedIndex.insert item.txId payId
    pendingTransactions := r.pendingTransactions.erase payId
    pendingIndex := r.pendingIndex.erase item.txId
    orphanPayments := r.orphanPayments.erase payId }

/-- A record goes to the pending pool. -/
def addPending (payment : TransactionPaymentData) (r : Reservoir) : Reservoir :=
  { r with
    pendingTransactions := r.pendingTransactions.insert payment.payId payment
    pendingIndex := r.pendingIndex.insert payment.tx.txId payment.payId }

/-- A record that has been verified, with the pay id and the payments it needs. -/
structure Admission where
  item : TransactionData
  payId : PayId
  payments : List PaymentAlternative
  duplicate : Bool

/-- The part of `storeTransfer`, `storeGrant` and `storeSwap` between verification and the pools:
the pay id and the payments. -/
def admission (env : Env) (v : View) (transaction : Transaction) (info : VerifiedInfo)
    (duplicate : Bool) : Except Stop Admission := do
  let payments ← getPayments env v info.ownerData.transferBlockNumber
    info.ownerData.issueBlockNumber info.previousPayment
  return ⟨⟨info.txId, transaction, info.packed⟩, newPayId env [info.packed], payments, duplicate⟩

/-- The part of `storeTransfer`, `storeGrant` and `storeSwap` that changes the pools: the payments
and the duplicate flag that are returned. Only transfers are `limited` in number. `claim` is what
else the record takes: its link, or the shares it gives. -/
def storeItem (now : Time) (limited : Bool) (claim : Reservoir → Reservoir) (a : Admission)
    (r : Reservoir) : Except Stop ((List PaymentAlternative × Bool) × Reservoir) :=
  match r.pendingTransactions.lookup a.payId with
  | some entry => .ok ((entry.payments, true), r)
  | none =>
    if a.duplicate then fault .transactionAlreadyExists
    else
      let detail := r.orphanPayments.lookup a.payId
      if (detail.isSome || r.autoVerify) && r.acceptablePayment detail a.payments then
        .ok ((a.payments, false), claim (r.addVerified a.payId a.item))
      else if limited ∧ maximumPendingTransactions ≤ r.pendingTransactions.keys.card then
        fault .bufferCapacityLimit
      else
        .ok ((a.payments, false),
          claim (r.addPending ⟨a.item, a.payId, a.payments, now + reservoirTimeout⟩))

/-- `TransferInfo`. -/
structure TransferInfo where
  id : PayId
  txId : Digest
  issueTxId : Digest
  packed : Bytes
  payments : List PaymentAlternative
deriving DecidableEq

/-- The link of a transfer is in progress. -/
def claimLink (link txId : Digest) (r : Reservoir) : Reservoir :=
  { r with inProgressLinks := r.inProgressLinks.insert link txId }

/-- `storeTransfer`. -/
def storeTransfer (env : Env) (ctx : Context) (transfer : BitmarkTransfer) (r : Reservoir) :
    Except Stop ((TransferInfo × Bool) × Reservoir) := do
  let (info, duplicate) ← r.verifyTransfer env ctx.view transfer
  let a ← admission env ctx.view transfer.record info duplicate
  let ((payments, seen), r) ← r.storeItem ctx.now true (claimLink transfer.getLink info.txId) a
  return ((⟨a.payId, info.txId, info.ownerData.issueTxId, info.packed, payments⟩, seen), r)

/-- `GrantInfo`. -/
structure GrantInfo where
  remaining : UInt64
  id : PayId
  txId : Digest
  packed : Bytes
  payments : List PaymentAlternative
deriving DecidableEq

/-- `storeGrant`. -/
def storeGrant (env : Env) (ctx : Context) (grant : ShareGrant) (r : Reservoir) :
    Except Stop ((GrantInfo × Bool) × Reservoir) := do
  let (balance, info, duplicate) ← r.verifyGrant env ctx.view ctx.height grant
  let a ← admission env ctx.view (.shareGrant grant) info duplicate
  let spend := (r.spend.lookup (makeSpendKey grant.owner.account grant.shareId)).getD 0
  let ((payments, seen), r) ← r.storeItem ctx.now false (spendGrant grant) a
  let remaining := if seen then balance - spend else balance - spend - grant.quantity
  return ((⟨remaining, a.payId, info.txId, info.packed, payments⟩, seen), r)

/-- `SwapInfo`. -/
structure SwapInfo where
  remainingOne : UInt64
  remainingTwo : UInt64
  id : PayId
  txId : Digest
  packed : Bytes
  payments : List PaymentAlternative
deriving DecidableEq

/-- `storeSwap`. -/
def storeSwap (env : Env) (ctx : Context) (swap : ShareSwap) (r : Reservoir) :
    Except Stop ((SwapInfo × Bool) × Reservoir) := do
  let ((balanceOne, balanceTwo), info, duplicate) ← r.verifySwap env ctx.view ctx.height swap
  let a ← admission env ctx.view (.shareSwap swap) info duplicate
  let spendOne := (r.spend.lookup (makeSpendKey swap.ownerOne.account swap.shareIdOne)).getD 0
  let spendTwo := (r.spend.lookup (makeSpendKey swap.ownerTwo.account swap.shareIdTwo)).getD 0
  let ((payments, seen), r) ← r.storeItem ctx.now false (spendSwap swap) a
  let remainingOne :=
    if seen then balanceOne - spendOne else balanceOne - spendOne - swap.quantityOne
  let remainingTwo :=
    if seen then balanceTwo - spendTwo else balanceTwo - spendTwo - swap.quantityTwo
  return ((⟨remainingOne, remainingTwo, a.payId, info.txId, info.packed, payments⟩, seen), r)

/-! ## Issues -/

/-- `PayNonceRoundedHeight`. -/
def payNonceRoundedHeight (height : UInt64) : UInt64 :=
  let height := height &&& ~~~0x7f
  if height > 0xff then height - 0x80 else 1

/-- `PayNonceFromBlock`. -/
def payNonceFromBlock (ctx : Context) (number : UInt64) : PayNonce :=
  match ctx.digestForBlock number with
  | none => .zero 8
  | some digest => .ofSlice 8 digest.bytes

/-- `NewPayNonce`. -/
def newPayNonce (ctx : Context) : PayNonce :=
  payNonceFromBlock ctx (payNonceRoundedHeight ctx.height)

/-- `IssueInfo`. -/
structure IssueInfo where
  txIds : List Digest
  packed : Bytes
  id : PayId
  nonce : PayNonce
  difficulty : Option Nat
  payments : List PaymentAlternative
deriving DecidableEq

/-- The loop of `storeIssues` on one issue: its data, and whether it is pending already. -/
def checkIssue (env : Env) (ctx : Context) (r : Reservoir) (issue : BitmarkIssue) :
    Except Stop (TransactionData × Bool) := do
  failIf (issue.owner.isTesting ≠ env.isTesting) .wrongNetworkForPublicKey
  let packedIssue ← issue.pack env (some issue.owner)
  failIf (¬ ctx.assets.exists? ctx.view issue.assetId) .assetNotFound
  let txId := env.newDigest packedIssue
  failIf (r.verifiedIndex.lookup txId).isSome .transactionAlreadyExists
  failIf (ctx.view.has .transactions txId.bytes) .transactionAlreadyExists
  return (⟨txId, .bitmarkIssue issue, packedIssue⟩, (r.pendingIndex.lookup txId).isSome)

/-- Issues that passed the checks of `storeIssues`. They are free if they have a nonce and a
difficulty. -/
structure PreparedIssues where
  issues : List BitmarkIssue
  txs : List TransactionData
  payId : PayId
  free : Option (PayNonce × Nat)
  payments : List PaymentAlternative
deriving DecidableEq

/-- What is returned for prepared issues. -/
def PreparedIssues.info (q : PreparedIssues) : IssueInfo where
  txIds := q.txs.map (·.txId)
  packed := (q.txs.map (·.packed)).flatten
  id := q.payId
  nonce := (q.free.map Prod.fst).getD (.zero 8)
  difficulty := q.free.map Prod.snd
  payments := q.payments

/-- The payments for paid issues of one confirmed asset. -/
def issuePayments (env : Env) (v : View) (assetId : AssetIdentifier) (count : Nat) :
    Except Stop (List PaymentAlternative) := do
  match ← v.getNB .assets assetId.bytes with
  | none => fault .assetNotFound
  | some (assetBlockNumber, _) =>
    failIf (assetBlockNumber ≤ 1) .assetNotFound
    match ← getPayment env v assetBlockNumber with
    | none => fault .assetNotFound
    | some p => p.toList.mapM fun r => do
      let r ← requirePayment r
      return [{ r with amount := r.amount * UInt64.ofNat count }]

/-- The check phase of `storeIssues`: what to return if the issues are pending already, or what is
to be committed. -/
def checkIssues (env : Env) (ctx : Context) (issues : List BitmarkIssue) (r : Reservoir) :
    Except Stop (IssueInfo ⊕ PreparedIssues) :=
  match issues with
  | [] => fault .missingParameters
  | first :: _ => do
    failIf (issues.length > maximumIssues) .tooManyItemsToProcess
    let checked ← issues.mapM (checkIssue env ctx r)
    let txs := checked.map Prod.fst
    let payId := newPayId env (txs.map (·.packed))
    let prepared : PreparedIssues := ⟨issues, txs, payId, none, []⟩
    match r.pendingFreeIssues.lookup payId with
    | some entry => return .inl { prepared.info with
        nonce := entry.nonce, difficulty := some entry.difficulty }
    | none =>
      match r.pendingPaidIssues.lookup payId with
      | some entry => return .inl { prepared.info with payments := entry.payments }
      | none =>
        failIf (checked.any Prod.snd) .transactionAlreadyExists
        if issues.all fun issue => issue.nonce = 0 then
          return .inr { prepared with
            free := some (newPayNonce ctx, env.scaledDifficulty issues.length) }
        else
          failIf (¬ issues.all fun issue => issue.assetId = first.assetId) .assetNotFound
          let payments ← issuePayments env ctx.view first.assetId issues.length
          return .inr { prepared with payments }

/-- Issues go to the verified pool. -/
def addVerifiedIssues (entry : IssuePaymentData) (r : Reservoir) : Reservoir :=
  { r with
    verifiedIndex := r.verifiedIndex.insertAll (entry.txs.map (·.txId)) entry.payId
    pendingIndex := r.pendingIndex.eraseAll (entry.txs.map (·.txId))
    verifiedPaidIssues := r.verifiedPaidIssues.insert entry.payId entry
    orphanPayments := r.orphanPayments.erase entry.payId }

/-- Free issues go to the pending pool. -/
def addFreeIssues (entry : IssueFreeData) (r : Reservoir) : Reservoir :=
  { r with
    pendingIndex := r.pendingIndex.insertAll (entry.txs.map (·.txId)) entry.payId
    pendingFreeIssues := r.pendingFreeIssues.insert entry.payId entry
    pendingFreeCount := r.pendingFreeCount + entry.txs.length }

/-- Paid issues go to the pending pool. -/
def addPaidIssues (entry : IssuePaymentData) (r : Reservoir) : Reservoir :=
  { r with
    pendingIndex := r.pendingIndex.insertAll (entry.txs.map (·.txId)) entry.payId
    pendingPaidIssues := r.pendingPaidIssues.insert entry.payId entry
    pendingPaidCount := r.pendingPaidCount + entry.txs.length }

/-- The commit phase of `storeIssues`. Free issues keep their assets from expiring. -/
def commitIssues (now : Time) (q : PreparedIssues) (s : Reservoir × AssetCache) :
    Except Stop (Reservoir × AssetCache) :=
  let (r, assets) := s
  let expiresAt := now + reservoirTimeout
  let detail := r.orphanPayments.lookup q.payId
  if (detail.isSome || q.free.isNone && r.autoVerify) && r.acceptablePayment detail q.payments then
    .ok (r.addVerifiedIssues ⟨q.txs, q.payId, q.payments, expiresAt⟩, assets)
  else
    match q.free with
    | some (nonce, difficulty) =>
      if r.pendingFreeCount + q.txs.length > maximumPendingFreeIssues then
        fault .bufferCapacityLimit
      else .ok (r.addFreeIssues ⟨q.txs, q.payId, nonce, difficulty, expiresAt⟩,
        q.issues.foldl (fun c issue => c.incrementTTL issue.assetId) assets)
    | none =>
      if r.pendingPaidCount + q.txs.length ≥ maximumPendingPaidIssues then
        fault .bufferCapacityLimit
      else .ok (r.addPaidIssues ⟨q.txs, q.payId, q.payments, expiresAt⟩, assets)

/-- `storeIssues`. -/
def storeIssues (env : Env) (ctx : Context) (issues : List BitmarkIssue) (r : Reservoir) :
    Except Stop ((IssueInfo × Bool) × Reservoir × AssetCache) := do
  match ← r.checkIssues env ctx issues with
  | .inl info => return ((info, true), r, ctx.assets)
  | .inr q =>
    let s ← commitIssues ctx.now q (r, ctx.assets)
    return ((q.info, false), s)

/-! ## Proofs -/

/-- `TrackingStatus`. -/
inductive TrackingStatus
  | notFound
  | accepted
  | invalid
deriving DecidableEq, Repr

/-- `PayNonceHeightDelta`. -/
def payNonceHeightDelta : UInt64 := 0x80

/-- The loop of `tryProof`, with a number of heights to try. -/
def tryLoop (env : Env) (ctx : Context) (payId : PayId) (difficulty : Nat) (clientNonce : Bytes) :
    Nat → UInt64 → Bool
  | 0, _ => false
  | n + 1, height =>
    let payNonce := payNonceFromBlock ctx height
    let digest := env.sha3Sum256 (payId.bytes ++ payNonce.bytes ++ clientNonce)
    if beValue digest.bytes ≤ difficulty then true
    else if height < payNonceHeightDelta then false
    else tryLoop env ctx payId difficulty clientNonce n (height - payNonceHeightDelta)

/-- The part of `tryProof` that looks for the entry and tries the proof. -/
def checkProof (env : Env) (ctx : Context) (payId : PayId) (clientNonce : Bytes) (r : Reservoir) :
    TrackingStatus :=
  match r.pendingFreeIssues.lookup payId with
  | none => .notFound
  | some entry =>
    if tryLoop env ctx payId entry.difficulty clientNonce 6 (payNonceRoundedHeight ctx.height) then
      .accepted
    else .invalid

/-- `copy(entry.nonce[:], nonce)`. -/
def copyNonce (entry : PayNonce) (nonce : Bytes) : PayNonce :=
  .ofSlice 8 (nonce ++ entry.bytes.drop nonce.length)

/-- `verifyIssueByNonce`. No issue is an asset, so no asset's time to live is decreased. -/
def verifyIssueByNonce (payId : PayId) (nonce : Bytes) (r : Reservoir) : Reservoir :=
  if nonce = [] then r
  else
    match r.pendingFreeIssues.lookup payId with
    | none => r
    | some entry => { r with
      pendingIndex := r.pendingIndex.eraseAll (entry.txs.map (·.txId))
      verifiedIndex := r.verifiedIndex.insertAll (entry.txs.map (·.txId)) payId
      pendingFreeCount := r.pendingFreeCount - entry.txs.length
      pendingFreeIssues := r.pendingFreeIssues.erase payId
      verifiedFreeIssues := r.verifiedFreeIssues.insert payId
        { entry with nonce := copyNonce entry.nonce nonce } }

/-- `tryProof`. -/
def tryProof (env : Env) (ctx : Context) (payId : PayId) (clientNonce : Bytes) (r : Reservoir) :
    TrackingStatus × Reservoir :=
  match r.checkProof env ctx payId clientNonce with
  | .accepted => (.accepted, r.verifyIssueByNonce payId clientNonce)
  | status => (status, r)

end Reservoir

end Bitmarkd
