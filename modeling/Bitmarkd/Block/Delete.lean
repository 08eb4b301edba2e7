import Bitmarkd.Block.Store

/-!
# Deleting blocks

`block/delete.go`. `DeleteDownToBlock` takes blocks off the top of the chain. The transactions of a
block are undone in the order they were stored, each in a database transaction of its own; then the
block's own records are deleted, in one more.

The database writes of a deletion are taken to succeed.
-/

namespace Bitmarkd

open Lib

/-! ## Undoing one transaction -/

/-- The block number and owner of a linked record, which must be there. -/
def requireOwnerOf (env : Env) (a : Access) (link : Digest) : Except Stop (UInt64 × Account) := do
  match ← ownerOf env a.view link with
  | none => panicAt .transactionsCorrupt
  | some found => return found

/-- Undo a bitmark transfer. -/
def undoBitmarkTransfer (env : Env) (a : Access) (txId link : Digest) (owner : Account) :
    Except Stop Access := do
  let a := a.poolRemove .transactions txId.bytes
  let (blockNumber, linkOwner) ← requireOwnerOf env a link
  transferOwnership a txId link blockNumber owner (some linkOwner)

/-- The packed payments of the record before a block owner transfer. -/
def previousPayments (env : Env) (a : Access) (link : Digest) : Except Stop Bytes := do
  let found ← a.view.getNB .transactions link.bytes
  let previous := (found.map Prod.snd).getD []
  let checked (version : UInt64) (payments : Currency.Map) : Except Stop Bytes :=
    match checkPayments env version env.isTesting payments with
    | .error _ => panicAt .transactionCorrupt
    | .ok () =>
      match payments.pack env env.isTesting with
      | .error _ => panicAt .transactionCorrupt
      | .ok packedPayments => .ok packedPayments
  match unpack env previous env.isTesting with
  | .error _ => panicAt .transactionCorrupt
  | .ok (.blockFoundation prevTx, _) => checked prevTx.version prevTx.payments
  | .ok (.blockOwnerTransfer prevTx, _) => checked prevTx.version prevTx.payments
  | .ok _ => panicAt .transactionCorrupt

/-- Undo a block owner transfer: the payments and the index go back to the linked record. -/
def undoBlockOwnerTransfer (env : Env) (a : Access) (txId : Digest) (tx : BlockOwnerTransfer) :
    Except Stop Access := do
  let a := a.poolRemove .transactions txId.bytes
  let (blockNumber, linkOwner) ← requireOwnerOf env a tx.link
  match getOwnerData a.view txId with
  | .error _ => panicAt .ownershipCorrupt
  | .ok ownerData =>
    match ownerData.item with
    | .asset _ | .share _ => panicAt .ownershipCorrupt
    | .block =>
      let a ← transferOwnership a txId tx.link blockNumber tx.owner (some linkOwner)
      let blockNumberKey := be64 ownerData.issueBlockNumber
      let packedPayments ← previousPayments env a tx.link
      let a := a.poolPut .blockOwnerPayment blockNumberKey packedPayments
      let a := a.poolPut .blockOwnerTxIndex tx.link.bytes blockNumberKey
      return a.poolRemove .blockOwnerTxIndex txId.bytes

/-- Undo the creation of a share. -/
def undoBitmarkShare (env : Env) (a : Access) (txId : Digest) (tx : BitmarkShare) :
    Except Stop Access := do
  let (blockNumber, linkOwner) ← requireOwnerOf env a tx.link
  match getOwnerData a.view txId with
  | .error _ => panicAt .ownershipCorrupt
  | .ok ownerData =>
    match ownerData.item with
    | .asset _ | .block => panicAt .ownershipCorrupt
    | .share _ =>
      let a := a.poolRemove .transactions txId.bytes
      let shareId := ownerData.issueTxId
      let a := a.poolRemove .shares shareId.bytes
      let a := a.poolRemove .shareQuantity (ownerKey linkOwner shareId)
      transferOwnership a txId tx.link blockNumber linkOwner (some linkOwner)

/-- Undo a grant. -/
def undoShareGrant (a : Access) (txId : Digest) (tx : ShareGrant) : Except Stop Access := do
  let a := a.poolRemove .transactions txId.bytes
  let oKey := ownerKey tx.owner.account tx.shareId
  let rKey := ownerKey tx.recipient.account tx.shareId
  let oAccountBalance := (← a.view.getN .shareQuantity oKey).getD 0
  match ← a.view.getN .shareQuantity rKey with
  | none => panicAt .shareQuantityCorrupt
  | some rAccountBalance =>
    let a := setBalance a rKey (rAccountBalance - tx.quantity)
    return a.poolPutN .shareQuantity oKey (oAccountBalance + tx.quantity)

/-- Undo a swap. -/
def undoShareSwap (a : Access) (txId : Digest) (tx : ShareSwap) : Except Stop Access := do
  let a := a.poolRemove .transactions txId.bytes
  let ownerOneShareOneKey := ownerKey tx.ownerOne.account tx.shareIdOne
  let ownerOneShareTwoKey := ownerKey tx.ownerOne.account tx.shareIdTwo
  let ownerTwoShareOneKey := ownerKey tx.ownerTwo.account tx.shareIdOne
  let ownerTwoShareTwoKey := ownerKey tx.ownerTwo.account tx.shareIdTwo
  let ownerOneShareOne := (← a.view.getN .shareQuantity ownerOneShareOneKey).getD 0
  let ownerTwoShareTwo := (← a.view.getN .shareQuantity ownerTwoShareTwoKey).getD 0
  match ← a.view.getN .shareQuantity ownerOneShareTwoKey with
  | none => panicAt .shareQuantityCorrupt
  | some ownerOneShareTwo =>
    match ← a.view.getN .shareQuantity ownerTwoShareOneKey with
    | none => panicAt .shareQuantityCorrupt
    | some ownerTwoShareOne =>
      let a := setBalance a ownerTwoShareOneKey (ownerTwoShareOne - tx.quantityOne)
      let a := a.poolPutN .shareQuantity ownerOneShareOneKey (ownerOneShareOne + tx.quantityOne)
      let a := setBalance a ownerOneShareTwoKey (ownerOneShareTwo - tx.quantityTwo)
      return a.poolPutN .shareQuantity ownerTwoShareTwoKey (ownerTwoShareTwo + tx.quantityTwo)

/-- Undo one transaction. Base and foundation records are deleted with the block. -/
def undoTransaction (env : Env) (a : Access) (txId : Digest) (transaction : Transaction) :
    Except Stop Access :=
  match transaction with
  | .oldBaseData _ | .blockFoundation _ => .ok a
  | .assetData tx => .ok (a.poolRemove .assets (tx.assetId env).bytes)
  | .bitmarkIssue tx =>
    if a.view.has .transactions txId.bytes then
      transferOwnership (a.poolRemove .transactions txId.bytes) txId txId 0 tx.owner none
    else .ok a
  | .bitmarkTransferUnratified tx => undoBitmarkTransfer env a txId tx.link tx.owner
  | .bitmarkTransferCountersigned tx => undoBitmarkTransfer env a txId tx.link tx.owner
  | .blockOwnerTransfer tx => undoBlockOwnerTransfer env a txId tx
  | .bitmarkShare tx => undoBitmarkShare env a txId tx
  | .shareGrant tx => undoShareGrant a txId tx
  | .shareSwap tx => undoShareSwap a txId tx

/-- The owner that a base or foundation record names. -/
def Transaction.blockOwner? : Transaction → Option Account
  | .oldBaseData tx => some tx.owner
  | .blockFoundation tx => some tx.owner
  | _ => none

/-! ## Deleting one block -/

/-- The inner loop over the transaction data: the block owner, and the database it leaves. -/
def deleteTransactions (env : Env) :
    Nat → Access → Bytes → Option Account → Except Stop (Option Account) × Access
  | 0, a, _, _ => (.error .outOfSteps, a)
  | fuel + 1, a, data, blockOwner =>
    match a.newDBTransaction with
    | .error e => (.error e, a)
    | .ok trx =>
      match unpack env data env.isTesting with
      | .error e => (.error e, trx.abort)
      | .ok (transaction, n) =>
        match undoTransaction env trx (env.newDigest (data.take n)) transaction with
        | .error e => (.error e, trx)
        | .ok trx =>
          let blockOwner := blockOwner <|> transaction.blockOwner?
          let data := data.drop n
          if data = [] then (.ok blockOwner, trx.commit)
          else deleteTransactions env fuel trx.commit data blockOwner

/-- The foundation loses its owner. With no base or foundation record in the block, the transaction
is aborted, and what follows goes on without it. -/
def releaseFoundation (trx : Access) (foundationId : Digest) (blockOwner : Option Account) :
    Except Stop Access :=
  match blockOwner with
  | none => .ok trx.abort
  | some owner => transferOwnership trx foundationId foundationId 0 owner none

/-- The deletion of the block's own records, up to the commit. -/
def deleteFoundation (env : Env) (trx : Access) (number : UInt64) (digest : BlockDigest)
    (blockOwner : Option Account) : Except Stop Access := do
  let foundationId := foundationTxId env number digest
  let trx := trx.poolRemove .transactions foundationId.bytes
  let trx ← releaseFoundation trx foundationId blockOwner
  let trx := trx.poolRemove .blockOwnerTxIndex foundationId.bytes
  let trx := trx.poolRemove .blockOwnerPayment (be64 number)
  let trx := trx.poolRemove .blocks (be64 number)
  return trx.poolRemove .blockHeaderHash (be64 number)

/-- Delete one block: the packed block before it, and the database it leaves. -/
def deleteBlock (env : Env) (a : Access) (header : Header) (digest : BlockDigest) (data : Bytes) :
    Except Stop (Option Bytes) × Access :=
  match deleteTransactions env (data.length + 1) a data none with
  | (.error e, a) => (.error e, a)
  | (.ok blockOwner, a) =>
    match a.newDBTransaction with
    | .error e => (.error e, a)
    | .ok trx =>
      match deleteFoundation env trx header.number digest blockOwner with
      | .error e => (.error e, trx)
      | .ok trx => (.ok (trx.view.get .blocks (be64 (header.number - 1))), trx.commit)

/-! ## DeleteDownToBlock -/

/-- The value of `difficulty.Current` when deletion stops at a block. -/
def difficultyAtStop (env : Env) (now : UInt64) (node : Node) (header : Header) :
    Except Stop Float64 :=
  if isDifficultyAppliedVersion header.version then
    if header.number ≥ Difficulty.adjustTimespanInBlocks then
      adjustDifficultyAtBlock env now node.access.view node.current header.number
    else .ok Difficulty.minimumReciprocal
  else .ok node.current

/-- The outer loop, at a packed block. -/
def deleteLoop (env : Env) (now : UInt64) (finalBlockNumber : UInt64) :
    Nat → Node → Bytes → Except Stop Unit × Node
  | 0, node, _ => (.error .outOfSteps, node)
  | fuel + 1, node, packedBlock =>
    match extractHeader env now node.access.view packedBlock 0 false with
    | .error e => (.error e, node)
    | .ok (header, digest, data) =>
      if header.number < finalBlockNumber then
        let headerData := ⟨header.number, digest, header.version, header.timestamp⟩
        let node := { node with header := headerData }
        match difficultyAtStop env now node header with
        | .error e => (.error e, node)
        | .ok current => (.ok (), { node with current })
      else
        match deleteBlock env node.access header digest data with
        | (.error e, access) => (.error e, { node with access })
        | (.ok none, access) => (.ok (), { node with access, header := genesisHeader env })
        | (.ok (some previous), access) =>
          deleteLoop env now finalBlockNumber fuel { node with access } previous

/-- `DeleteDownToBlock`: how it returned, and the node it leaves. -/
def deleteDownToBlock (env : Env) (now : UInt64) (finalBlockNumber : UInt64) (node : Node) :
    Except Stop Unit × Node :=
  match Database.lastElement node.access.db .blocks with
  | none => (.ok (), node)
  | some (key, packedBlock) =>
    -- the block numbers go down from the last one
    deleteLoop env now finalBlockNumber ((ofBE64 key).toNat + 1) node packedBlock

end Bitmarkd
