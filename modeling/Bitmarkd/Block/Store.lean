import Bitmarkd.BlockRecord
import Bitmarkd.Merkle
import Bitmarkd.Reservoir

/-!
# Storing a block

`block/store.go`. `StoreIncoming` runs in stages: the header is extracted and checked, the
difficulty may be adjusted, every transaction is validated against the committed database, the
first transactions are taken as the foundation, and then all updates go through one database
transaction.

The node is passed explicitly. Every stage that can fail returns `Except Stop`; `storeIncoming`
says what the node is after each kind of failure. The reservoir and the caches of pending records
are not part of the node, nor is the rescan of the reservoir at the end.
-/

namespace Bitmarkd

open Lib

/-! ## The node -/

/-- The data of `blockheader`: the height and the digest, version and timestamp of that block. -/
structure HeaderData where
  height : UInt64
  previousBlock : BlockDigest
  previousVersion : UInt16
  previousTimestamp : UInt64
deriving DecidableEq

/-- The state that block storage works on. -/
structure Node where
  access : Access
  header : HeaderData
  /-- The value of `difficulty.Current`. -/
  current : Float64
  /-- The indexes are being rebuilt from the stored blocks. -/
  rebuild : Bool

/-- `genesis.LiveGenesisDigest`. -/
def liveGenesisDigest : BlockDigest :=
  ⟨[0x5c, 0x93, 0xf7, 0x39, 0xeb, 0x01, 0xcd, 0xde, 0x30, 0x55, 0x79, 0xf0, 0x3c, 0xcf, 0xb3, 0x7a,
    0x74, 0x29, 0x71, 0x31, 0x3f, 0xf9, 0x8d, 0x35, 0xb4, 0xc0, 0x7c, 0x43, 0x8f, 0xaf, 0x12, 0x00],
    rfl⟩

/-- `genesis.TestGenesisDigest`. -/
def testGenesisDigest : BlockDigest :=
  ⟨[0x8a, 0xe6, 0x8b, 0xb8, 0x7c, 0x4a, 0x92, 0x6b, 0x8f, 0x12, 0xc5, 0xee, 0xda, 0x96, 0x95, 0xbb,
    0xde, 0xaa, 0x9b, 0x28, 0x0b, 0x57, 0xbc, 0x16, 0x54, 0x5a, 0x2c, 0x8f, 0x7b, 0x80, 0xfe, 0x00],
    rfl⟩

/-- `setGenesis`. -/
def genesisHeader (env : Env) : HeaderData :=
  ⟨1, if env.isTesting then testGenesisDigest else liveGenesisDigest, 1, 0⟩

/-- A node with an empty database. -/
def Node.fresh (env : Env) : Node :=
  ⟨.ofDb ∅, genesisHeader env, Difficulty.minimumReciprocal, false⟩

/-! ## Validation -/

/-- `txn`: a transaction of the block with what its validation found. -/
structure Txn where
  txId : Digest
  packed : Bytes
  unpacked : Transaction
  linkOwner : Option Account
  blockNumberKey : Bytes
deriving DecidableEq

/-- Validation of the two kinds of bitmark transfer: the owner of the link. -/
def validateBitmarkTransfer (env : Env) (v : View) (link : Digest)
    (pack : Option Account → Except Stop Bytes) : Except Stop Account := do
  match ← ownerOf env v link with
  | none => fault .linkToInvalidOrUnconfirmedTransaction
  | some (_, linkOwner) =>
    let _ ← pack (some linkOwner)
    failIf (¬ currentlyOwns v linkOwner link) .doubleTransferAttempt
    match getOwnerData v link with
    | .error _ => fault .doubleTransferAttempt
    | .ok ownerData =>
      match ownerData.item with
      | .share _ => fault .cannotConvertSharesBackToAssets
      | .asset _ | .block => return linkOwner

/-- Validation of a block owner transfer: the owner of the link and the key of the block that is
transferred. A missing link shows as a missing owner in `Pack`. -/
def validateBlockOwnerTransfer (env : Env) (v : View) (tx : BlockOwnerTransfer) :
    Except Stop (Account × Bytes) := do
  let found ← ownerOf env v tx.link
  let linkOwner := found.map Prod.snd
  let _ ← tx.pack env linkOwner
  match linkOwner with
  | none => panicAt .nilPointer
  | some linkOwner =>
    failIf (¬ currentlyOwns v linkOwner tx.link) .doubleTransferAttempt
    match v.get .blockOwnerTxIndex tx.link.bytes with
    | none => fault .linkToInvalidOrUnconfirmedTransaction
    | some thisBN =>
      checkPayments env tx.version env.isTesting tx.payments
      return (linkOwner, thisBN)

/-- Validation of a share: the owner of the link. -/
def validateBitmarkShare (env : Env) (v : View) (tx : BitmarkShare) : Except Stop Account := do
  match ← ownerOf env v tx.link with
  | none => fault .linkToInvalidOrUnconfirmedTransaction
  | some (_, linkOwner) =>
    let _ ← tx.pack env (some linkOwner)
    match getOwnerData v tx.link with
    | .error _ => fault .doubleTransferAttempt
    | .ok ownerData =>
      match ownerData.item with
      | .asset _ => return linkOwner
      | .block | .share _ => fault .canOnlyConvertAssetsToShares

/-- Validation of one transaction: the link owner and the block number key, where there are such.
`suppress` is `suppressDuplicateRecordChecks`. -/
def validateTransaction (env : Env) (v : View) (suppress : Bool)
    (localAssets : List AssetIdentifier) (txId : Digest) (transaction : Transaction) :
    Except Stop (Option Account × Bytes) :=
  match transaction with
  | .oldBaseData tx => do
    let _ ← tx.pack env (some tx.owner)
    return (none, [])
  | .assetData tx => do
    let _ ← tx.pack env (some tx.registrant)
    failIf (¬ suppress ∧ v.has .assets (tx.assetId env).bytes) .transactionAlreadyExists
    return (none, [])
  | .bitmarkIssue tx => do
    let _ ← tx.pack env (some tx.owner)
    failIf (¬ suppress ∧ v.has .transactions txId.bytes) .transactionAlreadyExists
    failIf (tx.assetId ∉ localAssets ∧ ¬ v.has .assets tx.assetId.bytes) .assetNotFound
    return (none, [])
  | .bitmarkTransferUnratified tx => do
    let linkOwner ← validateBitmarkTransfer env v tx.link (tx.pack env)
    return (some linkOwner, [])
  | .bitmarkTransferCountersigned tx => do
    let linkOwner ← validateBitmarkTransfer env v tx.link (tx.pack env)
    return (some linkOwner, [])
  | .blockFoundation tx => do
    let _ ← tx.pack env (some tx.owner)
    return (none, [])
  | .blockOwnerTransfer tx => do
    let (linkOwner, blockNumberKey) ← validateBlockOwnerTransfer env v tx
    return (some linkOwner, blockNumberKey)
  | .bitmarkShare tx => do
    let linkOwner ← validateBitmarkShare env v tx
    return (some linkOwner, [])
  | .shareGrant tx => do
    let _ ← tx.pack env tx.owner
    let _ ← checkGrantBalance v tx
    return (none, [])
  | .shareSwap tx => do
    let _ ← tx.pack env tx.ownerOne
    let _ ← checkSwapBalances v tx
    return (none, [])

/-- `localAssets` after a transaction. -/
def addLocalAsset (env : Env) (localAssets : List AssetIdentifier) :
    Transaction → List AssetIdentifier
  | .assetData tx => tx.assetId env :: localAssets
  | _ => localAssets

/-- The validation loop, with `count` transactions to go. -/
def validateTransactions (env : Env) (v : View) (suppress : Bool) :
    Nat → Bytes → List AssetIdentifier → Except Stop (List Txn)
  | 0, _, _ => .ok []
  | count + 1, data, localAssets => do
    let (transaction, n) ← unpack env data env.isTesting
    let packed := data.take n
    let txId := env.newDigest packed
    let (linkOwner, blockNumberKey) ←
      validateTransaction env v suppress localAssets txId transaction
    let data := data.drop n
    -- fail if extraneous data after final transaction
    failIf (count = 0 ∧ data ≠ []) .transactionCountOutOfRange
    let rest ← validateTransactions env v suppress count data
      (addLocalAsset env localAssets transaction)
    return ⟨txId, packed, transaction, linkOwner, blockNumberKey⟩ :: rest

/-! ## The foundation -/

/-- What the first transactions determine. -/
structure Foundation where
  packedPayments : Bytes
  packedFoundation : Bytes
  blockOwner : Account
  txStart : Nat
deriving DecidableEq

/-- The first transaction is a foundation record, or one or two base records. -/
def extractFoundation (env : Env) (txs : List Txn) : Except Stop Foundation :=
  match txs with
  | [] => panicAt .indexOutOfRange
  | first :: rest =>
    match first.unpacked with
    | .blockFoundation tx => do
      checkPayments env tx.version env.isTesting tx.payments
      let packedPayments ← tx.payments.pack env env.isTesting
      return ⟨packedPayments, first.packed, tx.owner, 1⟩
    | .oldBaseData tx => do
      tx.currency.validateAddress env tx.paymentAddress env.isTesting
      let currencies := Currency.Map.empty.set tx.currency tx.paymentAddress
      match rest with
      | [] => panicAt .indexOutOfRange
      | second :: _ =>
        match second.unpacked with
        | .oldBaseData tx1 =>
          let packedPayments ←
            (currencies.set tx1.currency tx1.paymentAddress).pack env env.isTesting
          return ⟨packedPayments, first.packed ++ second.packed, tx.owner, 2⟩
        | _ =>
          -- an error of the address conversion is dropped, and leaves an empty address
          let litecoinAddress := match Litecoin.fromBitcoin env tx.paymentAddress with
            | .ok address => address
            | .error _ => []
          let packedPayments ← (currencies.set .litecoin litecoinAddress).pack env env.isTesting
          return ⟨packedPayments, first.packed, tx.owner, 1⟩
    | _ => fault .missingBlockOwner

/-! ## Updates -/

/-- Store a balance, or delete it if it is zero. -/
def setBalance (a : Access) (key : Bytes) (balance : UInt64) : Access :=
  if balance = 0 then a.poolRemove .shareQuantity key else a.poolPutN .shareQuantity key balance

/-- The update of a grant. -/
def updateShareGrant (a : Access) (tx : ShareGrant) : Except Stop Access := do
  let oKey := ownerKey tx.owner.account tx.shareId
  let rKey := ownerKey tx.recipient.account tx.shareId
  match ← a.view.getN .shareQuantity oKey with
  | none => panicAt .readOwnerBalance
  | some oAccountBalance =>
    let rAccountBalance := (← a.view.getN .shareQuantity rKey).getD 0
    let a := setBalance a oKey (oAccountBalance - tx.quantity)
    return a.poolPutN .shareQuantity rKey (rAccountBalance + tx.quantity)

/-- The update of a swap. -/
def updateShareSwap (a : Access) (tx : ShareSwap) : Except Stop Access := do
  let ownerOneShareOneKey := ownerKey tx.ownerOne.account tx.shareIdOne
  let ownerOneShareTwoKey := ownerKey tx.ownerOne.account tx.shareIdTwo
  let ownerTwoShareOneKey := ownerKey tx.ownerTwo.account tx.shareIdOne
  let ownerTwoShareTwoKey := ownerKey tx.ownerTwo.account tx.shareIdTwo
  match ← a.view.getN .shareQuantity ownerOneShareOneKey with
  | none => panicAt .readOwnerOneShareOneBalance
  | some ownerOneShareOne =>
    match ← a.view.getN .shareQuantity ownerTwoShareTwoKey with
    | none => panicAt .readOwnerTwoShareTwoBalance
    | some ownerTwoShareTwo =>
      let ownerOneShareTwo := (← a.view.getN .shareQuantity ownerOneShareTwoKey).getD 0
      let ownerTwoShareOne := (← a.view.getN .shareQuantity ownerTwoShareOneKey).getD 0
      let a := setBalance a ownerOneShareOneKey (ownerOneShareOne - tx.quantityOne)
      let a := a.poolPutN .shareQuantity ownerTwoShareOneKey (ownerTwoShareOne + tx.quantityOne)
      let a := setBalance a ownerTwoShareTwoKey (ownerTwoShareTwo - tx.quantityTwo)
      return a.poolPutN .shareQuantity ownerOneShareTwoKey (ownerOneShareTwo + tx.quantityTwo)

/-- The link owner that validation found. -/
def Txn.requireLinkOwner (item : Txn) : Except Stop Account :=
  match item.linkOwner with
  | none => panicAt .nilPointer
  | some linkOwner => .ok linkOwner

/-- The update of one transaction of block `number`. -/
def updateTransaction (env : Env) (number : UInt64) (a : Access) (item : Txn) :
    Except Stop Access :=
  let storeRecord (a : Access) := a.poolPutNB .transactions item.txId.bytes number item.packed
  match item.unpacked with
  | .oldBaseData _ | .blockFoundation _ => panicAt .shouldNotOccur
  | .assetData tx =>
    let assetId := tx.assetId env
    if a.view.has .assets assetId.bytes then .ok a
    else .ok (a.poolPutNB .assets assetId.bytes number item.packed)
  | .bitmarkIssue tx =>
    if a.view.has .transactions item.txId.bytes then .ok a
    else createAsset (storeRecord a) item.txId number tx.assetId tx.owner
  | .bitmarkTransferUnratified tx => do
    let linkOwner ← item.requireLinkOwner
    transferOwnership (storeRecord a) tx.link item.txId number linkOwner (some tx.owner)
  | .bitmarkTransferCountersigned tx => do
    let linkOwner ← item.requireLinkOwner
    transferOwnership (storeRecord a) tx.link item.txId number linkOwner (some tx.owner)
  | .blockOwnerTransfer tx =>
    match tx.payments.pack env env.isTesting with
    | .error _ => panicAt .packShouldNotError
    | .ok pkPayments => do
      let linkOwner ← item.requireLinkOwner
      let a := storeRecord a
      let a := a.poolPut .blockOwnerPayment item.blockNumberKey pkPayments
      let a := a.poolPut .blockOwnerTxIndex item.txId.bytes item.blockNumberKey
      let a := a.poolRemove .blockOwnerTxIndex tx.link.bytes
      transferOwnership a tx.link item.txId number linkOwner (some tx.owner)
  | .bitmarkShare tx => do
    let linkOwner ← item.requireLinkOwner
    share (storeRecord a) tx.link item.txId number linkOwner tx.quantity
  | .shareGrant tx => do
    let a ← updateShareGrant a tx
    return storeRecord a
  | .shareSwap tx => do
    let a ← updateShareSwap a tx
    return storeRecord a

/-- The update loop. -/
def updateTransactions (env : Env) (number : UInt64) : Access → List Txn → Except Stop Access
  | a, [] => .ok a
  | a, item :: rest => do
    let a ← updateTransaction env number a item
    updateTransactions env number a rest

/-- The records of the block itself: its payments and its foundation. -/
def updateFoundation (env : Env) (header : Header) (digest : BlockDigest)
    (foundation : Foundation) (a : Access) : Except Stop Access :=
  let key := be64 header.number
  let foundationId := foundationTxId env header.number digest
  let a := a.poolPut .blockOwnerPayment key foundation.packedPayments
  let a := a.poolPutNB .transactions foundationId.bytes header.number foundation.packedFoundation
  let a := a.poolPut .blockOwnerTxIndex foundationId.bytes key
  createBlock a foundationId header.number foundation.blockOwner

/-- All updates of the database transaction. A rebuild does not store the block again. -/
def updateBlock (env : Env) (height : UInt64) (rebuild : Bool) (packedBlock : Bytes)
    (header : Header) (digest : BlockDigest) (txs : List Txn) (foundation : Foundation)
    (a : Access) : Except Stop Access := do
  let a ← updateTransactions env header.number a (txs.drop foundation.txStart)
  let a ← updateFoundation env header digest foundation a
  panicIf (height + 1 ≠ header.number) .outOfSequenceBlock
  return if rebuild then a else
    (a.poolPut .blocks (be64 header.number) packedBlock).poolPut .blockHeaderHash
      (be64 header.number) digest.bytes

/-! ## StoreIncoming -/

/-- The header, digest and transaction data of the incoming block. With the next block at hand
(fast sync) the digest is taken from there. -/
def extractIncoming (env : Env) (now : UInt64) (node : Node) (packedBlock : Bytes)
    (packedNextBlock : Option Bytes) : Except Stop (Header × BlockDigest × Bytes) :=
  let v := node.access.view
  let height := node.header.height
  match packedNextBlock with
  | some packedNextBlock => do
    let (header, _, data) ← extractHeader env now v packedBlock (height + 1) true
    let (nextHeader, _, _) ← extractHeader env now v packedNextBlock (height + 2) true
    return (header, nextHeader.previousBlock, data)
  | none => extractHeader env now v packedBlock (height + 1) false

/-- The value of `difficulty.Current` that the block is checked against. -/
def incomingDifficulty (env : Env) (now : UInt64) (node : Node) (header : Header) :
    Except Stop Float64 :=
  if isBlockToAdjustDifficulty header.number header.version then
    adjustDifficultyAtBlock env now node.access.view node.current header.number
  else .ok node.current

/-- The proof of work and the linkage, which fast sync does not check. -/
def checkLinkage (env : Env) (node : Node) (header : Header) (digest : BlockDigest) :
    Except Stop Unit := do
  failIf (¬ isValidByDifficulty env digest header.difficulty) .invalidBlockHeaderDifficulty
  validBlockLinkage node.header.previousBlock header.previousBlock

/-- The checks on the header after the difficulty is known. -/
def checkIncoming (env : Env) (node : Node) (fastSync : Bool) (header : Header)
    (digest : BlockDigest) : Except Stop Unit := do
  validIncomingDifficulty env node.current header
  (if fastSync then .ok () else checkLinkage env node header digest)
  if node.header.previousTimestamp > header.timestamp then
    validBlockTimeSpacingAtVersion header.version
      (node.header.previousTimestamp - header.timestamp)
  else .ok ()

/-- Validation of all transactions, and the foundation. -/
def validateBlock (env : Env) (node : Node) (header : Header) (data : Bytes) :
    Except Stop (List Txn × Foundation) := do
  let txs ← validateTransactions env node.access.view (header.version = 1)
    header.transactionCount.toNat data []
  failIf (merkleRoot env (txs.map Txn.txId) ≠ header.merkleRoot) .merkleRootDoesNotMatch
  let foundation ← extractFoundation env txs
  failIf (txs.length < foundation.txStart) .transactionCountOutOfRange
  return (txs, foundation)

/-- `StoreIncoming`: how it returned, and the node it leaves. `writeFails` says whether the
database write of the commit fails. -/
def storeIncoming (env : Env) (now : UInt64) (writeFails : Bool) (packedBlock : Bytes)
    (packedNextBlock : Option Bytes) (node : Node) : Except Stop Unit × Node :=
  match extractIncoming env now node packedBlock packedNextBlock with
  | .error e => (.error e, node)
  | .ok (header, digest, data) =>
    match validHeaderVersion node.header.previousVersion header.version with
    | .error e => (.error e, node)
    | .ok () =>
      match incomingDifficulty env now node header with
      -- only here is the difficulty set back: the deferred function sees no later error
      | .error e => (.error e, { node with current := Difficulty.set node.current })
      | .ok current =>
        let node := { node with current }
        match checkIncoming env node packedNextBlock.isSome header digest with
        | .error e => (.error e, node)
        | .ok () =>
          match validateBlock env node header data with
          | .error e => (.error e, node)
          | .ok (txs, foundation) =>
            match node.access.newDBTransaction with
            | .error e => (.error e, node)
            | .ok a =>
              match updateBlock env node.header.height node.rebuild packedBlock header digest txs
                  foundation a with
              | .error e => (.error e, node)
              | .ok a =>
                -- the header data is set before the commit, which can still fail
                let headerData := ⟨header.number, digest, header.version, header.timestamp⟩
                let (result, access) := a.commitTransaction writeFails
                let node := { node with header := headerData, access }
                if node.rebuild then (.ok (), node) else (result, node)

end Bitmarkd
