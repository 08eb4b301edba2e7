import Bitmarkd.Node

/-!
# A small network

Runs on concrete blocks need concrete hash functions and keys. On this local chain every signature
verifies, and the digest of a string is its last 32 bytes; a packed record ends in a signature, so
the id of a record can be chosen.
-/

namespace Bitmarkd.Sample

open Lib

/-- The network. The digest of a header is its merkle root. -/
def env : Env where
  sha3Sum256 b := .ofSlice 32 (b.drop (b.length - 32))
  sha3Sum384 b := .ofSlice 48 (b.drop (b.length - 48))
  sha3Sum512 b := .ofSlice 64 b
  sha256Sum _ := .zero 32
  argon2Hash b := .ofSlice 32 (b.drop 44)
  ed25519Verify _ _ _ := true
  reciprocalOfBits u := u
  nextDifficultyByPreviousTimespan _ _ := 0x4000000000000000
  scaledDifficulty _ := 0
  chain := .local

theorem length_replicate_key (k : UInt8) : (List.replicate 32 k).length = 32 :=
  List.length_replicate

/-- The accounts: their keys are one byte repeated. -/
def account (k : UInt8) : Account :=
  ⟨.ed25519, true, List.replicate 32 k, length_replicate_key k⟩

/-- The signature that gives a record the id `id k`. -/
def signature (k : UInt8) : Bytes := List.replicate 64 k

/-- The digests: one byte repeated. -/
def id (k : UInt8) : Digest := ⟨List.replicate 32 k, length_replicate_key k⟩

/-- A testing address, for bitcoin and for litecoin. -/
def address : Bytes := 0x6e :: List.replicate 33 0x31

def payments : Currency.Map := ⟨none, some address, some address⟩

/-- The packed record; whoever signs, the bytes are the same. -/
def packed (tx : Transaction) : Bytes :=
  let signer := some (account 1)
  let result := match tx with
    | .oldBaseData tx => tx.pack env signer
    | .assetData tx => tx.pack env signer
    | .bitmarkIssue tx => tx.pack env signer
    | .bitmarkTransferUnratified tx => tx.pack env signer
    | .bitmarkTransferCountersigned tx => tx.pack env signer
    | .blockFoundation tx => tx.pack env signer
    | .blockOwnerTransfer tx => tx.pack env signer
    | .bitmarkShare tx => tx.pack env signer
    | .shareGrant tx => tx.pack env tx.owner
    | .shareSwap tx => tx.pack env tx.ownerOne
  result.toOption.getD []

/-! ## Records -/

/-- The foundation record of every block. -/
def foundation : Transaction := .blockFoundation ⟨1, payments, account 1, 0, signature 0xf0⟩

/-- The asset with fingerprint `k`. -/
def asset (k : UInt8) : Transaction := .assetData ⟨[], [k], [], account 1, signature (0xa0 + k)⟩

/-- The issue of asset `k` with id `id s` to an account. -/
def issue (k s o : UInt8) : Transaction :=
  .bitmarkIssue ⟨env.sha3Sum512 [k], account o, 0, signature s⟩

/-- The transfer `id s` of `link` to an account. -/
def transfer (link : Digest) (s o : UInt8) : Transaction :=
  .bitmarkTransferUnratified ⟨link, none, account o, signature s⟩

/-- The share record `id s` that converts `link`. -/
def share (link : Digest) (s : UInt8) (quantity : UInt64) : Transaction :=
  .bitmarkShare ⟨link, quantity, signature s⟩

/-- The grant `id s` of shares from one account to another. -/
def grant (shareId : Digest) (s o r : UInt8) (quantity : UInt64) : Transaction :=
  .shareGrant ⟨shareId, quantity, ⟨0, account o⟩, ⟨1, account r⟩, 100, signature s, signature s⟩

/-! ## Blocks -/

/-- The header of a block of difficulty one with these transactions. -/
def header (version : UInt16) (number : UInt64) (previousBlock : BlockDigest) (timestamp : UInt64)
    (txs : List Transaction) : Header :=
  ⟨version, UInt16.ofNat txs.length, number, previousBlock,
    merkleRoot env (txs.map fun tx => env.newDigest (packed tx)), timestamp,
    ⟨Difficulty.oneUint64, Difficulty.one, Difficulty.minimumReciprocal⟩, 0⟩

/-- The block. -/
def block (version : UInt16) (number : UInt64) (previousBlock : BlockDigest) (timestamp : UInt64)
    (txs : List Transaction) : Bytes :=
  (header version number previousBlock timestamp txs).pack ++ (txs.map packed).flatten

/-- The header of a block reads back. -/
theorem headerOf_block {version : UInt16} {number : UInt64} {previousBlock : BlockDigest}
    {timestamp : UInt64} {txs : List Transaction}
    (hcounts : checkHeaderCounts version (UInt16.ofNat txs.length) number = .ok ())
    (htime : timestamp ≤ 1000) :
    HeaderOf env ((block version number previousBlock timestamp txs).take totalBlockSize)
      (header version number previousBlock timestamp txs) := by
  refine ⟨700, ?_⟩
  rw [block, List.take_left' (length_pack _)]
  exact unpackHeader_pack.mpr ⟨hcounts, UInt64.not_lt.mpr htime, rfl⟩

/-- A call that stores a block by fast sync, so that its digest is `digest`. -/
def fastSync (packedBlock : Bytes) (number : UInt64) (digest : BlockDigest) : Op :=
  .storeIncoming 1000 packedBlock
    (some (block 2 (number + 1) digest 100 [foundation, asset 0]))

/-- The calls that store these transactions, a block with each of the lists, by fast sync. The
digest of block `n` is `id n`. -/
def storeAll : UInt64 → List (List Transaction) → List Op
  | _, [] => []
  | number, txs :: rest =>
    fastSync (block 2 number testGenesisDigest 10 (foundation :: txs)) number
      (id (UInt8.ofNat number.toNat)) :: storeAll (number + 1) rest

/-! ## Runs -/

/-- The node after calls that all succeed. -/
def after (ops : List Op) : Node := (runOps env ops (Node.fresh env)).getD (Node.fresh env)

theorem nodeRun_after {ops : List Op} (h : (runOps env ops (Node.fresh env)).isSome = true) :
    NodeRun env (traceOps env ops (Node.fresh env)) (after ops) := by
  obtain ⟨node, hnode⟩ := Option.isSome_iff_exists.mp h
  rw [after, hnode, Option.getD_some]
  exact run_of_runOps hnode

theorem step_of_isOk {op : Op} {node : Node} (h : (op.run env node).1.isOk = true) :
    Step env node op (op.run env node).2 := by
  rcases hrun : op.run env node with ⟨result, node'⟩
  rw [hrun] at h
  cases result with
  | error s => cases h
  | ok u => exact hrun

end Bitmarkd.Sample
