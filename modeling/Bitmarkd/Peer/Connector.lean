import Bitmarkd.Chain.DigestCache
import Bitmarkd.Ledger.Owner
import Bitmarkd.Peer.ForkChoice

/-!
# The connector

`peer/connector.go`: the state machine that brings the chain of a node to that of an elected client.
It looks for the highest block that both have, deletes the blocks above it, and fetches those of the
client. What the clients answer is arbitrary, and may change from turn to turn.
-/

namespace Bitmarkd.Peer

open Lib

/-! ## The state machine -/

/-- `connectorState`. -/
inductive ConnectorState
  | connecting | highestBlock | forkDetect | fetchBlocks | rebuild | sampling
deriving DecidableEq

def samplingLimit : ℕ := 6
def fetchBlocksPerCycle : ℕ := 200
def forkProtection : UInt64 := 60
def minimumClients : ℕ := 5
def fastSyncFetchBlocksPerCycle : ℕ := 2000
def fastSyncSkipPerBlocks : ℕ := 100
def fastSyncPivotBlocks : UInt64 := 1000

/-- What the connector reads during a turn: the clock, how many clients are connected, the client
that is elected with the voted height, what each client answers, the random numbers, and for which
blocks the database write of the commit fails. -/
structure Outside where
  now : UInt64
  clientCount : ℕ
  elected : Option (ℕ × UInt64)
  upstream : ℕ → Upstream
  remoteDigestOfHeight : ℕ → UInt64 → Option BlockDigest
  getBlockData : ℕ → UInt64 → Option Bytes
  intn : ℕ → UInt64
  writeFails : UInt64 → Bool

/-- `connector`, with the node. `halfDone` is not in the source: it records that a call of
`DeleteDownToBlock` has returned an error, or that the database could not be written when a block
was to be stored. -/
structure Connector where
  state : ConnectorState
  theClient : Option ℕ
  startBlockNumber : UInt64
  height : UInt64
  samples : ℕ
  fastSyncEnabled : Bool
  pivotPoint : UInt64
  node : CachingNode
  halfDone : Bool

namespace Connector

/-- `blockheader.Height`. -/
abbrev localHeight (conn : Connector) : UInt64 := conn.node.node.header.height

/-- The connector after `initialise`. -/
def initialise (env : Env) (fastSync : Bool) : Connector :=
  ⟨.connecting, none, 0, 0, 0, fastSync, 0, .fresh env, false⟩

/-- What the fork choice reads. -/
def choice (env : Env) (o : Outside) (conn : Connector) : Bitmarkd.Connector :=
  ⟨conn.theClient.map o.upstream, conn.height, fun n => (conn.node.digestForBlock env o.now n).1⟩

/-- The connector with the cache after a query for the local digest. -/
def queried (env : Env) (o : Outside) (conn : Connector) : Connector :=
  { conn with node :=
      ⟨conn.node.node, (conn.node.digestForBlock env o.now conn.localHeight).2.cache⟩ }

/-- `hasBetterChain`. -/
def hasBetterChain (env : Env) (o : Outside) (conn : Connector) : Bool :=
  (conn.choice env o).hasBetterChain conn.localHeight

/-- The connector after `hasBetterChain`, which asks for the local digest at equal heights. -/
def compared (env : Env) (o : Outside) (conn : Connector) : Connector :=
  if conn.height = conn.localHeight ∧
      conn.theClient.map (fun c => (o.upstream c).localHeight) = some conn.localHeight then
    conn.queried env o
  else conn

/-- `isSameChain`. -/
def isSameChain (env : Env) (o : Outside) (client : ℕ) (conn : Connector) : Bool :=
  match (conn.node.digestForBlock env o.now conn.localHeight).1 with
  | .error _ => false
  | .ok localDigest => conn.height = conn.localHeight ∧
      (o.upstream client).remoteDigestOfLocalHeight = localDigest

/-- `updateHeightAndClient`: the client and the height that are set, unless it returns false. -/
def updateHeightAndClient (o : Outside) : Option (ℕ × UInt64) :=
  o.elected.filter fun e => e.2 ≠ 0

/-- How the loop `check_digests` ends. -/
inductive Search
  | retry | exhausted | found (h : UInt64)
deriving DecidableEq

/-- The loop `check_digests`, from a block number down to the genesis block. -/
def checkDigests (env : Env) (o : Outside) (client : ℕ) (node : Node) :
    ℕ → DigestCache → Search × DigestCache
  | 0, cache => (.exhausted, cache)
  | h + 1, cache =>
    match (⟨node, cache⟩ : CachingNode).digestForBlock env o.now (.ofNat (h + 1)) with
    | (.error _, s) => (.retry, s.cache)
    | (.ok digest, s) =>
      match o.remoteDigestOfHeight client (.ofNat (h + 1)) with
      | none => (.retry, s.cache)
      | some d =>
        if d = digest then (.found (.ofNat (h + 1)), s.cache)
        else checkDigests env o client node h s.cache

/-- `DeleteDownToBlock`: `none` if it panics. -/
def deleteDownToBlock (env : Env) (o : Outside) (finalBlockNumber : UInt64) (conn : Connector) :
    Option Connector :=
  match conn.node.deleteDownToBlock env o.now finalBlockNumber with
  | (.ok (), node) => some { conn with node }
  | (.error (.fault _), node) =>
    some { conn with node, state := .highestBlock, halfDone := true }
  | (.error _, _) => none

/-- What the fork detection sets, with the cache that its search leaves. -/
def detecting (cache : DigestCache) (conn : Connector) : Connector :=
  { conn with
    pivotPoint :=
      if conn.height > fastSyncPivotBlocks then conn.height - fastSyncPivotBlocks else 0
    startBlockNumber := 2
    state := .fetchBlocks
    node := ⟨conn.node.node, cache⟩ }

/-- What the fork detection does with the end of its search. -/
def resolve (env : Env) (o : Outside) (conn : Connector) : Search → Option Connector
  | .retry => some { conn with state := .highestBlock }
  | .exhausted => some conn
  | .found h =>
    if conn.localHeight - h ≥ forkProtection then some { conn with state := .highestBlock }
    else { conn with startBlockNumber := h + 1 }.deleteDownToBlock env o (h + 1)

/-- The fork detection, once the client's chain is better. -/
def findFork (env : Env) (o : Outside) (client : ℕ) (conn : Connector) : Option Connector :=
  let result := checkDigests env o client conn.node.node conn.localHeight.toNat
    conn.node.cache.clearCache
  (conn.detecting result.2).resolve env o result.1

/-- The test of a random block in fast sync: `none` for an error, or whether the digests agree. -/
def probe (env : Env) (o : Outside) (client i : ℕ) (conn : Connector) :
    Option Bool × DigestCache :=
  if conn.fastSyncEnabled ∧ 0 < i ∧ i % fastSyncSkipPerBlocks = 0 then
    let h := conn.startBlockNumber - o.intn i
    match conn.node.digestForBlock env o.now h with
    | (.error _, s) => (none, s.cache)
    | (.ok digest, s) =>
      ((o.remoteDigestOfHeight client h).map fun d => decide (d = digest), s.cache)
  else (some true, conn.node.cache)

/-- The loop `fetch_blocks`, with the turns left, the turns so far and `packedNextBlock`. -/
def fetchLoop (env : Env) (o : Outside) (client : ℕ) :
    ℕ → ℕ → Option Bytes → Connector → Option (Bool × Connector)
  | 0, _, _, conn => some (false, conn)
  | n + 1, i, packedNextBlock, conn =>
    if conn.startBlockNumber > conn.height then some (true, { conn with state := .highestBlock })
    else
      match packedNextBlock <|> o.getBlockData client conn.startBlockNumber with
      | none => some (false, { conn with state := .highestBlock })
      | some packedBlock =>
        match conn.probe env o client i with
        | (none, cache) =>
          some (false, { conn with node := ⟨conn.node.node, cache⟩, state := .highestBlock })
        | (some false, cache) =>
          let startingPoint := conn.startBlockNumber - .ofNat i
          ({ conn with
            node := ⟨conn.node.node, cache⟩, fastSyncEnabled := false, state := .highestBlock,
            startBlockNumber := startingPoint }.deleteDownToBlock env o startingPoint).map
              fun conn => (false, conn)
        | (some true, cache) =>
          let packedNextBlock := if conn.fastSyncEnabled then
            o.getBlockData client (conn.startBlockNumber + 1) else none
          let writeFails := o.writeFails conn.startBlockNumber
          match storeIncoming env o.now writeFails packedBlock packedNextBlock conn.node.node with
          | (.ok (), node) =>
            fetchLoop env o client n (i + 1) packedNextBlock { conn with
              node := ⟨node, cache⟩, startBlockNumber := conn.startBlockNumber + 1 }
          | (.error (.fault _), node) =>
            some (false, { conn with
              node := ⟨node, cache⟩, state := .highestBlock,
              halfDone := conn.halfDone || writeFails })
          | (.error _, _) => none

/-- `blocksPerCycle`. -/
def blocksPerCycle (conn : Connector) : ℕ :=
  if conn.fastSyncEnabled ∧
      conn.pivotPoint ≥ conn.startBlockNumber + .ofNat fastSyncFetchBlocksPerCycle then
    fastSyncFetchBlocksPerCycle
  else fetchBlocksPerCycle

/-- `runStateMachine`: whether it wants more turns; `none` if a call panics. -/
def runStateMachine (env : Env) (o : Outside) (conn : Connector) : Option (Bool × Connector) :=
  match conn.state with
  | .connecting =>
    some (false, { conn with
      state := if minimumClients ≤ o.clientCount then .highestBlock else .connecting })
  | .highestBlock =>
    match updateHeightAndClient o with
    | none => some (false, { conn with height := 0, state := .connecting })
    | some (client, height) =>
      let conn := { conn with theClient := some client, height }
      if conn.hasBetterChain env o then
        some (true, { conn.compared env o with state := .forkDetect })
      else
        let conn := conn.compared env o
        if conn.isSameChain env o client then
          some (true, { conn.queried env o with state := .rebuild })
        else some (false, conn.queried env o)
  | .forkDetect =>
    match conn.hasBetterChain env o, conn.theClient with
    | true, some client =>
      ((conn.compared env o).findFork env o client).map fun conn => (true, conn)
    | _, _ => some (true, { conn.compared env o with state := .rebuild })
  | .fetchBlocks =>
    match conn.theClient with
    | none => none
    | some client => conn.fetchLoop env o client conn.blocksPerCycle 0 none
  | .rebuild => some (false, { conn with state := .sampling, samples := 0 })
  | .sampling =>
    if ¬ minimumClients ≤ o.clientCount then some (true, { conn with state := .connecting })
    else
      match updateHeightAndClient o with
      | some (client, height) =>
        let conn := { conn with theClient := some client, height }
        if conn.hasBetterChain env o then
          some (true, { conn.compared env o with state := .forkDetect })
        else some (false, { conn.compared env o with samples := 0 })
      | none =>
        let conn := { conn with height := 0, samples := conn.samples + 1 }
        if conn.samples > samplingLimit then some (true, { conn with state := .forkDetect })
        else some (false, conn)

/-- `process`: turns until the machine pauses. The first part of the result is true if it has not
paused in the turns that are given. -/
def process (env : Env) : List Outside → Connector → Option (Bool × Connector)
  | [], conn => some (true, conn)
  | o :: os, conn =>
    match conn.runStateMachine env o with
    | none => none
    | some (false, conn) => some (false, conn)
    | some (true, conn) => process env os conn

end Connector

end Bitmarkd.Peer
