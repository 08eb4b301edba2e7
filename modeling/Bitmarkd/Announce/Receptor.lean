import Bitmarkd.Announce.Helper
import Bitmarkd.Avl.Walk
import Bitmarkd.Fault

/-!
# The tree of announced peers

`announce/receptor/receptor.go`: the peers that this node knows, in an AVL tree by their public
keys, and a pointer to the node of this one. `Expire` goes through the tree from node to node and
deletes the old peers on the way; it takes the next node before it deletes one, and relies on the
tree to leave the other nodes where they are. `ReBalance` tells the connector which peers to connect
to, by their places in the ring of the keys.
-/

namespace Bitmarkd.Announce

open Lib Avl

/-! ## The source -/

/-- `Entity`. -/
structure Entity where
  publicKey : Bytes
  listeners : Bytes
  timestamp : ℤ
deriving DecidableEq

/-- `ID.Compare`. -/
def compareId (a b : Bytes) : ℤ := if a < b then -1 else if a = b then 0 else 1

/-- The tree, with the memory of its nodes. -/
abbrev Connectable := Memory Bytes Entity

/-- The recursions over the tree are not deeper than its number of nodes. -/
def depthOf (m : Connectable) : ℕ := m.count.toNat + 1

/-- `receptor`. -/
structure Receptor where
  connectable : Connectable
  self : Pointer
  changed : Bool
  id : Bytes
  initialised : Bool
  listeners : Bytes

/-- A call; `none` if it panics. -/
abbrev Call := StateT Receptor Option

/-- What is done on the tree. -/
def onTree {α : Type} (code : Code Bytes Entity α) : Call α := fun r =>
  (code r.connectable).map fun (x, connectable) => (x, { r with connectable })

/-- The names of the messages to the connector: what a peer is taken for, or `@D`. -/
inductive Command
  | N1 | N3 | X1 | X2 | X3 | X4 | X5 | X6 | X7 | P1 | P3
  | delete
deriving DecidableEq, Repr

/-- A message to the connector. -/
structure Message where
  command : Command
  publicKey : Bytes
  listeners : Bytes
deriving DecidableEq

/-- `node.Value().(*Entity)`. -/
def entityOf (node : Pointer) : Code Bytes Entity Entity := do
  match (← deref node).value with
  | none => failure
  | some e => return e

/-- `node.Key()`. -/
def keyOf (node : Pointer) : Code Bytes Entity Bytes := do
  match (← deref node).key with
  | none => failure
  | some key => return key

namespace Receptor

/-- `New`. -/
def new : Receptor :=
  ⟨⟨fun _ => ⟨none, none, none, none, none, 0, 0, 0⟩, none, 0, none, 0, 0⟩, none, false, [], false,
    []⟩

/-- The entity of a node that was found is too young to be replaced. -/
def isRecent (ts : ℤ) : Pointer → Call Bool
  | none => return false
  | some a => do
    let e ← onTree (entityOf (some a))
    return ts - e.timestamp < rebroadcastInterval

/-- The end of `Add`, from the insertion on. Data of this node itself is not relayed. -/
def insertEntity (depth : ℕ) (e : Entity) : Call Bool := do
  let recordAdded ← onTree (treeInsert compareId depth e.publicKey (some e))
  if (← get).id = e.publicKey then return false
  else
    modify fun r => { r with changed := r.changed || recordAdded }
    return true

/-- `Add`. -/
def add (now : ℤ) (publicKey listeners : Bytes) (timestamp : UInt64) : Call Bool :=
  let ts := resetFutureTimestampToNow now timestamp
  if isExpiredAfterDuration now ts expiryInterval then return false
  else do
    let depth := depthOf (← get).connectable
    let (node, _) ← onTree (treeSearch compareId depth publicKey)
    if ← isRecent ts node then return false
    else insertEntity depth ⟨publicKey, listeners, ts⟩

/-- What `ReBalance` is looking for: the offsets around the ring, before they are wrapped. -/
def offsets (index count : ℤ) : List (Command × ℤ) :=
  let e := count / 8
  let q := count / 4
  let h := count / 2
  let jump := if count < 4 then 1 else 3
  [(.N1, index + 1), (.N3, index + jump), (.X1, e + index), (.X2, q + index),
    (.X3, q + e + index), (.X4, h + index), (.X5, h + e + index), (.X6, h + q + index),
    (.X7, h + q + e + index), (.P1, index + count - 1), (.P3, index + count - jump)]

/-- The message about the node at an offset, if there is one. -/
def connectTo (depth : ℕ) (command : Command) (v : ℤ) : Code Bytes Entity (List Message) := do
  match ← treeGet depth v with
  | none => return []
  | some a =>
    let e ← entityOf (some a)
    return [⟨command, e.publicKey, e.listeners⟩]

/-- The loop `deduplicate` of `ReBalance`, with the last offset that was used. -/
def deduplicate (depth : ℕ) (index count : ℤ) : ℤ → List (Command × ℤ) →
    Code Bytes Entity (List Message)
  | _, [] => return []
  | u, (command, v) :: n =>
    if v = index ∨ v = u then deduplicate depth index count u n
    else do
      let messages ← connectTo depth command (if v ≥ count then v - count else v)
      return messages ++ (← deduplicate depth index count v n)

/-- `ReBalance`. -/
def reBalance : Call (List Message) := do
  let r ← get
  match r.self with
  | none => return []
  | some a =>
    let depth := depthOf r.connectable
    let key ← onTree (keyOf (some a))
    let (_, index) ← onTree (treeSearch compareId depth key)
    let count := r.connectable.count
    onTree (deduplicate depth index count (-1) (offsets index count))

/-- The end of `SetSelf`: the own node is looked up. -/
def findSelf (publicKey : Bytes) : Call (List Message) := do
  let depth := depthOf (← get).connectable
  let (self, _) ← onTree (treeSearch compareId depth publicKey)
  modify fun r => { r with self }
  reBalance

/-- `SetSelf`, with the messages of its `ReBalance`. -/
def setSelf (now : ℤ) (publicKey listeners : Bytes) : Call (Except Fault (List Message)) := do
  if (← get).initialised then return .error .alreadyInitialised
  else
    modify fun r => { r with id := publicKey, listeners, initialised := true }
    let _ ← add now publicKey listeners (unixSeconds now)
    return .ok (← findSelf publicKey)

/-- `UpdateTime`. -/
def updateTime (publicKey : Bytes) (timestamp : ℤ) : Call Unit := do
  let depth := depthOf (← get).connectable
  let (node, _) ← onTree (treeSearch compareId depth publicKey)
  match node with
  | none => return ()
  | some a =>
    let e ← onTree (entityOf (some a))
    onTree (assign (some a) ({ · with value := some { e with timestamp } }))

/-- `IsChanged` and then `Change`, as the broadcaster calls them. -/
def change (changed : Bool) : Call Unit := modify fun r => { r with changed }

/-- The loop `scanNodes` of `Expire`, in at most so many turns, with the nodes that it visits. -/
def expireLoop (depth : ℕ) (now : ℤ) : ℕ → Pointer → Call (List Addr × List Message)
  | 0, _ => failure
  | _ + 1, none => return ([], [])
  | turns + 1, some a => do
    let peer ← onTree (entityOf (some a))
    let key ← onTree (keyOf (some a))
    let nextNode ← onTree (next compareId depth (some a))
    if (← get).id ≠ peer.publicKey ∧ peer.timestamp + expiryInterval < now then
      let _ ← onTree (treeDelete compareId depth key)
      modify fun r => { r with changed := true }
      let (visited, messages) ← expireLoop depth now turns nextNode
      return (a :: visited, ⟨.delete, peer.publicKey, peer.listeners⟩ :: messages)
    else
      let (visited, messages) ← expireLoop depth now turns nextNode
      return (a :: visited, messages)

/-- `Expire`. -/
def expire (now : ℤ) : Call (List Addr × List Message) := do
  let depth := depthOf (← get).connectable
  let nextNode ← onTree (treeFirst depth)
  expireLoop depth now depth nextNode

end Receptor

end Bitmarkd.Announce
