import Bitmarkd.Block.Records
import Bitmarkd.Lib.Run

/-!
# Runs of a node

The two calls that change the stored chain, `StoreIncoming` and `DeleteDownToBlock`, are the
operations of a transition system whose steps are the calls that return without error (`Step`).
Both are brought to what a successful call has computed: `Accepted` for the stages of
`StoreIncoming`, `Undone` and `Deleting` for the two loops of `DeleteDownToBlock`.
-/

namespace Bitmarkd

open Lib

/-! ## Operations -/

/-- A call, with the reading of the clock during it. -/
inductive Op
  | storeIncoming (now : UInt64) (packedBlock : Bytes) (packedNextBlock : Option Bytes)
  | deleteDownToBlock (now : UInt64) (finalBlockNumber : UInt64)
deriving DecidableEq

/-- The call; database writes succeed. -/
def Op.run (env : Env) : Op → Node → Except Stop Unit × Node
  | .storeIncoming now packedBlock packedNextBlock =>
    Bitmarkd.storeIncoming env now false packedBlock packedNextBlock
  | .deleteDownToBlock now finalBlockNumber => Bitmarkd.deleteDownToBlock env now finalBlockNumber

/-- A call that returns without error. -/
def Step (env : Env) (node : Node) (op : Op) (node' : Node) : Prop :=
  op.run env node = (.ok (), node')

/-- A run of successful calls from a fresh node. -/
abbrev NodeRun (env : Env) (trace : List (Node × Op)) (node : Node) : Prop :=
  Run (Step env) (Node.fresh env) trace node

/-- Run calls one after the other, as long as they succeed. -/
def runOps (env : Env) : List Op → Node → Option Node
  | [], node => some node
  | op :: ops, node =>
    match op.run env node with
    | (.ok (), node) => runOps env ops node
    | (.error _, _) => none

/-- The calls, each with the node it starts from. -/
def traceOps (env : Env) : List Op → Node → List (Node × Op)
  | [], _ => []
  | op :: ops, node => (node, op) :: traceOps env ops (op.run env node).2

/-- Calls that all succeed make a run. -/
theorem run_of_runOps {env : Env} {ops : List Op} {node node' : Node}
    (h : runOps env ops node = some node') :
    Run (Step env) node (traceOps env ops node) node' := by
  induction ops generalizing node with
  | nil =>
    cases h
    exact .nil
  | cons op ops ih =>
    unfold runOps at h
    split at h
    next node₁ hop =>
      have hrest := ih h
      rw [traceOps, hop]
      exact (Run.single hop).append hrest
    next => cases h

/-- A property that a run of calls is computed to end with. -/
theorem exists_nodeRun (env : Env) (ops : List Op) {P : Node → Bool}
    (h : (runOps env ops (Node.fresh env)).any P = true) :
    ∃ node, NodeRun env (traceOps env ops (Node.fresh env)) node ∧ P node = true := by
  obtain ⟨node, hrun, hP⟩ := (Option.any_eq_true _ _).mp h
  exact ⟨node, run_of_runOps hrun, hP⟩

/-! ## The strings that are hashed -/

/-- The packed records in some data, at most `fuel` of them. -/
def splitRecords (env : Env) : Nat → Bytes → List Bytes
  | 0, _ => []
  | fuel + 1, data =>
    match unpack env data env.isTesting with
    | .error _ => []
    | .ok (_, n) => data.take n :: splitRecords env fuel (data.drop n)

theorem Records.length_le {env : Env} {data : Bytes} {rs : List (Bytes × Transaction)}
    (h : Records env data rs) : rs.length ≤ data.length := by
  induction h with
  | nil => exact le_rfl
  | cons hr _ ih =>
    have := hr.length_pos
    simp only [List.length_cons, List.length_append]
    omega

theorem Records.mem_splitRecords {env : Env} {data : Bytes} {rs : List (Bytes × Transaction)}
    (h : Records env data rs) {fuel : Nat} (hfuel : rs.length ≤ fuel) :
    ∀ r ∈ rs, r.1 ∈ splitRecords env fuel data := by
  induction h generalizing fuel with
  | nil => simp
  | @cons packed data tx rs hr _ ih =>
    obtain ⟨fuel, rfl⟩ : ∃ k, fuel = k + 1 := ⟨fuel - 1, by simp at hfuel; omega⟩
    simp only [splitRecords, hr.unpack_append data, List.take_left', List.drop_left']
    intro r hmem
    rcases List.mem_cons.mp hmem with rfl | hmem
    · exact List.mem_cons_self
    · exact List.mem_cons_of_mem _ (ih (by simpa using hfuel) r hmem)

/-- The number in the header of a packed block. -/
def blockNumberOf (packedBlock : Bytes) : UInt64 :=
  ofLE64 ((packedBlock.take totalBlockSize).drop 4)

/-- The strings that tx ids are hashes of when a block is stored, and deleted again: its records,
and the strings of its foundation, by the digest of the header and by the one that the next block
has. -/
def Op.hashed (env : Env) : Op → List Bytes
  | .storeIncoming _ packedBlock packedNextBlock =>
    let number := blockNumberOf packedBlock
    splitRecords env packedBlock.length (packedBlock.drop totalBlockSize) ++
      foundationBytes number (env.argon2Hash (packedBlock.take totalBlockSize)) ::
      packedNextBlock.toList.map fun next =>
        foundationBytes number (.ofSlice 32 ((next.take totalBlockSize).drop 12))
  | .deleteDownToBlock _ _ => []

/-- The strings hashed in a run. -/
def hashedIn (env : Env) (trace : List (Node × Op)) : List Bytes :=
  trace.flatMap fun x => x.2.hashed env

/-- No two strings that are hashed in the run have the same hash. -/
def CollisionFree (env : Env) (trace : List (Node × Op)) : Prop :=
  ∀ s ∈ hashedIn env trace, ∀ t ∈ hashedIn env trace, env.newDigest s = env.newDigest t → s = t

instance (env : Env) (trace : List (Node × Op)) : Decidable (CollisionFree env trace) :=
  inferInstanceAs (Decidable (∀ s ∈ hashedIn env trace, ∀ t ∈ hashedIn env trace,
    env.newDigest s = env.newDigest t → s = t))

/-! ## StoreIncoming -/

/-- What `StoreIncoming` has computed when it begins the database transaction. -/
structure Incoming where
  header : Header
  digest : BlockDigest
  data : Bytes
  current : Float64
  txs : List Txn
  foundation : Foundation

/-- The transactions that the update loop applies. -/
def Incoming.items (i : Incoming) : List Txn := i.txs.drop i.foundation.txStart

/-- Every stage before the database transaction accepts the block. -/
structure Accepted (env : Env) (now : UInt64) (packedBlock : Bytes)
    (packedNextBlock : Option Bytes) (node : Node) (i : Incoming) : Prop where
  extract : extractIncoming env now node packedBlock packedNextBlock =
    .ok (i.header, i.digest, i.data)
  version : validHeaderVersion node.header.previousVersion i.header.version = .ok ()
  difficulty : incomingDifficulty env now node i.header = .ok i.current
  check : checkIncoming env { node with current := i.current } packedNextBlock.isSome i.header
    i.digest = .ok ()
  validate : validateBlock env node i.header i.data = .ok (i.txs, i.foundation)

section Store

variable {env : Env} {now : UInt64} {packedBlock : Bytes} {packedNextBlock : Option Bytes}
  {node node' : Node} {i i' : Incoming}

/-- The node after `StoreIncoming` stored a block. -/
def Node.stored (node : Node) (i : Incoming) (a : Access) : Node :=
  { node with
    current := i.current
    header := ⟨i.header.number, i.digest, i.header.version, i.header.timestamp⟩
    access := a.commit }

/-- A block that comes to the commit. The header data is set even if the write fails. -/
theorem storeIncoming_of_accepted {a : Access} {writeFails : Bool}
    (hacc : Accepted env now packedBlock packedNextBlock node i) (huse : node.access.inUse = false)
    (hupdate : updateBlock env node.header.height node.rebuild packedBlock i.header i.digest i.txs
      i.foundation node.access.begin = .ok a) :
    storeIncoming env now writeFails packedBlock packedNextBlock node =
      (if node.rebuild then .ok () else (a.commitTransaction writeFails).1,
        { node.stored i a with access := (a.commitTransaction writeFails).2 }) := by
  have hvalid : validateBlock env { node with current := i.current } i.header i.data =
    .ok (i.txs, i.foundation) := hacc.validate
  simp only [storeIncoming, hacc.extract, hacc.version, hacc.difficulty, hacc.check, hvalid,
    hupdate,
    Access.newDBTransaction, huse, Bool.false_eq_true, if_false]
  split <;> rfl

/-- **A call of `StoreIncoming`** comes to the commit, or stops before it and changes at most the
current difficulty. -/
theorem storeIncoming_cases (env : Env) (now : UInt64) (writeFails : Bool) (packedBlock : Bytes)
    (packedNextBlock : Option Bytes) (node : Node) :
    (∃ i a, Accepted env now packedBlock packedNextBlock node i ∧ node.access.inUse = false ∧
      updateBlock env node.header.height node.rebuild packedBlock i.header i.digest i.txs
        i.foundation node.access.begin = .ok a) ∨
    ∃ e current, storeIncoming env now writeFails packedBlock packedNextBlock node =
      (.error e, { node with current }) := by
  unfold storeIncoming
  split
  · exact .inr ⟨_, _, rfl⟩
  next header digest data hextract =>
    split
    · exact .inr ⟨_, _, rfl⟩
    next hversion =>
      split
      · exact .inr ⟨_, _, rfl⟩
      next current hdiff =>
        dsimp only
        split
        · exact .inr ⟨_, _, rfl⟩
        next hcheck =>
          split
          · exact .inr ⟨_, _, rfl⟩
          next txs foundation hvalid =>
            split
            · exact .inr ⟨_, _, rfl⟩
            next trx htrx =>
              split
              · exact .inr ⟨_, _, rfl⟩
              next a hupdate =>
                obtain ⟨huse, rfl⟩ := newDBTransaction_eq_ok.mp htrx
                exact .inl ⟨⟨header, digest, data, current, txs, foundation⟩, a,
                  ⟨hextract, hversion, hdiff, hcheck, hvalid⟩, huse, hupdate⟩

/-- **`StoreIncoming` succeeds** when every stage accepts the block and all updates go through. -/
theorem storeIncoming_eq_ok :
    storeIncoming env now false packedBlock packedNextBlock node = (.ok (), node') ↔
      ∃ i a, Accepted env now packedBlock packedNextBlock node i ∧ node.access.inUse = false ∧
        updateBlock env node.header.height node.rebuild packedBlock i.header i.digest i.txs
          i.foundation node.access.begin = .ok a ∧ node' = node.stored i a := by
  have hresult {i : Incoming} {a : Access}
      (hacc : Accepted env now packedBlock packedNextBlock node i)
      (huse : node.access.inUse = false)
      (hupdate : updateBlock env node.header.height node.rebuild packedBlock i.header i.digest i.txs
        i.foundation node.access.begin = .ok a) :
      storeIncoming env now false packedBlock packedNextBlock node =
        (.ok (), node.stored i a) := by
    simp [storeIncoming_of_accepted hacc huse hupdate, Access.commitTransaction, Node.stored]
  constructor
  · intro h
    obtain ⟨i, a, hacc, huse, hupdate⟩ | ⟨e, current, herror⟩ :=
      storeIncoming_cases env now false packedBlock packedNextBlock node
    · rw [hresult hacc huse hupdate] at h
      exact ⟨i, a, hacc, huse, hupdate, (Prod.mk.inj h).2.symm⟩
    · rw [herror] at h
      cases h
  · rintro ⟨i, a, hacc, huse, hupdate, rfl⟩
    exact hresult hacc huse hupdate

/-- A rejected block changes at most the current difficulty. -/
theorem storeIncoming_error {e : Stop}
    (h : storeIncoming env now false packedBlock packedNextBlock node = (.error e, node')) :
    ∃ current, node' = { node with current } := by
  obtain ⟨i, a, hacc, huse, hupdate⟩ | ⟨e, current, herror⟩ :=
    storeIncoming_cases env now false packedBlock packedNextBlock node
  · cases h.symm.trans (storeIncoming_eq_ok.mpr ⟨i, a, hacc, huse, hupdate, rfl⟩)
  · exact ⟨current, (Prod.mk.inj (h.symm.trans herror)).2⟩

/-- A block is only stored if the database is written. -/
theorem storeIncoming_writes {writeFails : Bool} (hrebuild : node.rebuild = false)
    (h : storeIncoming env now writeFails packedBlock packedNextBlock node = (.ok (), node')) :
    writeFails = false := by
  obtain ⟨i, a, hacc, huse, hupdate⟩ | ⟨e, current, herror⟩ :=
    storeIncoming_cases env now writeFails packedBlock packedNextBlock node
  · rw [storeIncoming_of_accepted hacc huse hupdate, hrebuild] at h
    cases writeFails with
    | false => rfl
    | true => cases (Prod.mk.inj h).1
  · cases h.symm.trans herror

end Store

section Items

variable {env : Env} {now : UInt64} {packedBlock : Bytes} {packedNextBlock : Option Bytes}
  {node : Node} {i : Incoming}

/-- Every transaction of an accepted block is a valid record. -/
theorem Accepted.validItem (h : Accepted env now packedBlock packedNextBlock node i) {item : Txn}
    (hitem : item ∈ i.txs) :
    ∃ la, ValidItem env node.access.view (i.header.version = 1) la item :=
  (validateBlock_eq_ok h.validate).2.1 item hitem

theorem Incoming.mem_txs {item : Txn} (h : item ∈ i.items) : item ∈ i.txs := List.mem_of_mem_drop h

end Items

/-- The transactions that a call applies, if it is a `StoreIncoming` that accepts its block. -/
def Op.items (env : Env) (node : Node) : Op → List Txn
  | .storeIncoming now packedBlock packedNextBlock =>
    match extractIncoming env now node packedBlock packedNextBlock with
    | .error _ => []
    | .ok (header, _, data) =>
      match validateBlock env node header data with
      | .error _ => []
      | .ok (txs, foundation) => txs.drop foundation.txStart
  | .deleteDownToBlock _ _ => []

theorem Accepted.items_eq {env : Env} {now : UInt64} {packedBlock : Bytes}
    {packedNextBlock : Option Bytes} {node : Node} {i : Incoming}
    (h : Accepted env now packedBlock packedNextBlock node i) :
    (Op.storeIncoming now packedBlock packedNextBlock).items env node = i.items := by
  simp only [Op.items, h.extract, h.validate, Incoming.items]

/-! ## DeleteDownToBlock -/

/-- The inner loop: the records are undone one by one, each in a transaction that commits. -/
inductive Undone (env : Env) : Access → List (Bytes × Transaction) → Access → Prop
  | nil (a : Access) : Undone env a [] a
  | cons {a trx a' : Access} {packed : Bytes} {tx : Transaction}
      {rs : List (Bytes × Transaction)} : a.inUse = false →
      undoTransaction env a.begin (env.newDigest packed) tx = .ok trx →
      Undone env trx.commit rs a' → Undone env a ((packed, tx) :: rs) a'

/-- The first owner that a base or foundation record names. -/
def blockOwnerOf (blockOwner : Option Account) (rs : List (Bytes × Transaction)) : Option Account :=
  rs.foldl (fun b r => b <|> r.2.blockOwner?) blockOwner

section Delete

variable {env : Env} {now finalBlockNumber : UInt64} {node node' : Node}

/-- **The inner loop succeeds** when the data is a sequence of records and each is undone. -/
theorem deleteTransactions_eq_ok {fuel : Nat} {a a' : Access} {data : Bytes}
    {blockOwner blockOwner' : Option Account}
    (h : deleteTransactions env fuel a data blockOwner = (.ok blockOwner', a')) :
    ∃ rs, Records env data rs ∧ rs ≠ [] ∧ Undone env a rs a' ∧
      blockOwner' = blockOwnerOf blockOwner rs := by
  induction fuel generalizing a data blockOwner with
  | zero => simp [deleteTransactions] at h
  | succ fuel ih =>
    unfold deleteTransactions at h
    split at h
    · simp at h
    next trx htrx =>
      obtain ⟨huse, rfl⟩ := newDBTransaction_eq_ok.mp htrx
      split at h
      · simp at h
      next tx n hunpack =>
        split at h
        · simp at h
        next trx hundo =>
          have hr := isRecord_of_unpack hunpack
          dsimp only at h
          split at h
          next hnil =>
            cases h
            refine ⟨[(data.take n, tx)], ?_, by simp, .cons huse hundo (.nil _), rfl⟩
            have hall := Records.cons hr Records.nil
            rwa [← hnil, List.take_append_drop] at hall
          next =>
            obtain ⟨rs, hrs, -, hundone, rfl⟩ := ih h
            refine ⟨(data.take n, tx) :: rs, ?_, by simp, .cons huse hundo hundone, rfl⟩
            have hall := Records.cons hr hrs
            rwa [List.take_append_drop] at hall

/-- `deleteBlock` succeeds when the records are undone and the block's own are deleted. -/
theorem deleteBlock_eq_ok {a a' : Access} {header : Header} {digest : BlockDigest} {data : Bytes}
    {previous : Option Bytes} (h : deleteBlock env a header digest data = (.ok previous, a')) :
    ∃ rs a₁ trx, Records env data rs ∧ rs ≠ [] ∧ Undone env a rs a₁ ∧ a₁.inUse = false ∧
      deleteFoundation env a₁.begin header.number digest (blockOwnerOf none rs) = .ok trx ∧
      previous = trx.view.get .blocks (be64 (header.number - 1)) ∧ a' = trx.commit := by
  unfold deleteBlock at h
  split at h
  · simp at h
  next blockOwner a₁ hloop =>
    obtain ⟨rs, hrs, hne, hundone, rfl⟩ := deleteTransactions_eq_ok hloop
    split at h
    · simp at h
    next trx htrx =>
      obtain ⟨huse, rfl⟩ := newDBTransaction_eq_ok.mp htrx
      split at h
      · simp at h
      next trx hfoundation =>
        cases h
        exact ⟨rs, a₁, trx, hrs, hne, hundone, huse, hfoundation, rfl, rfl⟩

/-- The outer loop, from a packed block to where it stops. -/
inductive Deleting (env : Env) (now finalBlockNumber : UInt64) : Node → Bytes → Node → Prop
  | stop {node : Node} {packedBlock data : Bytes} {header : Header} {digest : BlockDigest}
      {current : Float64} :
      extractHeader env now node.access.view packedBlock 0 false = .ok (header, digest, data) →
      header.number < finalBlockNumber →
      difficultyAtStop env now node header = .ok current →
      Deleting env now finalBlockNumber node packedBlock
        { node with
          header := ⟨header.number, digest, header.version, header.timestamp⟩, current }
  | empty {node : Node} {packedBlock data : Bytes} {header : Header} {digest : BlockDigest}
      {access : Access} :
      extractHeader env now node.access.view packedBlock 0 false = .ok (header, digest, data) →
      ¬ header.number < finalBlockNumber →
      deleteBlock env node.access header digest data = (.ok none, access) →
      Deleting env now finalBlockNumber node packedBlock
        { node with access, header := genesisHeader env }
  | next {node node' : Node} {packedBlock previous data : Bytes} {header : Header}
      {digest : BlockDigest} {access : Access} :
      extractHeader env now node.access.view packedBlock 0 false = .ok (header, digest, data) →
      ¬ header.number < finalBlockNumber →
      deleteBlock env node.access header digest data = (.ok (some previous), access) →
      Deleting env now finalBlockNumber { node with access } previous node' →
      Deleting env now finalBlockNumber node packedBlock node'

/-- The outer loop succeeds when it deletes down to where it stops. -/
theorem deleting_of_deleteLoop {fuel : Nat} {packedBlock : Bytes}
    (h : deleteLoop env now finalBlockNumber fuel node packedBlock = (.ok (), node')) :
    Deleting env now finalBlockNumber node packedBlock node' := by
  induction fuel generalizing node packedBlock with
  | zero => simp [deleteLoop] at h
  | succ fuel ih =>
    unfold deleteLoop at h
    split at h
    · simp at h
    next header digest data hextract =>
      split at h
      next hlt =>
        dsimp only at h
        split at h
        · simp at h
        next current hcurrent =>
          cases h
          exact .stop hextract hlt hcurrent
      next hlt =>
        split at h
        · simp at h
        next access hdelete =>
          cases h
          exact .empty hextract hlt hdelete
        next previous access hdelete => exact .next hextract hlt hdelete (ih h)

/-- **`DeleteDownToBlock` succeeds** when there is no block, or it deletes from the last one. -/
theorem deleteDownToBlock_eq_ok
    (h : deleteDownToBlock env now finalBlockNumber node = (.ok (), node')) :
    (Database.lastElement node.access.db .blocks = none ∧ node' = node) ∨
      ∃ key packedBlock, Database.lastElement node.access.db .blocks = some (key, packedBlock) ∧
        Deleting env now finalBlockNumber node packedBlock node' := by
  unfold deleteDownToBlock at h
  split at h
  next hnone =>
    cases h
    exact Or.inl ⟨hnone, rfl⟩
  next key packedBlock hlast => exact Or.inr ⟨key, packedBlock, hlast, deleting_of_deleteLoop h⟩

end Delete

end Bitmarkd
