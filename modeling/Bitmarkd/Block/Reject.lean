import Bitmarkd.Chain.Shape
import Bitmarkd.Sample

/-!
# Rejected blocks

What `StoreIncoming` leaves behind when it returns an error. Nothing is written before the commit,
but the difficulty is adjusted before the block is validated, and is set back only if the adjustment
itself fails; and the header data is set before the commit, which can fail.
-/

namespace Bitmarkd

open Lib

/-! ## The update stage panics, or succeeds -/

/-- The computation returns no error: it succeeds or panics. -/
def NoFault {α : Type} (x : Except Stop α) : Prop := ∀ e, x ≠ .error (.fault e)

section NoFault

variable {α β : Type}

theorem NoFault.ok (y : α) : NoFault (.ok y) := fun _ => by simp

theorem NoFault.panicAt (p : Panic) : NoFault (panicAt p : Except Stop α) := fun _ => by
  simp [Bitmarkd.panicAt]

theorem NoFault.bind {x : Except Stop α} {f : α → Except Stop β} (hx : NoFault x)
    (hf : ∀ y, NoFault (f y)) : NoFault (x >>= f) := by
  cases x with
  | error e =>
    intro e' h
    exact hx e' (by simpa [Bind.bind, Except.bind] using h)
  | ok y => exact hf y

variable {env : Env} {a : Access}

theorem getN_noFault (v : View) (p : Pool) (key : Bytes) : NoFault (v.getN p key) := by
  unfold View.getN
  split
  · exact .ok _
  · split
    · exact .panicAt _
    · exact .ok _

theorem create_noFault (t : Digest) (d : OwnerData) (o : Account) : NoFault (create a t d o) := by
  unfold create
  dsimp only
  split
  · exact .panicAt _
  · exact .ok _

theorem transfer_noFault (u t : Digest) (n : UInt64) (o : Account) (new : Option Account)
    (q : UInt64) : NoFault (transfer a u t n o new q) := by
  unfold transfer
  split
  · exact .panicAt _
  · split
    · exact .panicAt _
    · dsimp only
      split
      · split
        · exact .ok _
        · split
          · exact create_noFault _ _ _
          · exact create_noFault _ _ _
          · exact create_noFault _ _ _
      · split
        · exact create_noFault _ _ _
        · exact .panicAt _
        · exact .panicAt _

theorem updateShareGrant_noFault (tx : ShareGrant) : NoFault (updateShareGrant a tx) := by
  refine .bind (getN_noFault _ _ _) fun found => ?_
  cases found with
  | none => exact .panicAt _
  | some balance => exact .bind (getN_noFault _ _ _) fun _ => .ok _

theorem updateShareSwap_noFault (tx : ShareSwap) : NoFault (updateShareSwap a tx) := by
  refine .bind (getN_noFault _ _ _) fun found => ?_
  cases found with
  | none => exact .panicAt _
  | some one =>
    refine .bind (getN_noFault _ _ _) fun found => ?_
    cases found with
    | none => exact .panicAt _
    | some two =>
      exact .bind (getN_noFault _ _ _) fun _ => .bind (getN_noFault _ _ _) fun _ => .ok _

theorem requireLinkOwner_noFault (item : Txn) : NoFault item.requireLinkOwner := by
  unfold Txn.requireLinkOwner
  split
  · exact .panicAt _
  · exact .ok _

theorem updateTransaction_noFault (number : UInt64) (item : Txn) :
    NoFault (updateTransaction env number a item) := by
  unfold updateTransaction
  dsimp only
  split
  · exact .panicAt _
  · exact .panicAt _
  · split
    · exact .ok _
    · exact .ok _
  · split
    · exact .ok _
    · exact create_noFault _ _ _
  · exact .bind (requireLinkOwner_noFault item) fun _ => transfer_noFault _ _ _ _ _ _
  · exact .bind (requireLinkOwner_noFault item) fun _ => transfer_noFault _ _ _ _ _ _
  · split
    · exact .panicAt _
    · exact .bind (requireLinkOwner_noFault item) fun _ => transfer_noFault _ _ _ _ _ _
  · exact .bind (requireLinkOwner_noFault item) fun _ => transfer_noFault _ _ _ _ _ _
  · exact .bind (updateShareGrant_noFault _) fun _ => .ok _
  · exact .bind (updateShareSwap_noFault _) fun _ => .ok _

theorem updateTransactions_noFault (number : UInt64) (items : List Txn) :
    NoFault (updateTransactions env number a items) := by
  induction items generalizing a with
  | nil => exact .ok _
  | cons item rest ih => exact .bind (updateTransaction_noFault number item) fun _ => ih

theorem updateBlock_noFault {height : UInt64} {rebuild : Bool} {packedBlock : Bytes}
    {header : Header} {digest : BlockDigest} {txs : List Txn} {foundation : Foundation} :
    NoFault (updateBlock env height rebuild packedBlock header digest txs foundation a) := by
  refine .bind (updateTransactions_noFault _ _) fun _ => .bind (create_noFault _ _ _) fun _ => ?_
  refine .bind ?_ fun _ => .ok _
  unfold panicIf
  split
  · exact .panicAt _
  · exact .ok _

end NoFault

/-! ## The current difficulty -/

theorem Difficulty.set_set (f : Float64) :
    Difficulty.set (Difficulty.set f) = Difficulty.set f := by
  unfold Difficulty.set
  split
  · exact if_neg (by decide)
  · rfl

section Current

variable {env : Env} {now height : UInt64} {v : View} {current next : Float64}

theorem adjustDifficultyAtBlock_set
    (h : adjustDifficultyAtBlock env now v current height = .ok next)
    (hcurrent : Difficulty.set current = current) : Difficulty.set next = next := by
  unfold adjustDifficultyAtBlock at h
  split at h
  · cases h
    exact hcurrent
  · obtain ⟨d, -, h⟩ := bind_eq_ok.mp h
    cases h
    exact Difficulty.set_set d

theorem incomingDifficulty_set {node : Node} {header : Header}
    (h : incomingDifficulty env now node header = .ok next)
    (hcurrent : Difficulty.set node.current = node.current) : Difficulty.set next = next := by
  unfold incomingDifficulty at h
  split at h
  · exact adjustDifficultyAtBlock_set h hcurrent
  · cases h
    exact hcurrent

theorem difficultyAtStop_set {node : Node} {header : Header}
    (h : difficultyAtStop env now node header = .ok next)
    (hcurrent : Difficulty.set node.current = node.current) : Difficulty.set next = next := by
  unfold difficultyAtStop at h
  split at h
  · split at h
    · exact adjustDifficultyAtBlock_set h hcurrent
    · cases h
      decide
  · cases h
    exact hcurrent

/-- The current difficulty is never below the minimum. -/
theorem NodeRun.current_set {trace : List (Node × Op)} {node : Node}
    (hr : NodeRun env trace node) : Difficulty.set node.current = node.current := by
  have hfresh : Difficulty.set Difficulty.minimumReciprocal = Difficulty.minimumReciprocal := by
    decide
  refine hr.history_invariant (P := fun _ node => Difficulty.set node.current = node.current)
    (guarded_true trace) hfresh ?_
  intro trace node op node' hr _ hcurrent _ hstep
  cases op with
  | storeIncoming now packedBlock packedNextBlock =>
    obtain ⟨i, a, hacc, -, -, rfl⟩ := storeIncoming_eq_ok.mp hstep
    exact incomingDifficulty_set hacc.difficulty hcurrent
  | deleteDownToBlock now finalBlockNumber =>
    obtain ⟨-, -, ⟨rfl, -⟩ | ⟨-, hsame⟩ | ⟨-, hd, -, hstop⟩⟩ :=
      (NodeRun.onChain hr).delete (P := fun _ _ => True) hstep
        (fun _ _ _ _ _ _ _ _ _ _ => trivial) trivial
    · exact hcurrent
    · rw [hsame, hcurrent]
    · exact difficultyAtStop_set hstop hcurrent

end Current

/-! ## What a rejected block leaves -/

/-- The call left the database, the header data and the difficulty as they were, and a database
transaction can begin. -/
def NoTrace (node node' : Node) : Prop :=
  node'.access.db = node.access.db ∧ node'.header = node.header ∧ node'.current = node.current ∧
    ∃ a, node'.access.newDBTransaction = .ok a

/-- If the block comes to the adjustment of the difficulty, that changes nothing. -/
def KeepsDifficulty (env : Env) (now : UInt64) (packedBlock : Bytes)
    (packedNextBlock : Option Bytes) (node : Node) : Prop :=
  ∀ header digest data current,
    extractIncoming env now node packedBlock packedNextBlock = .ok (header, digest, data) →
    validHeaderVersion node.header.previousVersion header.version = .ok () →
    incomingDifficulty env now node header = .ok current → current = node.current

/-- The block comes to the commit. -/
def Storable (env : Env) (now : UInt64) (packedBlock : Bytes) (packedNextBlock : Option Bytes)
    (node : Node) : Prop :=
  ∃ i a, Accepted env now packedBlock packedNextBlock node i ∧
    updateBlock env node.header.height node.rebuild packedBlock i.header i.digest i.txs i.foundation
      node.access.begin = .ok a

section Reject

variable {env : Env} {now : UInt64} {packedBlock : Bytes} {packedNextBlock : Option Bytes}
  {node : Node} {trace : List (Node × Op)} {writeFails : Bool} {e : Fault}

/-- A node whose difficulty alone may have changed. -/
theorem noTrace_current (hn : node.OnChain env) (current : Float64) :
    NoTrace node { node with current } ↔ current = node.current := by
  refine ⟨fun h => h.2.2.1, fun h => ⟨rfl, rfl, h, ?_⟩⟩
  exact ⟨_, newDBTransaction_eq_ok.mpr ⟨hn.clean.2, rfl⟩⟩

/-- Once the difficulty is adjusted to `current`, keeping it is a question of that value. -/
theorem keepsDifficulty_iff {header : Header} {digest : BlockDigest} {data : Bytes}
    {current : Float64}
    (hextract : extractIncoming env now node packedBlock packedNextBlock =
      .ok (header, digest, data))
    (hversion : validHeaderVersion node.header.previousVersion header.version = .ok ())
    (hdiff : incomingDifficulty env now node header = .ok current) :
    KeepsDifficulty env now packedBlock packedNextBlock node ↔ current = node.current := by
  constructor
  · exact fun h => h _ _ _ _ hextract hversion hdiff
  · rintro rfl header' digest' data' current' hextract' - hdiff'
    rw [hextract] at hextract'
    obtain ⟨rfl, -⟩ := Prod.mk.inj (Except.ok.inj hextract')
    exact Except.ok.inj (hdiff'.symm.trans hdiff)

/-- A block that is rejected before the commit changes at most the difficulty, to the adjusted
value. -/
theorem noTrace_iff_of_not_storable (hr : NodeRun env trace node)
    (h : (storeIncoming env now writeFails packedBlock packedNextBlock node).1 =
      .error (.fault e)) (hs : ¬ Storable env now packedBlock packedNextBlock node) :
    NoTrace node (storeIncoming env now writeFails packedBlock packedNextBlock node).2 ↔
      KeepsDifficulty env now packedBlock packedNextBlock node := by
  have hn := hr.onChain
  have hsame := (noTrace_current hn node.current).mpr rfl
  cases hextract : extractIncoming env now node packedBlock packedNextBlock with
  | error e' =>
    simp only [storeIncoming, hextract]
    refine iff_of_true hsame fun _ _ _ _ hc => ?_
    cases hextract.symm.trans hc
  | ok x =>
    obtain ⟨header, digest, data⟩ := x
    have hheader {header' : Header} {digest' : BlockDigest} {data' : Bytes}
        (hc : extractIncoming env now node packedBlock packedNextBlock =
          .ok (header', digest', data')) : header = header' :=
      (Prod.mk.inj (Except.ok.inj (hextract.symm.trans hc))).1
    cases hversion : validHeaderVersion node.header.previousVersion header.version with
    | error e' =>
      simp only [storeIncoming, hextract, hversion]
      refine iff_of_true hsame fun header' _ _ _ hc hv => ?_
      obtain rfl := hheader hc
      cases hversion.symm.trans hv
    | ok u =>
      cases hdiff : incomingDifficulty env now node header with
      | error e' =>
        -- the adjustment fails, and the difficulty is set back
        simp only [storeIncoming, hextract, hversion, hdiff, hr.current_set]
        refine iff_of_true hsame fun header' _ _ _ hc _ hd => ?_
        obtain rfl := hheader hc
        cases hdiff.symm.trans hd
      | ok current =>
        -- from here on the node has the adjusted difficulty
        rw [keepsDifficulty_iff hextract hversion hdiff, ← noTrace_current hn]
        cases hcheck : checkIncoming env { node with current } packedNextBlock.isSome header
            digest with
        | error e' => simp only [storeIncoming, hextract, hversion, hdiff, hcheck]
        | ok u =>
          cases hvalid : validateBlock env { node with current } header data with
          | error e' => simp only [storeIncoming, hextract, hversion, hdiff, hcheck, hvalid]
          | ok x =>
            obtain ⟨txs, foundation⟩ := x
            cases hupdate : updateBlock env node.header.height node.rebuild packedBlock header
                digest txs foundation node.access.begin with
            | error e' =>
              -- the updates only fail by a panic
              simp only [storeIncoming, hextract, hversion, hdiff, hcheck, hvalid,
                Access.newDBTransaction, hn.clean.2, Bool.false_eq_true, if_false, hupdate] at h
              obtain rfl := Except.error.inj h
              exact absurd hupdate (updateBlock_noFault _)
            | ok a =>
              exact absurd ⟨⟨header, digest, data, current, txs, foundation⟩, a,
                ⟨hextract, hversion, hdiff, hcheck, hvalid⟩, hupdate⟩ hs

/-- **A rejected block leaves no trace** exactly when the adjustment of the difficulty changes
nothing and it is not the commit that fails. -/
theorem rejected_noTrace_iff (hr : NodeRun env trace node)
    (h : (storeIncoming env now writeFails packedBlock packedNextBlock node).1 =
      .error (.fault e)) :
    NoTrace node (storeIncoming env now writeFails packedBlock packedNextBlock node).2 ↔
      KeepsDifficulty env now packedBlock packedNextBlock node ∧
        ¬ (writeFails = true ∧ Storable env now packedBlock packedNextBlock node) := by
  by_cases hs : Storable env now packedBlock packedNextBlock node
  · obtain ⟨i, a, hacc, hupdate⟩ := id hs
    have hn := hr.onChain
    rw [storeIncoming_of_accepted hacc hn.clean.2 hupdate] at h ⊢
    cases writeFails with
    | false => simp [Access.commitTransaction] at h
    | true =>
      -- the commit fails after the header data is set
      refine iff_of_false ?_ fun hc => hc.2 ⟨rfl, hs⟩
      rintro ⟨-, hheader, -⟩
      have hheight : i.header.number = node.header.height := congrArg HeaderData.height hheader
      obtain ⟨-, -, -, -, hnumber, -⟩ := updateBlock_eq_ok hupdate
      simp [hnumber] at hheight
  · rw [noTrace_iff_of_not_storable hr h hs]
    simp [hs]

end Reject

namespace Sample

/-- A good first block. -/
def firstBlock : Bytes := block 2 2 testGenesisDigest 10 [foundation, asset 1]

/-- When the commit of a good block fails, the header data is already that of the block, and the
database transaction stays open. -/
theorem failed_commit_leaves_trace :
    (storeIncoming env 1000 true firstBlock none (Node.fresh env)).1 =
        .error (.fault .databaseWrite) ∧
      (storeIncoming env 1000 true firstBlock none (Node.fresh env)).2.header.height = 2 ∧
      (storeIncoming env 1000 true firstBlock none (Node.fresh env)).2.access.inUse = true ∧
      ¬ NoTrace (Node.fresh env)
        (storeIncoming env 1000 true firstBlock none (Node.fresh env)).2 := by
  have hresult : (storeIncoming env 1000 true firstBlock none (Node.fresh env)).1 =
      .error (.fault .databaseWrite) := by decide +kernel
  have hheight : (storeIncoming env 1000 true firstBlock none (Node.fresh env)).2.header.height =
      2 := by decide +kernel
  have huse : (storeIncoming env 1000 true firstBlock none (Node.fresh env)).2.access.inUse =
      true := by decide +kernel
  refine ⟨hresult, hheight, huse, ?_⟩
  rintro ⟨-, -, -, a, ha⟩
  rw [(newDBTransaction_eq_ok.mp ha).1] at huse
  cases huse

/-- The next block, which passes the checks of its header and transfers a bitmark that nobody
has. -/
def unknownLinkBlock : Bytes :=
  block 2 3 (env.argon2Hash (firstBlock.take totalBlockSize)) 20
    [foundation, transfer (id 9) 0x12 2]

/-- It is rejected when its records are validated, and leaves no trace exactly under the two
conditions. -/
theorem rejected_noTrace_iff_unknownLink : ∃ trace node, NodeRun env trace node ∧
    node.header.height = 2 ∧
    (storeIncoming env 1000 true unknownLinkBlock none node).1 =
      .error (.fault .linkToInvalidOrUnconfirmedTransaction) ∧
    (NoTrace node (storeIncoming env 1000 true unknownLinkBlock none node).2 ↔
      KeepsDifficulty env 1000 unknownLinkBlock none node ∧
        ¬ (true = true ∧ Storable env 1000 unknownLinkBlock none node)) := by
  have hrun := @nodeRun_after [.storeIncoming 1000 firstBlock none] (by decide +kernel)
  have herror : (storeIncoming env 1000 true unknownLinkBlock none
      (after [.storeIncoming 1000 firstBlock none])).1 =
      .error (.fault .linkToInvalidOrUnconfirmedTransaction) := by decide +kernel
  exact ⟨_, _, hrun, by decide +kernel, herror, rejected_noTrace_iff hrun herror⟩

end Sample

end Bitmarkd
