import Bitmarkd.Block.Step

/-!
# Which pools a record touches

Storing and undoing a record write to the same pools, which depend on its type only
(`Transaction.pools`). Everything else stays as it was, both what will be committed and what the
code reads (`Touches`).
-/

namespace Bitmarkd

open Lib

/-- The second access differs from the first in these pools only. -/
structure Touches (ps : List Pool) (a a' : Access) : Prop where
  committed : a'.committed = a.committed
  inUse : a'.inUse = a.inUse
  pending : ∀ {p : Pool} (k : Bytes), p ∉ ps → a'.pending.get p k = a.pending.get p k
  view : ∀ {p : Pool} (k : Bytes), p ∉ ps → a'.view.get p k = a.view.get p k

namespace Touches

variable {ps qs : List Pool} {a a' a'' : Access}

theorem refl (ps : List Pool) (a : Access) : Touches ps a a :=
  ⟨rfl, rfl, fun _ _ => rfl, fun _ _ => rfl⟩

theorem trans (h : Touches ps a a') (h' : Touches ps a' a'') : Touches ps a a'' where
  committed := h'.committed.trans h.committed
  inUse := h'.inUse.trans h.inUse
  pending k hp := (h'.pending k hp).trans (h.pending k hp)
  view k hp := (h'.view k hp).trans (h.view k hp)

theorem mono (h : Touches ps a a') (hps : ps ⊆ qs) : Touches qs a a' where
  committed := h.committed
  inUse := h.inUse
  pending k hp := h.pending k fun hc => hp (hps hc)
  view k hp := h.view k fun hc => hp (hps hc)

theorem poolPut {p : Pool} (k v : Bytes) (hp : p ∈ ps) : Touches ps a (a.poolPut p k v) where
  committed := rfl
  inUse := rfl
  pending {q} l hq := by
    have hne : p ≠ q := fun hc => hq (hc ▸ hp)
    simp [hne]
  view {q} l hq := by
    have hne : p ≠ q := fun hc => hq (hc ▸ hp)
    simp [hne]

theorem poolRemove {p : Pool} (k : Bytes) (hp : p ∈ ps) : Touches ps a (a.poolRemove p k) where
  committed := rfl
  inUse := rfl
  pending {q} l hq := by
    have hne : p ≠ q := fun hc => hq (hc ▸ hp)
    simp [hne]
  view {q} l hq := by
    have hne : p ≠ q := fun hc => hq (hc ▸ hp)
    simp [hne]

end Touches

/-- The pools of package `ownership`. -/
def ownershipPools : List Pool := [.ownerNextCount, .ownerList, .ownerTxIndex, .ownerData]

/-- The pools of shares. -/
def sharePools : List Pool := [.shares, .shareQuantity]

/-- The pools that a record is stored in, by its type. -/
def Transaction.pools : Transaction → List Pool
  | .oldBaseData _ | .blockFoundation _ => []
  | .assetData _ => [.assets]
  | .bitmarkIssue _ | .bitmarkTransferUnratified _ | .bitmarkTransferCountersigned _ =>
    .transactions :: ownershipPools
  | .blockOwnerTransfer _ =>
    .transactions :: .blockOwnerPayment :: .blockOwnerTxIndex :: ownershipPools
  | .bitmarkShare _ => .transactions :: (sharePools ++ ownershipPools)
  | .shareGrant _ | .shareSwap _ => [.transactions, .shareQuantity]

/-- The pools of records: all but those of the blocks themselves. -/
def recordPools : List Pool :=
  [.transactions, .assets, .blockOwnerPayment, .blockOwnerTxIndex] ++ sharePools ++ ownershipPools

theorem Transaction.pools_subset (tx : Transaction) : tx.pools ⊆ recordPools := by
  cases tx <;> simp [pools, recordPools, sharePools, ownershipPools]

/-! ## Ownership -/

section Ownership

variable {a a' : Access} {t u : Digest} {d : OwnerData} {o : Account} {n q : UInt64}
  {new : Option Account}

theorem create_touches (h : create a t d o = .ok a') : Touches ownershipPools a a' := by
  obtain ⟨count, -, -, rfl⟩ := create_eq_ok h
  exact (((Touches.poolPut _ _ (by decide)).trans (.poolPut _ _ (by decide))).trans
    (.poolPut _ _ (by decide))).trans (.poolPut _ _ (by decide))

theorem deleteOwner_touches (a : Access) (o : Account) (u : Digest) (dCount : Bytes) :
    Touches ownershipPools a (deleteOwner a o u dCount) :=
  ((Touches.poolRemove _ (by decide)).trans (.poolRemove _ (by decide))).trans
    (.poolRemove _ (by decide))

theorem createShare_touches (a : Access) (s t : Digest) (o : Account) (q : UInt64) :
    Touches sharePools a (createShare a s t o q) :=
  (Touches.poolPut _ _ (by decide)).trans (.poolPut _ _ (by decide))

theorem transferOwnership_touches (h : transferOwnership a u t n o new = .ok a') :
    Touches ownershipPools a a' := by
  obtain ⟨dCount, d, -, -, ⟨-, -, rfl⟩ | ⟨-, o', item, -, -, hcreate⟩ | ⟨hq, -⟩⟩ :=
    transfer_eq_ok h
  · exact deleteOwner_touches ..
  · exact (deleteOwner_touches ..).trans (create_touches hcreate)
  · exact absurd rfl hq

theorem share_touches (h : share a u t n o q = .ok a') :
    Touches (sharePools ++ ownershipPools) a a' := by
  have hown : ownershipPools ⊆ sharePools ++ ownershipPools := List.subset_append_right _ _
  have hshare : sharePools ⊆ sharePools ++ ownershipPools := List.subset_append_left _ _
  obtain ⟨dCount, d, -, -, ⟨-, -, rfl⟩ | ⟨-, o', item, hsome, -⟩ | ⟨-, s, -, hcreate⟩⟩ :=
    transfer_eq_ok h
  · exact (deleteOwner_touches ..).mono hown
  · simp at hsome
  · exact (((deleteOwner_touches ..).mono hown).trans ((createShare_touches ..).mono hshare)).trans
      ((create_touches hcreate).mono hown)

theorem setBalance_touches (a : Access) (key : Bytes) (balance : UInt64) :
    Touches [.shareQuantity] a (setBalance a key balance) := by
  unfold setBalance
  split
  · exact .poolRemove _ (by decide)
  · exact .poolPut _ _ (by decide)

end Ownership

/-! ## Storing -/

section Store

variable {env : Env} {number : UInt64} {a a' : Access}

theorem storeRecord_touches (a : Access) (number : UInt64) (item : Txn) :
    Touches [.transactions] a (a.storeRecord number item) := .poolPut _ _ (by decide)

/-- The writes of a block owner transfer besides its record and the ownership. -/
theorem blockOwner_touches (a : Access) (key payments k l : Bytes) :
    Touches [.blockOwnerPayment, .blockOwnerTxIndex] a (((a.poolPut .blockOwnerPayment key
      payments).poolPut .blockOwnerTxIndex k key).poolRemove .blockOwnerTxIndex l) :=
  ((Touches.poolPut _ _ (by decide)).trans (.poolPut _ _ (by decide))).trans
    (.poolRemove _ (by decide))

theorem updateShareGrant_touches {tx : ShareGrant} (h : updateShareGrant a tx = .ok a') :
    Touches [.shareQuantity] a a' := by
  obtain ⟨oBalance, -, h⟩ := bind_eq_ok.mp h
  cases oBalance with
  | none => simp at h
  | some oBalance =>
    obtain ⟨rBalance, -, h⟩ := bind_eq_ok.mp h
    cases h
    exact (setBalance_touches ..).trans (.poolPut _ _ (by decide))

theorem updateShareSwap_touches {tx : ShareSwap} (h : updateShareSwap a tx = .ok a') :
    Touches [.shareQuantity] a a' := by
  obtain ⟨b₁, -, h⟩ := bind_eq_ok.mp h
  cases b₁ with
  | none => simp at h
  | some b₁ =>
    obtain ⟨b₂, -, h⟩ := bind_eq_ok.mp h
    cases b₂ with
    | none => simp at h
    | some b₂ =>
      obtain ⟨b₃, -, h⟩ := bind_eq_ok.mp h
      obtain ⟨b₄, -, h⟩ := bind_eq_ok.mp h
      cases h
      exact (((setBalance_touches ..).trans (.poolPut _ _ (by decide))).trans
        (setBalance_touches ..)).trans (.poolPut _ _ (by decide))

theorem Transaction.pools_of_transfer? {tx : Transaction} {link : Digest} {owner : Account}
    (h : tx.transfer? = some (link, owner)) : tx.pools = .transactions :: ownershipPools := by
  cases tx <;> simp_all [Transaction.transfer?, Transaction.pools]

/-- **Storing a record** touches the pools of its type. -/
theorem Applied.touches {item : Txn} (h : Applied env number a item a') :
    Touches item.unpacked.pools a a' := by
  have hown (ps : List Pool) : ownershipPools ⊆ Pool.transactions :: ps ++ ownershipPools :=
    List.subset_append_right _ _
  cases h with
  | assetKnown => exact .refl _ _
  | issueKnown => exact .refl _ _
  | asset hitem =>
    rw [hitem]
    exact .poolPut _ _ (by simp [Transaction.pools])
  | issue hitem _ hcreate =>
    rw [hitem]
    exact (Touches.poolPut _ _ (by simp [Transaction.pools])).trans
      ((create_touches hcreate).mono (hown []))
  | transfer hitem _ htransfer =>
    rw [Transaction.pools_of_transfer? hitem]
    exact (Touches.poolPut _ _ (by simp)).trans
      ((transferOwnership_touches htransfer).mono (hown []))
  | blockOwner hitem _ _ htransfer =>
    rw [hitem]
    refine Touches.trans ?_
      ((transferOwnership_touches htransfer).mono (hown [.blockOwnerPayment, .blockOwnerTxIndex]))
    exact ((storeRecord_touches ..).mono (by simp [Transaction.pools])).trans
      ((blockOwner_touches ..).mono (by simp [Transaction.pools]))
  | share hitem _ hshare =>
    rw [hitem]
    exact (Touches.poolPut _ _ (by simp [Transaction.pools])).trans
      ((share_touches hshare).mono (List.subset_cons_self _ _))
  | grant hitem hupdate =>
    rw [hitem]
    exact ((updateShareGrant_touches hupdate).mono (by simp [Transaction.pools])).trans
      (.poolPut _ _ (by simp [Transaction.pools]))
  | swap hitem hupdate =>
    rw [hitem]
    exact ((updateShareSwap_touches hupdate).mono (by simp [Transaction.pools])).trans
      (.poolPut _ _ (by simp [Transaction.pools]))

/-- The update loop touches the pools of records. -/
theorem AppliedAll.touches {items : List Txn} (h : AppliedAll env number a items a') :
    Touches recordPools a a' := by
  induction h with
  | nil a => exact .refl _ _
  | cons h _ ih => exact (h.touches.mono (Transaction.pools_subset _)).trans ih

/-- The pools that the foundation of a block is stored in. -/
def foundationPools : List Pool :=
  .transactions :: .blockOwnerPayment :: .blockOwnerTxIndex :: ownershipPools

theorem updateFoundation_touches {header : Header} {digest : BlockDigest}
    {foundation : Foundation} (h : updateFoundation env header digest foundation a = .ok a') :
    Touches foundationPools a a' :=
  (((Touches.poolPut _ _ (by decide)).trans (.poolPut _ _ (by decide))).trans
    (.poolPut _ _ (by decide))).trans ((create_touches h).mono (by decide))

theorem storeBlock_touches (a : Access) (key packedBlock digest : Bytes) :
    Touches [.blocks, .blockHeaderHash] a
      ((a.poolPut .blocks key packedBlock).poolPut .blockHeaderHash key digest) :=
  (Touches.poolPut _ _ (by decide)).trans (.poolPut _ _ (by decide))

/-- All updates of a block: those to the pools of records, and the block with its digest. -/
theorem updateBlock_eq_ok {height : UInt64} {rebuild : Bool} {packedBlock : Bytes}
    {header : Header} {digest : BlockDigest} {txs : List Txn} {foundation : Foundation}
    (h : updateBlock env height rebuild packedBlock header digest txs foundation a = .ok a') :
    ∃ a₁ a₂, AppliedAll env header.number a (txs.drop foundation.txStart) a₁ ∧
      updateFoundation env header digest foundation a₁ = .ok a₂ ∧
      header.number = height + 1 ∧
      a' = if rebuild then a₂ else
        (a₂.poolPut .blocks (be64 header.number) packedBlock).poolPut .blockHeaderHash
          (be64 header.number) digest.bytes := by
  obtain ⟨a₁, htxs, h⟩ := bind_eq_ok.mp h
  obtain ⟨a₂, hfoundation, h⟩ := bind_eq_ok.mp h
  obtain ⟨⟨⟩, hnumber, h⟩ := bind_eq_ok.mp h
  cases h
  exact ⟨a₁, a₂, appliedAll_of_updateTransactions htxs, hfoundation,
    (not_not.mp (panicIf_eq_ok.mp hnumber)).symm, rfl⟩

end Store

/-! ## Deleting -/

section Delete

variable {env : Env} {a a' : Access} {txId : Digest}

/-- Undoing a grant deletes its record, and then changes balances. -/
theorem undoShareGrant_frame {tx : ShareGrant} (h : undoShareGrant a txId tx = .ok a') :
    Touches [.shareQuantity] (a.poolRemove .transactions txId.bytes) a' := by
  obtain ⟨oBalance, -, h⟩ := bind_eq_ok.mp h
  obtain ⟨rBalance, -, h⟩ := bind_eq_ok.mp h
  cases rBalance with
  | none => simp at h
  | some rBalance =>
    cases h
    exact (setBalance_touches ..).trans (.poolPut _ _ (by decide))

theorem undoShareSwap_frame {tx : ShareSwap} (h : undoShareSwap a txId tx = .ok a') :
    Touches [.shareQuantity] (a.poolRemove .transactions txId.bytes) a' := by
  obtain ⟨b₁, -, h⟩ := bind_eq_ok.mp h
  obtain ⟨b₂, -, h⟩ := bind_eq_ok.mp h
  obtain ⟨b₃, -, h⟩ := bind_eq_ok.mp h
  cases b₃ with
  | none => simp at h
  | some b₃ =>
    obtain ⟨b₄, -, h⟩ := bind_eq_ok.mp h
    cases b₄ with
    | none => simp at h
    | some b₄ =>
      cases h
      exact (((setBalance_touches ..).trans (.poolPut _ _ (by decide))).trans
        (setBalance_touches ..)).trans (.poolPut _ _ (by decide))

/-- So both touch two pools. -/
theorem touches_of_removeRecord
    (h : Touches [.shareQuantity] (a.poolRemove .transactions txId.bytes) a') :
    Touches [.transactions, .shareQuantity] a a' :=
  (Touches.poolRemove _ (by decide)).trans (h.mono (by decide))

/-- **Undoing a record** touches the pools of its type. -/
theorem Unapplied.touches {tx : Transaction} (h : Unapplied env a txId tx a') :
    Touches tx.pools a a' := by
  have hown (ps : List Pool) : ownershipPools ⊆ Pool.transactions :: ps ++ ownershipPools :=
    List.subset_append_right _ _
  cases h with
  | foundation => exact .refl _ _
  | issueUnknown => exact .refl _ _
  | asset htx =>
    subst htx
    exact .poolRemove _ (by simp [Transaction.pools])
  | issue htx _ htransfer =>
    subst htx
    exact (Touches.poolRemove _ (by simp [Transaction.pools])).trans
      ((transferOwnership_touches htransfer).mono (hown []))
  | transfer htx _ htransfer =>
    rw [Transaction.pools_of_transfer? htx]
    exact (Touches.poolRemove _ (by simp)).trans
      ((transferOwnership_touches htransfer).mono (hown []))
  | blockOwner htx _ _ _ htransfer _ =>
    subst htx
    have ht := (transferOwnership_touches htransfer).mono
      (hown [.blockOwnerPayment, .blockOwnerTxIndex])
    exact ((((Touches.poolRemove _ (by simp)).trans ht).trans
      (.poolPut _ _ (by simp))).trans
      (.poolPut _ _ (by simp))).trans
      (.poolRemove _ (by simp))
  | share htx _ _ _ htransfer =>
    subst htx
    have ht := (transferOwnership_touches htransfer).mono (hown sharePools)
    exact (((Touches.poolRemove _ (by simp [Transaction.pools])).trans
      (.poolRemove _ (by simp [Transaction.pools, sharePools]))).trans
      (.poolRemove _ (by simp [Transaction.pools, sharePools]))).trans ht
  | grant htx hundo =>
    subst htx
    exact touches_of_removeRecord (undoShareGrant_frame hundo)
  | swap htx hundo =>
    subst htx
    exact touches_of_removeRecord (undoShareSwap_frame hundo)

end Delete

end Bitmarkd
