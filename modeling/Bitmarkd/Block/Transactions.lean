import Bitmarkd.Block.Frame
import Bitmarkd.Ledger.View

/-!
# Pool Transactions when a block is stored

Storing a block adds records to pool `Transactions` and deletes none (`RecordsAdded`). A record
that is there already is written again, with the number of the new block, unless it is an issue.
-/

namespace Bitmarkd

open Lib

/-- The record is written whether it is there already or not. -/
def Transaction.Rewritten : Transaction → Prop
  | .bitmarkTransferUnratified _ | .bitmarkTransferCountersigned _ | .blockOwnerTransfer _
  | .bitmarkShare _ | .shareGrant _ | .shareSwap _ => True
  | .oldBaseData _ | .blockFoundation _ | .assetData _ | .bitmarkIssue _ => False

section Transactions

variable {env : Env} {number : UInt64} {a a' : Access} {item : Txn}

theorem Transaction.isStored_of_transfer? {tx : Transaction} {link : Digest} {owner : Account}
    (h : tx.transfer? = some (link, owner)) : tx.IsStored := by
  cases tx <;> simp_all [Transaction.transfer?, Transaction.IsStored]

/-- The record of a transaction is written, and then other pools. -/
theorem Touches.record {ps : List Pool} (ht : Touches ps (a.storeRecord number item) a')
    (hps : Pool.transactions ∉ ps) (k : Bytes) :
    a'.pending.get .transactions k =
      if item.txId.bytes = k then some (be64 number ++ item.packed)
      else a.pending.get .transactions k := by
  rw [ht.pending k hps, Access.storeRecord, Access.poolPutNB, pending_poolPut]
  simp

/-- Storing one transaction writes its record, or nothing if it is not of a stored type or known
already. -/
theorem Applied.record (h : Applied env number a item a') :
    (∀ k, a'.pending.get .transactions k = a.pending.get .transactions k) ∧
        ¬ item.unpacked.Rewritten ∨
      item.unpacked.IsStored ∧ ∀ k, a'.pending.get .transactions k =
        if item.txId.bytes = k then some (be64 number ++ item.packed)
        else a.pending.get .transactions k := by
  cases h with
  | assetKnown hitem => exact Or.inl ⟨fun _ => rfl, by simp [hitem, Transaction.Rewritten]⟩
  | issueKnown hitem => exact Or.inl ⟨fun _ => rfl, by simp [hitem, Transaction.Rewritten]⟩
  | asset hitem =>
    exact Or.inl ⟨fun k => by simp [Access.poolPutNB], by simp [hitem, Transaction.Rewritten]⟩
  | issue hitem _ hcreate =>
    exact Or.inr ⟨by simp [hitem, Transaction.IsStored],
      (create_touches hcreate).record (by decide)⟩
  | transfer hitem _ htransfer =>
    exact Or.inr ⟨Transaction.isStored_of_transfer? hitem,
      (transferOwnership_touches htransfer).record (by decide)⟩
  | @blockOwner tx _ _ _ hitem _ _ htransfer =>
    have ht : Touches (.blockOwnerPayment :: .blockOwnerTxIndex :: ownershipPools)
        (a.storeRecord number item) a' := by
      refine Touches.trans ?_ ((transferOwnership_touches htransfer).mono
        (List.subset_append_right [Pool.blockOwnerPayment, Pool.blockOwnerTxIndex] _))
      exact ((Touches.poolPut _ _ (by simp)).trans (.poolPut _ _ (by simp))).trans
        (.poolRemove _ (by simp))
    exact Or.inr ⟨by simp [hitem, Transaction.IsStored], ht.record (by decide)⟩
  | share hitem _ hshare =>
    exact Or.inr ⟨by simp [hitem, Transaction.IsStored], (share_touches hshare).record (by decide)⟩
  | grant hitem hupdate =>
    refine Or.inr ⟨by simp [hitem, Transaction.IsStored], fun k => ?_⟩
    rw [(Touches.refl [] _).record (by decide) k,
      (updateShareGrant_touches hupdate).pending k (by decide)]
  | swap hitem hupdate =>
    refine Or.inr ⟨by simp [hitem, Transaction.IsStored], fun k => ?_⟩
    rw [(Touches.refl [] _).record (by decide) k,
      (updateShareSwap_touches hupdate).pending k (by decide)]

/-- No record is lost, the new ones are records of the block, and all that are written whether they
are there or not are there. -/
structure RecordsAdded (v v' : View) (number : UInt64) (items : List Txn) : Prop where
  keep : ∀ {k}, (v.get .transactions k).isSome → (v'.get .transactions k).isSome
  new : ∀ {k b}, v'.get .transactions k = some b → v.get .transactions k = some b ∨
    ∃ item ∈ items, item.unpacked.IsStored ∧ k = item.txId.bytes ∧ b = be64 number ++ item.packed
  rewritten : ∀ item ∈ items, item.unpacked.Rewritten →
    (v'.get .transactions item.txId.bytes).isSome

/-- The update loop adds the records. -/
theorem AppliedAll.recordsAdded {items : List Txn} (h : AppliedAll env number a items a') :
    RecordsAdded a.pending a'.pending number items := by
  induction h with
  | nil a => exact ⟨id, Or.inl, by simp⟩
  | @cons a a₁ a' item rest h _ ih =>
    have hkeep {k : Bytes} (hk : (a.pending.get .transactions k).isSome) :
        (a₁.pending.get .transactions k).isSome := by
      rcases h.record with ⟨hsame, -⟩ | ⟨-, hput⟩
      · rwa [hsame]
      · rw [hput]
        split
        · rfl
        · exact hk
    refine ⟨fun hk => ih.keep (hkeep hk), fun {k b} hb => ?_, fun x hx hx' => ?_⟩
    · rcases ih.new hb with hb | ⟨x, hx, hrest⟩
      · rcases h.record with ⟨hsame, -⟩ | ⟨hstored, hput⟩
        · rw [hsame] at hb
          exact Or.inl hb
        · rw [hput] at hb
          split at hb
          next hk =>
            cases hb
            exact Or.inr ⟨item, List.mem_cons_self, hstored, hk.symm, rfl⟩
          next => exact Or.inl hb
      · exact Or.inr ⟨x, List.mem_cons_of_mem _ hx, hrest⟩
    · rcases List.mem_cons.mp hx with rfl | hx
      · rcases h.record with ⟨-, hno⟩ | ⟨-, hput⟩
        · exact absurd hx' hno
        · exact ih.keep (by rw [hput, if_pos rfl]; rfl)
      · exact ih.rewritten x hx hx'

end Transactions

section Block

variable {env : Env} {packedBlock : Bytes} {node : Node} {i : Incoming} {a : Access}

/-- Pool `Transactions` after a block is stored: the records, and the foundation. -/
theorem updateBlock_recordsAdded (hclean : node.access.Clean)
    (hupdate : updateBlock env node.header.height node.rebuild packedBlock i.header i.digest i.txs
      i.foundation node.access.begin = .ok a) :
    ∃ v, RecordsAdded node.access.committed v i.header.number i.items ∧
      ∀ k, (node.stored i a).access.committed.get .transactions k =
        if (foundationTxId env i.header.number i.digest).bytes = k then
          some (be64 i.header.number ++ i.foundation.packedFoundation)
        else v.get .transactions k := by
  obtain ⟨a₁, a₂, happlied, hfoundation, -, rfl⟩ := updateBlock_eq_ok hupdate
  refine ⟨a₁.pending, ?_, fun k => ?_⟩
  · have := happlied.recordsAdded
    rwa [pending_begin, Access.pending_of_clean hclean] at this
  · have hf : a₂.pending.get .transactions k =
        if (foundationTxId env i.header.number i.digest).bytes = k then
          some (be64 i.header.number ++ i.foundation.packedFoundation)
        else a₁.pending.get .transactions k := by
      rw [(create_touches hfoundation).pending k (by decide)]
      simp [Access.poolPutNB]
    rw [← hf, Node.stored, committed_commit]
    split
    · rfl
    · simp

end Block

end Bitmarkd
