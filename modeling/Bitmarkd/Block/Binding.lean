import Bitmarkd.Block.Records
import Bitmarkd.Merkle.Tree
import Bitmarkd.Sample

/-!
# The merkle root binds the transactions

A header has the number of the transactions and the root of the tree over their ids. If the hash has
no collision on the strings that are hashed for two trees, lists of ids of the same length with the
same root are the same, and so are the records of two blocks with the same count and root.
-/

namespace Bitmarkd

open Lib Lib.Pairing

/-- The strings that are hashed for the tree over some ids. -/
def treeStrings (env : Env) (txIds : List Digest) : List Bytes :=
  (allPairs (pairDigest env) txIds).map fun p => p.1.bytes ++ p.2.bytes

/-- The strings that are hashed for some records: the records, and those of the tree over their
ids. -/
def recordStrings (env : Env) (packed : List Bytes) : List Bytes :=
  packed ++ treeStrings env (packed.map env.newDigest)

section Binding

variable {env : Env}

/-- Without a collision, the digest of a pair determines the pair. -/
theorem pairDigest_injOn {ps : Set (Digest × Digest)}
    (h : Set.InjOn env.newDigest ((fun p : Digest × Digest => p.1.bytes ++ p.2.bytes) '' ps)) :
    Set.InjOn (pairDigest env) ps := by
  intro p hp q hq heq
  have hbytes := h (Set.mem_image_of_mem _ hp) (Set.mem_image_of_mem _ hq) heq
  obtain ⟨hfst, hsnd⟩ := List.append_inj hbytes (by rw [p.1.length_eq, q.1.length_eq])
  exact Prod.ext (FixedBytes.bytes_inj.mp hfst) (FixedBytes.bytes_inj.mp hsnd)

/-- The root and the number of the ids determine them. -/
theorem txIds_eq_of_root_eq {txIds txIds' : List Digest} (hlength : txIds.length = txIds'.length)
    (hfree : Set.InjOn env.newDigest {s | s ∈ treeStrings env txIds ∨ s ∈ treeStrings env txIds'})
    (h : root (pairDigest env) txIds = root (pairDigest env) txIds') : txIds = txIds' := by
  refine root_inj (pairDigest env) hlength (pairDigest_injOn (hfree.mono ?_)) h
  rintro _ ⟨p, hp, rfl⟩
  exact hp.imp (List.mem_map_of_mem) (List.mem_map_of_mem)

/-- What validation has checked of the count and of the root. -/
theorem validateBlock_root {node : Node} {header : Header} {data : Bytes} {txs : List Txn}
    {foundation : Foundation} (h : validateBlock env node header data = .ok (txs, foundation)) :
    txs.length = header.transactionCount.toNat ∧
      merkleRoot env ((txs.map Txn.packed).map env.newDigest) = header.merkleRoot := by
  have hids : ∀ item ∈ txs, ∃ la, ValidItem env node.access.view (header.version = 1) la item :=
    (validateBlock_eq_ok h).2.1
  obtain ⟨txs', htxs, h⟩ := bind_eq_ok.mp h
  obtain ⟨⟨⟩, hroot, h⟩ := bind_eq_ok.mp h
  obtain ⟨foundation', -, h⟩ := bind_eq_ok.mp h
  obtain ⟨⟨⟩, -, h⟩ := bind_eq_ok.mp h
  cases h
  refine ⟨(validateTransactions_eq_ok htxs).1, ?_⟩
  have hmap : (txs.map Txn.packed).map env.newDigest = txs.map Txn.txId := by
    rw [List.map_map]
    refine List.map_congr_left fun item hitem => ?_
    obtain ⟨la, hv⟩ := hids item hitem
    exact hv.txId_eq.symm
  rw [hmap]
  simpa using hroot

end Binding

/-- **The merkle root binds the transaction list.** `FullMerkleTree` writes every slot of its array
and ends with the root. Two lists of ids of the same length with the same root are the same, and two
validated blocks with the same count and root have the same records, if the hash has no collision
on the strings that are hashed. -/
theorem merkleRoot_binds (env : Env) :
    (∀ txIds : List Digest, txIds ≠ [] → ∃ tree : List Digest,
      fullMerkleTreeArray env txIds = .ok (tree.map some) ∧
        tree.getLast? = root (pairDigest env) txIds ∧
        root (pairDigest env) txIds = some (merkleRoot env txIds)) ∧
    (∀ txIds txIds' : List Digest, txIds ≠ [] → txIds.length = txIds'.length →
      Set.InjOn env.newDigest {s | s ∈ treeStrings env txIds ∨ s ∈ treeStrings env txIds'} →
      merkleRoot env txIds = merkleRoot env txIds' → txIds = txIds') ∧
    ∀ (node node' : Node) (header header' : Header) (data data' : Bytes) (txs txs' : List Txn)
      (foundation foundation' : Foundation),
      validateBlock env node header data = .ok (txs, foundation) →
      validateBlock env node' header' data' = .ok (txs', foundation') →
      header.transactionCount = header'.transactionCount → header.merkleRoot = header'.merkleRoot →
      Set.InjOn env.newDigest {s | s ∈ recordStrings env (txs.map Txn.packed) ∨
        s ∈ recordStrings env (txs'.map Txn.packed)} →
      txs.map Txn.packed = txs'.map Txn.packed := by
  have hids (txIds txIds' : List Digest) (hne : txIds ≠ []) (hlength : txIds.length = txIds'.length)
      (hfree : Set.InjOn env.newDigest
        {s | s ∈ treeStrings env txIds ∨ s ∈ treeStrings env txIds'})
      (h : merkleRoot env txIds = merkleRoot env txIds') : txIds = txIds' := by
    have hne' : txIds' ≠ [] := by
      rintro rfl
      exact hne (List.length_eq_zero_iff.mp hlength)
    refine txIds_eq_of_root_eq hlength hfree ?_
    rw [merkleRoot_eq env hne, merkleRoot_eq env hne', h]
  refine ⟨fun txIds hne => ?_, hids, ?_⟩
  · refine ⟨fullMerkleTree env txIds, fullMerkleTreeArray_eq hne, ?_, merkleRoot_eq env hne⟩
    rw [fullMerkleTree_eq_levels hne, getLast?_levels]
  · intro node node' header header' data data' txs txs' foundation foundation' h h' hcount hroot
      hfree
    obtain ⟨hlength, hroot₁⟩ := validateBlock_root h
    obtain ⟨hlength', hroot₂⟩ := validateBlock_root h'
    have hne : txs ≠ [] := by
      rintro rfl
      have hfound := (validateBlock_eq_ok h).2.2.1
      simp [extractFoundation] at hfound
    have htxIds := hids ((txs.map Txn.packed).map env.newDigest)
      ((txs'.map Txn.packed).map env.newDigest) (by simpa using hne)
      (by simp [hlength, hlength', hcount])
      (hfree.mono fun s hs => hs.imp (List.mem_append_right _) (List.mem_append_right _))
      (by rw [hroot₁, hroot₂, hroot])
    exact map_injOn
      (hfree.mono fun s hs => hs.imp (List.mem_append_left _) (List.mem_append_left _)) htxIds

namespace Sample

/-- Two trees with different roots, and the array of one of them. -/
theorem merkleRoot_binds_two : merkleRoot env [id 1, id 2] ≠ merkleRoot env [id 1, id 3] ∧
    ∃ tree, fullMerkleTreeArray env [id 1, id 2] = .ok (List.map some tree) := by
  obtain ⟨harray, hids, -⟩ := merkleRoot_binds env
  have hstrings (d e : Digest) : treeStrings env [d, e] = [d.bytes ++ e.bytes] := by
    simp [treeStrings, allPairs, pairs, level]
  constructor
  · intro h
    have hfree : Set.InjOn env.newDigest
        {s | s ∈ treeStrings env [id 1, id 2] ∨ s ∈ treeStrings env [id 1, id 3]} := by
      rw [hstrings, hstrings]
      rintro s hs t ht
      simp only [Set.mem_ofPred_eq, List.mem_singleton] at hs ht
      rcases hs with rfl | rfl <;> rcases ht with rfl | rfl <;> decide
    exact absurd (hids [id 1, id 2] [id 1, id 3] (by simp) rfl hfree h) (by decide)
  · obtain ⟨tree, htree, -⟩ := harray [id 1, id 2] (by simp)
    exact ⟨tree, htree⟩

end Sample

end Bitmarkd
