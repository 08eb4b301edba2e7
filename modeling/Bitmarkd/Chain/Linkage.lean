import Bitmarkd.Chain.Shape
import Bitmarkd.Sample

/-!
# Linkage

The digest in a block's header is checked against the header data when the block is stored, unless
the block comes by fast sync. So the links of a chain depend on how each block was stored, which
the trace of the run tells (`storedBy`).
-/

namespace Bitmarkd

open Lib

/-- The number of the block that a call stores. -/
def Op.stores? (node : Node) : Op → Option UInt64
  | .storeIncoming _ _ _ => some (node.header.height + 1)
  | .deleteDownToBlock _ _ => none

/-- The call that stored block `n` last. -/
def storedBy (n : UInt64) (trace : List (Node × Op)) : Option Op :=
  (trace.reverse.find? fun x => x.2.stores? x.1 = some n).map Prod.snd

section Linkage

variable {env : Env} {node node' : Node} {trace : List (Node × Op)}

theorem storedBy_snoc {n : UInt64} {op : Op} : storedBy n (trace ++ [(node, op)]) =
    if op.stores? node = some n then some op else storedBy n trace := by
  unfold storedBy
  rw [List.reverse_append, List.reverse_singleton, List.singleton_append, List.find?_cons]
  by_cases h : op.stores? node = some n <;> simp [h]

/-- The blocks that were stored last in normal mode link to the stored digest of the block before,
if that is not all zero. -/
def Linked (env : Env) (trace : List (Node × Op)) (v : View) : Prop :=
  ∀ n hd (d : BlockDigest) now b, HeaderAt env v (n + 1) hd →
    v.get .blockHeaderHash (be64 n) = some d.bytes → d ≠ .zero 32 →
    storedBy (n + 1) trace = some (.storeIncoming now b none) → hd.previousBlock = d

/-- In normal mode the block links to the header data. -/
theorem Accepted.previousBlock_eq {now : UInt64} {packedBlock : Bytes} {i : Incoming}
    (h : Accepted env now packedBlock none node i) :
    i.header.previousBlock = node.header.previousBlock := by
  obtain ⟨⟨⟩, -, hcheck⟩ := bind_eq_ok.mp h.check
  obtain ⟨⟨⟩, hlink, -⟩ := bind_eq_ok.mp hcheck
  obtain ⟨⟨⟩, -, hlink⟩ := bind_eq_ok.mp hlink
  unfold validBlockLinkage at hlink
  split at hlink
  · simp at hlink
  next heq => exact (not_not.mp heq).symm

/-- Storing a block keeps the links. -/
theorem Linked.store {now : UInt64} {packedBlock : Bytes} {packedNextBlock : Option Bytes}
    {i : Incoming} {a : Access} (hl : Linked env trace node.access.committed)
    (hn : node.OnChain env) (hacc : Accepted env now packedBlock packedNextBlock node i)
    (hupdate : updateBlock env node.header.height node.rebuild packedBlock i.header i.digest i.txs
      i.foundation node.access.begin = .ok a) :
    Linked env (trace ++ [(node, .storeIncoming now packedBlock packedNextBlock)])
      (node.stored i a).access.committed := by
  obtain ⟨hnumber, hwrap, hpush, hn'⟩ := hn.store hacc hupdate
  have hheight : (node.stored i a).header.height = node.header.height + 1 := hnumber
  intro n hd d now' b hhd hhash hd0 hstored
  rw [storedBy_snoc] at hstored
  split at hstored
  next hm =>
    -- the new block, which links to the header data
    have hn1 : node.header.height = n := by simpa [Op.stores?] using hm
    subst hn1
    cases hstored
    rw [← hnumber, hpush.headerAt_new] at hhd
    obtain rfl := hhd.unique (extractIncoming_eq_ok hacc.extract).2.1
    have hne : i.header.number ≠ node.header.height := by
      intro hc
      rw [hnumber, ← UInt64.toNat_inj, hwrap] at hc
      omega
    rw [hpush.hash_of_ne hne.symm] at hhash
    rw [hacc.previousBlock_eq]
    rcases hn.tip with hgenesis | ⟨-, hd₀, d₀, -, -, -, hhash₀, hd₀'⟩
    · have := (hn.chain.isSome_hash.mp (by rw [hhash]; rfl)).1
      rw [hgenesis] at this
      exact absurd this (by decide : ¬ (2 : UInt64) ≤ 1)
    · rw [hhash₀] at hhash
      obtain rfl := FixedBytes.bytes_inj.mp (Option.some.inj hhash)
      exact hd₀' hd0
  next hm =>
    have hm' : n + 1 ≠ i.header.number := by
      intro hc
      exact hm (by simp [Op.stores?, hc, hnumber])
    have hle := (HeaderAt.le hn'.chain hhd).2
    have h2 := (HeaderAt.le hn'.chain hhd).1
    rw [hpush.headerAt hm'] at hhd
    have hm'' : i.header.number ≠ n := by
      -- the block after the new one is not stored
      rintro rfl
      rw [hheight, ← hnumber, UInt64.le_iff_toNat_le] at hle
      rw [UInt64.le_iff_toNat_le] at h2
      rw [UInt64.toNat_add] at hle h2
      have h1' : (1 : UInt64).toNat = 1 := rfl
      have h2' : (2 : UInt64).toNat = 2 := rfl
      have := i.header.number.toNat_lt
      rw [h1'] at hle h2
      omega
    rw [hpush.hash_of_ne hm''.symm] at hhash
    exact hl n hd d now' b hhd hhash hd0 hstored

/-- A view with fewer blocks and digests. -/
theorem Linked.of_sub {v v' : View} (hl : Linked env trace v)
    (hblocks : ∀ {k b}, v'.get .blocks k = some b → v.get .blocks k = some b)
    (hhashes : ∀ {k b}, v'.get .blockHeaderHash k = some b → v.get .blockHeaderHash k = some b) :
    Linked env trace v' := by
  rintro n hd d now b ⟨packed, hpacked, hhd⟩ hhash
  exact hl n hd d now b ⟨packed, hblocks hpacked, hhd⟩ (hhashes hhash)

/-- A deletion keeps the links. -/
theorem Linked.delete {now finalBlockNumber : UInt64} (hl : Linked env trace node.access.committed)
    (hn : node.OnChain env)
    (h : deleteDownToBlock env now finalBlockNumber node = (.ok (), node')) :
    Linked env (trace ++ [(node, .deleteDownToBlock now finalBlockNumber)])
      node'.access.committed := by
  have hkeep : Linked env trace node'.access.committed := by
    refine (hn.delete (P := fun a _ => Linked env trace a.committed) h ?_ hl).1
    intro a a' m b hd digest data previous _ _ _ _ _ _ _ _ hpops hlinked
    refine hlinked.of_sub ?_ ?_
    · intro k b hb
      rw [hpops.blocks] at hb
      split at hb
      · cases hb
      · exact hb
    · intro k b hb
      rw [hpops.hashes] at hb
      split at hb
      · cases hb
      · exact hb
  intro n hd d now' b hhd hhash hd0 hstored
  rw [storedBy_snoc, if_neg (by simp [Op.stores?])] at hstored
  exact hkeep n hd d now' b hhd hhash hd0 hstored

/-- The links hold over every run. -/
theorem NodeRun.linked (hr : NodeRun env trace node) : Linked env trace node.access.committed := by
  refine hr.history_invariant (P := fun trace node => Linked env trace node.access.committed)
    (guarded_true trace) ?_ ?_
  · rintro n hd d now b ⟨packed, hpacked, -⟩
    cases hpacked
  · intro trace node op node' hr _ hl _ hstep
    have hn := NodeRun.onChain hr
    cases op with
    | storeIncoming now packedBlock packedNextBlock =>
      obtain ⟨i, a, hacc, -, hupdate, rfl⟩ := storeIncoming_eq_ok.mp hstep
      exact hl.store hn hacc hupdate
    | deleteDownToBlock now finalBlockNumber => exact hl.delete hn hstep

/-- **The shape of the chain.** After every run of successful calls the database holds exactly the
blocks 2 to the height, and a digest for each; the header data is that of the last one; versions do
not decrease; and a block that was stored in normal mode links to the digest of the one before. -/
theorem chain_shape (hr : NodeRun env trace node) :
    (∀ k, (node.access.committed.get .blocks k).isSome ↔
      ∃ n, k = be64 n ∧ 2 ≤ n ∧ n ≤ node.header.height) ∧
    (∀ k, (node.access.committed.get .blockHeaderHash k).isSome ↔
      (node.access.committed.get .blocks k).isSome) ∧
    (∀ n, 2 ≤ n → n ≤ node.header.height →
      ∃ hd, HeaderAt env node.access.committed n hd ∧ hd.number = n) ∧
    Tip env node.access.committed node.header ∧
    (∀ n hd hd', HeaderAt env node.access.committed n hd →
      HeaderAt env node.access.committed (n + 1) hd' → hd.version ≤ hd'.version) ∧
    Linked env trace node.access.committed := by
  have hn := NodeRun.onChain hr
  refine ⟨hn.chain.blocks, fun k => ?_, fun n h2 hle => hn.chain.headerAt h2 hle, hn.tip,
    fun n hd hd' => hn.chain.versions, hr.linked⟩
  rw [hn.chain.blocks, hn.chain.hashes]

end Linkage

/-! ### Fast sync does not link -/

namespace Sample

/-- Two blocks by fast sync; the digest of the first is not the one that the second links to. -/
def unlinkedOps : List Op :=
  [fastSync (block 2 2 testGenesisDigest 10 [foundation, asset 1]) 2 (id 5),
    fastSync (block 2 3 (id 6) 20 [foundation, asset 2]) 3 (id 7)]

/-- Block 3 is stored, but it does not link to the stored digest of block 2. -/
theorem unlinked_by_fastSync : ∃ trace node hd, NodeRun env trace node ∧ CollisionFree env trace ∧
    HeaderAt env node.access.committed 3 hd ∧
    node.access.committed.get .blockHeaderHash (be64 2) = some (id 5).bytes ∧
    hd.previousBlock = id 6 ∧ id 5 ≠ id 6 := by
  obtain ⟨node, hrun, hP⟩ := exists_nodeRun env unlinkedOps
    (P := fun node => decide (
      node.access.committed.get .blocks (be64 3) =
        some (block 2 3 (id 6) 20 [foundation, asset 2]) ∧
      node.access.committed.get .blockHeaderHash (be64 2) = some (id 5).bytes)) (by decide +kernel)
  obtain ⟨hblock, hhash⟩ := of_decide_eq_true hP
  exact ⟨_, node, _, hrun, by decide +kernel, ⟨_, hblock, headerOf_block rfl (by decide)⟩, hhash,
    rfl,
    by decide⟩

/-- The same run has the shape, and its second block is stored by fast sync. -/
theorem chain_shape_unlinkedOps : ∃ trace node, NodeRun env trace node ∧
    node.header.height = 3 ∧ Tip env node.access.committed node.header ∧
    Linked env trace node.access.committed := by
  obtain ⟨node, hrun, hP⟩ := exists_nodeRun env unlinkedOps
    (P := fun node => decide (node.header.height = 3)) (by decide +kernel)
  obtain ⟨-, -, -, htip, -, hlinked⟩ := chain_shape hrun
  exact ⟨_, node, hrun, of_decide_eq_true hP, htip, hlinked⟩

end Sample

end Bitmarkd
