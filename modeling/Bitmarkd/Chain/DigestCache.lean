import Bitmarkd.Chain.Shape
import Bitmarkd.Sample

/-!
# The digest cache

`blockheader/get.go`. `DigestForBlock` keeps the digests it has looked up in a ring of ten entries,
and `DeleteDownToBlock` clears the ring after each block that it deletes, except after the last one
of the chain: when block 2 is deleted and no block is left, the loop ends before `ClearCache`.

So the cache is coherent (`CachingNode.Coherent`) as long as block 2 is not deleted as the only
block while its digest is in the cache, and then `DigestForBlock` returns the digest of the block
that is stored now (`digestForBlock_current`). Otherwise it goes on to return the digest of the
deleted block.
-/

namespace Bitmarkd

open Lib

/-! ## The source -/

/-- `cachedBlockDigest`. -/
structure CachedBlockDigest where
  blockNumber : UInt64
  digest : BlockDigest
deriving DecidableEq

/-- `cacheSize`. -/
abbrev cacheSize : ℕ := 10

/-- The variables `cached` and `cacheIndex`. -/
structure DigestCache where
  cached : Vector CachedBlockDigest cacheSize
  cacheIndex : Fin cacheSize

namespace DigestCache

def empty : DigestCache := ⟨.replicate cacheSize ⟨0, .zero 32⟩, 0⟩

/-- `ClearCache`. The index stays. -/
def clearCache (c : DigestCache) : DigestCache :=
  { c with cached := .replicate cacheSize ⟨0, .zero 32⟩ }

/-- `digestFromCache`: all zero if there is none. -/
def digestFromCache (c : DigestCache) (blockNumber : UInt64) : BlockDigest :=
  match c.cached.toList.find? fun e => e.blockNumber = blockNumber with
  | some e => e.digest
  | none => .zero 32

/-- `addToCache`. -/
def addToCache (c : DigestCache) (blockNumber : UInt64) (digest : BlockDigest) : DigestCache where
  cached := c.cached.set c.cacheIndex.1 ⟨blockNumber, digest⟩ c.cacheIndex.2
  cacheIndex := if cacheSize - 1 = c.cacheIndex.1 then 0 else c.cacheIndex + 1

end DigestCache

/-- `genDigestFromPool`. -/
def genDigestFromPool (env : Env) (now : UInt64) (v : View) (number : UInt64) :
    Except Stop BlockDigest :=
  match v.get .blocks (be64 number) with
  | none => fault .blockNotFound
  | some packed => do
    let (_, digest, _) ← extractHeader env now v packed 0 false
    return digest

/-- A node with its digest cache. -/
structure CachingNode where
  node : Node
  cache : DigestCache

namespace CachingNode

/-- A fresh node. -/
def fresh (env : Env) : CachingNode := ⟨Node.fresh env, .empty⟩

/-- `DigestForBlock`. -/
def digestForBlock (env : Env) (now number : UInt64) (s : CachingNode) :
    Except Stop BlockDigest × CachingNode :=
  if number ≤ 1 then (.ok (genesisHeader env).previousBlock, s)
  else
    let digest := s.cache.digestFromCache number
    if digest ≠ .zero 32 then (.ok digest, s)
    else
      let digest := digestFromHashPool s.node.access.view number
      if digest ≠ .zero 32 then
        (.ok digest, { s with cache := s.cache.addToCache number digest })
      else
        match genDigestFromPool env now s.node.access.view number with
        | .error e => (.error e, s)
        | .ok digest => (.ok digest, { s with cache := s.cache.addToCache number digest })

/-- The outer loop of `DeleteDownToBlock`, with `ClearCache`. -/
def deleteLoop (env : Env) (now finalBlockNumber : UInt64) :
    ℕ → CachingNode → Bytes → Except Stop Unit × CachingNode
  | 0, s, _ => (.error .outOfSteps, s)
  | fuel + 1, s, packedBlock =>
    match extractHeader env now s.node.access.view packedBlock 0 false with
    | .error e => (.error e, s)
    | .ok (header, digest, data) =>
      if header.number < finalBlockNumber then
        let headerData := ⟨header.number, digest, header.version, header.timestamp⟩
        let node := { s.node with header := headerData }
        match difficultyAtStop env now node header with
        | .error e => (.error e, { s with node })
        | .ok current => (.ok (), { s with node := { node with current } })
      else
        match deleteBlock env s.node.access header digest data with
        | (.error e, access) => (.error e, { s with node := { s.node with access } })
        | (.ok none, access) =>
          (.ok (), { s with node := { s.node with access, header := genesisHeader env } })
        | (.ok (some previous), access) =>
          deleteLoop env now finalBlockNumber fuel
            ⟨{ s.node with access }, s.cache.clearCache⟩ previous

/-- `DeleteDownToBlock`. -/
def deleteDownToBlock (env : Env) (now finalBlockNumber : UInt64) (s : CachingNode) :
    Except Stop Unit × CachingNode :=
  match Database.lastElement s.node.access.db .blocks with
  | none => (.ok (), s)
  | some (key, packedBlock) =>
    deleteLoop env now finalBlockNumber ((ofBE64 key).toNat + 1) s packedBlock

end CachingNode

/-- A call, with the reading of the clock during it. -/
inductive CachingOp
  | storeIncoming (now : UInt64) (packedBlock : Bytes) (packedNextBlock : Option Bytes)
  | deleteDownToBlock (now finalBlockNumber : UInt64)
  | digestForBlock (now number : UInt64)

/-- A call that changes the chain and returns without error, or a query. -/
def CachingStep (env : Env) (s : CachingNode) (op : CachingOp) (s' : CachingNode) : Prop :=
  match op with
  | .storeIncoming now packedBlock packedNextBlock =>
    storeIncoming env now false packedBlock packedNextBlock s.node = (.ok (), s'.node) ∧
      s'.cache = s.cache
  | .deleteDownToBlock now finalBlockNumber =>
    s.deleteDownToBlock env now finalBlockNumber = (.ok (), s')
  | .digestForBlock now number => s' = (s.digestForBlock env now number).2

/-! ## The deletion loop with and without the cache -/

section Loop

variable {env : Env} {now finalBlockNumber : UInt64} {s s' : CachingNode}

/-- The cache does not change what is deleted. -/
theorem deleteLoop_node {fuel : ℕ} {packedBlock : Bytes} :
    ((s.deleteLoop env now finalBlockNumber fuel packedBlock).1,
      (s.deleteLoop env now finalBlockNumber fuel packedBlock).2.node) =
    Bitmarkd.deleteLoop env now finalBlockNumber fuel s.node packedBlock := by
  induction fuel generalizing s packedBlock with
  | zero => rfl
  | succ fuel ih =>
    rcases hx : extractHeader env now s.node.access.view packedBlock 0 false with
      e | ⟨header, digest, data⟩
    · simp only [CachingNode.deleteLoop, Bitmarkd.deleteLoop, hx]
    · simp only [CachingNode.deleteLoop, Bitmarkd.deleteLoop, hx]
      split_ifs
      · split <;> simp only [*]
      · rcases hdelete : deleteBlock env s.node.access header digest data with
          ⟨e | _ | previous, access⟩
        · rfl
        · rfl
        · exact ih

theorem deleteDownToBlock_node : ((s.deleteDownToBlock env now finalBlockNumber).1,
    (s.deleteDownToBlock env now finalBlockNumber).2.node) =
      Bitmarkd.deleteDownToBlock env now finalBlockNumber s.node := by
  unfold CachingNode.deleteDownToBlock Bitmarkd.deleteDownToBlock
  rcases Database.lastElement s.node.access.db .blocks with _ | ⟨key, packedBlock⟩
  · rfl
  · exact deleteLoop_node

/-- Deleting on from a cleared cache leaves it clear. -/
theorem deleteLoop_cleared {fuel : ℕ} {packedBlock : Bytes}
    (hc : s.cache.cached = .replicate cacheSize ⟨0, .zero 32⟩) :
    (s.deleteLoop env now finalBlockNumber fuel packedBlock).2.cache.cached =
      .replicate cacheSize ⟨0, .zero 32⟩ := by
  induction fuel generalizing s packedBlock with
  | zero => exact hc
  | succ fuel ih =>
    unfold CachingNode.deleteLoop
    split
    · exact hc
    · split
      · dsimp only
        split <;> exact hc
      · split
        · exact hc
        · exact hc
        · exact ih rfl

/-- What a deletion does to the cache: it clears it, or no block was deleted, or the only one. -/
theorem deleteLoop_cache {fuel : ℕ} {packedBlock : Bytes}
    (h : s.deleteLoop env now finalBlockNumber fuel packedBlock = (.ok (), s')) :
    s'.cache.cached = .replicate cacheSize ⟨0, .zero 32⟩ ∨ s'.cache = s.cache ∧
      (s'.node.access = s.node.access ∨ ∃ header digest data,
        extractHeader env now s.node.access.view packedBlock 0 false = .ok (header, digest, data) ∧
        ¬ header.number < finalBlockNumber ∧
        deleteBlock env s.node.access header digest data = (.ok none, s'.node.access)) := by
  cases fuel with
  | zero => simp [CachingNode.deleteLoop] at h
  | succ fuel =>
    unfold CachingNode.deleteLoop at h
    split at h
    · simp at h
    next header digest data hextract =>
      split at h
      · dsimp only at h
        split at h
        · simp at h
        · cases h
          exact Or.inr ⟨rfl, Or.inl rfl⟩
      next hlt =>
        split at h
        · simp at h
        next access hdelete =>
          cases h
          exact Or.inr ⟨rfl, Or.inr ⟨header, digest, data, hextract, hlt, hdelete⟩⟩
        next previous access hdelete =>
          left
          have hcleared : (CachingNode.deleteLoop env now finalBlockNumber fuel
              ⟨{ s.node with access }, s.cache.clearCache⟩ previous).2.cache.cached = _ :=
            deleteLoop_cleared rfl
          rwa [h] at hcleared

end Loop

/-! ## Coherence -/

/-- Every digest in the cache is that of a block that is stored. -/
structure CachingNode.Coherent (env : Env) (s : CachingNode) : Prop where
  onChain : s.node.OnChain env
  cache : ∀ e ∈ s.cache.cached.toList, e.digest ≠ .zero 32 →
    ∃ b, s.node.access.committed.get .blocks (be64 e.blockNumber) = some b ∧
      e.digest = headerDigest env s.node.access.committed (b.take totalBlockSize) e.blockNumber

/-- Block 2 is not deleted as the only block while its digest is in the cache. -/
def CachingOp.KeepsCoherent (s : CachingNode) : CachingOp → Prop
  | .deleteDownToBlock _ finalBlockNumber => s.node.header.height = 2 → finalBlockNumber ≤ 2 →
      ∀ e ∈ s.cache.cached.toList, e.blockNumber = 2 → e.digest = .zero 32
  | .storeIncoming _ _ _ | .digestForBlock _ _ => True

/-- If the digest of the block was stored as all zero, its header can be read: its timestamp is
not too far ahead of the clock. -/
def Readable (env : Env) (now : UInt64) (v : View) (number : UInt64) : Prop :=
  digestFromHashPool v number = .zero 32 → ∀ hd, HeaderAt env v number hd →
    ¬ hd.timestamp > now + 5 * 60

/-- What `DigestForBlock` should return. -/
def currentDigest (env : Env) (v : View) (number : UInt64) : Except Stop BlockDigest :=
  if number ≤ 1 then .ok (genesisHeader env).previousBlock
  else
    match v.get .blocks (be64 number) with
    | some b => .ok (headerDigest env v (b.take totalBlockSize) number)
    | none => fault .blockNotFound

section Coherent

variable {env : Env} {now number : UInt64} {s s' : CachingNode} {op : CachingOp}
  {trace : List (CachingNode × CachingOp)}

theorem mem_addToCache {c : DigestCache} {digest : BlockDigest} {e : CachedBlockDigest}
    (h : e ∈ (c.addToCache number digest).cached.toList) :
    e = ⟨number, digest⟩ ∨ e ∈ c.cached.toList := by
  rw [DigestCache.addToCache, Vector.toList_set] at h
  exact (List.mem_or_eq_of_mem_set h).symm

theorem eq_of_mem_replicate {c : DigestCache} {e : CachedBlockDigest}
    (hc : c.cached = .replicate cacheSize ⟨0, .zero 32⟩) (h : e ∈ c.cached.toList) :
    e.digest = .zero 32 := by
  rw [hc, Vector.toList_replicate] at h
  rw [List.eq_of_mem_replicate h]

theorem coherent_fresh (env : Env) : (CachingNode.fresh env).Coherent env where
  onChain := onChain_fresh env
  cache _ he hd := absurd (eq_of_mem_replicate rfl he) hd

/-- A digest from a coherent cache is that of the stored block. -/
theorem CachingNode.Coherent.digestFromCache (hs : s.Coherent env)
    (hd : s.cache.digestFromCache number ≠ .zero 32) :
    ∃ b, s.node.access.committed.get .blocks (be64 number) = some b ∧
      s.cache.digestFromCache number =
        headerDigest env s.node.access.committed (b.take totalBlockSize) number := by
  unfold DigestCache.digestFromCache at hd ⊢
  split at hd
  next e hfind =>
    have hnumber := List.find?_some hfind
    simp only [decide_eq_true_eq] at hnumber
    subst hnumber
    exact hs.cache e (List.mem_of_find?_eq_some hfind) hd
  next => exact absurd rfl hd

/-- A block that is stored can be read, unless its timestamp is ahead. -/
theorem genDigestFromPool_eq_ok {v : View} {digest : BlockDigest}
    (h : genDigestFromPool env now v number = .ok digest) :
    ∃ b hd, v.get .blocks (be64 number) = some b ∧
      HeaderOf env (b.take totalBlockSize) hd ∧
      digest = headerDigest env v (b.take totalBlockSize) hd.number := by
  unfold genDigestFromPool at h
  split at h
  · cases h
  next packed hget =>
    obtain ⟨⟨hd, digest', data⟩, hextract, h⟩ := bind_eq_ok.mp h
    cases h
    obtain ⟨-, hunpack, -, hdigest, -⟩ := extractHeader_eq_ok.mp hextract
    exact ⟨packed, hd, hget, ⟨now, hunpack⟩, hdigest⟩

theorem Node.OnChain.genDigestFromPool {node : Node} (hn : node.OnChain env) {b : Bytes}
    {hd : Header} (hb : node.access.committed.get .blocks (be64 number) = some b)
    (hhd : HeaderOf env (b.take totalBlockSize) hd) (htime : ¬ hd.timestamp > now + 5 * 60) :
    Bitmarkd.genDigestFromPool env now node.access.committed number =
      .ok (headerDigest env node.access.committed (b.take totalBlockSize) number) := by
  obtain ⟨hlen, hd', hhd', hnum⟩ := hn.chain.header hb
  obtain rfl := hhd.unique hhd'
  have hunpack := hhd.unpackHeader now
  rw [if_neg htime] at hunpack
  have hextract : extractHeader env now node.access.committed b 0 false =
      .ok (hd, headerDigest env node.access.committed (b.take totalBlockSize) number,
        b.drop totalBlockSize) := by
    refine extractHeader_eq_ok.mpr ⟨hlen, hunpack, fun h => absurd h (by decide), ?_, rfl⟩
    rw [if_neg Bool.false_ne_true, hnum]
  rw [Bitmarkd.genDigestFromPool, hb]
  exact bind_eq_ok.mpr ⟨_, hextract, rfl⟩

/-- A stored digest that is not all zero is that of a stored block. -/
theorem Node.OnChain.digestFromHashPool {node : Node} (hn : node.OnChain env)
    (hd : Bitmarkd.digestFromHashPool node.access.committed number ≠ .zero 32) :
    ∃ b, node.access.committed.get .blocks (be64 number) = some b ∧
      Bitmarkd.digestFromHashPool node.access.committed number =
        headerDigest env node.access.committed (b.take totalBlockSize) number := by
  have hsome : (node.access.committed.get .blockHeaderHash (be64 number)).isSome := by
    rw [Option.isSome_iff_ne_none]
    intro hnone
    exact hd (by rw [Bitmarkd.digestFromHashPool, hnone])
  have hblock : (node.access.committed.get .blocks (be64 number)).isSome := by
    rw [hn.chain.blocks, ← hn.chain.hashes]
    exact hsome
  obtain ⟨b, hb⟩ := Option.isSome_iff_exists.mp hblock
  exact ⟨b, hb, by rw [headerDigest, if_pos hd]⟩

/-- **A query** keeps the cache coherent. -/
theorem CachingNode.Coherent.digestForBlock (hs : s.Coherent env) (now number : UInt64) :
    (s.digestForBlock env now number).2.Coherent env := by
  have hadd {digest : BlockDigest}
      (hd : ∃ b, s.node.access.committed.get .blocks (be64 number) = some b ∧
        digest = headerDigest env s.node.access.committed (b.take totalBlockSize) number) :
      ({ s with cache := s.cache.addToCache number digest } : CachingNode).Coherent env := by
    refine ⟨hs.onChain, fun e he hne => ?_⟩
    rcases mem_addToCache he with rfl | he
    · exact hd
    · exact hs.cache e he hne
  unfold CachingNode.digestForBlock
  rw [Access.view_of_clean hs.onChain.clean]
  split_ifs with h1
  · exact hs
  · dsimp only
    split_ifs with hcached hstored
    · exact hs
    · exact hadd (hs.onChain.digestFromHashPool hstored)
    · split
      · exact hs
      next digest hdigest =>
        obtain ⟨b, hd, hb, hhd, hdigest⟩ := genDigestFromPool_eq_ok hdigest
        obtain ⟨-, hd', hhd', hnum⟩ := hs.onChain.chain.header hb
        obtain rfl := hhd.unique hhd'
        exact hadd ⟨b, hb, hnum ▸ hdigest⟩

theorem headerDigest_congr {v v' : View} {m : UInt64} {record : Bytes}
    (h : v'.get .blockHeaderHash (be64 m) = v.get .blockHeaderHash (be64 m)) :
    headerDigest env v' record m = headerDigest env v record m := by
  have hpool : digestFromHashPool v' m = digestFromHashPool v m := by
    rw [digestFromHashPool, h]
    rfl
  rw [headerDigest, hpool]
  rfl

/-- The blocks that were there when another is stored have their digests still. -/
theorem Pushes.headerDigest_eq {v v' : View} {n m : UInt64} {b record : Bytes} {d : BlockDigest}
    (hp : Pushes v v' n b d) (hm : m ≠ n) :
    headerDigest env v' record m = headerDigest env v record m :=
  headerDigest_congr (hp.hash_of_ne hm)

theorem Pops.headerDigest_eq {v v' : View} {n m : UInt64} {record : Bytes} (hp : Pops v v' n)
    (hm : m ≠ n) : headerDigest env v' record m = headerDigest env v record m := by
  apply headerDigest_congr
  rw [hp.hashes, if_neg (by rw [be64_inj]; exact hm.symm)]

/-- **Every call** keeps the cache coherent. -/
theorem CachingNode.Coherent.step (hs : s.Coherent env) (hop : op.KeepsCoherent s)
    (h : CachingStep env s op s') : s'.Coherent env := by
  cases op with
  | storeIncoming now packedBlock packedNextBlock =>
    obtain ⟨hstore, hcache⟩ := h
    obtain ⟨i, a, hacc, -, hupdate, hnode⟩ := storeIncoming_eq_ok.mp hstore
    obtain ⟨hnum, hwrap, hpush, hchain⟩ := hs.onChain.store hacc hupdate
    rw [← hnode] at hpush hchain
    refine ⟨hchain, fun e he hne => ?_⟩
    rw [hcache] at he
    obtain ⟨b, hb, hdigest⟩ := hs.cache e he hne
    have hm : e.blockNumber ≠ i.header.number := by
      intro heq
      have hle := (hs.onChain.chain.isSome_block.mp (by rw [hb]; rfl)).2
      rw [heq, hnum, UInt64.le_iff_toNat_le] at hle
      omega
    refine ⟨b, ?_, ?_⟩
    · rw [hpush.blocks, if_neg (by rw [be64_inj]; exact hm.symm)]
      exact hb
    · rw [hpush.headerDigest_eq hm]
      exact hdigest
  | deleteDownToBlock now finalBlockNumber =>
    have hrun : s.deleteDownToBlock env now finalBlockNumber = (.ok (), s') := h
    have hnode : ((s.deleteDownToBlock env now finalBlockNumber).1,
        (s.deleteDownToBlock env now finalBlockNumber).2.node) = _ := deleteDownToBlock_node
    rw [hrun] at hnode
    have hchain := (hs.onChain.delete (P := fun _ _ => True) hnode.symm
      (fun _ _ _ _ _ _ _ _ _ _ => trivial) trivial).2.1
    refine ⟨hchain, fun e he hne => ?_⟩
    unfold CachingNode.deleteDownToBlock at hrun
    split at hrun
    · cases hrun
      exact hs.cache e he hne
    next key packedBlock hlast =>
      rcases deleteLoop_cache hrun with hclear | ⟨hcache, hsame | ⟨hd, digest, data, hx, hlt, hdel⟩⟩
      · exact absurd (eq_of_mem_replicate hclear he) hne
      · rw [hsame]
        exact hs.cache e (hcache ▸ he) hne
      · -- the only block is deleted, so it is block 2
        obtain ⟨h2, -, hblock⟩ := hs.onChain.chain.lastElement hlast
        obtain ⟨-, hunpack, -⟩ := extractHeader_eq_ok.mp hx
        obtain ⟨-, hd', hhd', hnum⟩ := hs.onChain.chain.header hblock
        obtain rfl := HeaderOf.unique ⟨_, hunpack⟩ hhd'
        obtain ⟨-, hpops, hprevious⟩ := deleteBlock_pops hs.onChain.clean (hnum ▸ h2) hdel
        have hheight : s.node.header.height = 2 := by
          have hnone := (hs.onChain.chain.pop (hnum ▸ hpops) h2).isSome_block
            (n := s.node.header.height - 1)
          rw [← hnum, ← hprevious] at hnone
          have hnot : ¬ 2 ≤ s.node.header.height - 1 := by
            intro h2'
            rw [← hnum] at h2'
            exact absurd (hnone.mpr ⟨h2', UInt64.le_refl _⟩) (by simp)
          rw [UInt64.le_iff_toNat_le, toNat_pred h2] at hnot
          rw [UInt64.le_iff_toNat_le] at h2
          have h2' : (2 : UInt64).toNat = 2 := rfl
          rw [← UInt64.toNat_inj]
          omega
        rw [hcache] at he
        obtain ⟨b, hb, hdigest⟩ := hs.cache e he hne
        have hm : e.blockNumber ≠ hd.number := by
          intro heq
          rw [hnum, hheight] at heq hlt
          exact hne (hop hheight (UInt64.not_lt.mp hlt) e he heq)
        refine ⟨b, ?_, ?_⟩
        · rw [hpops.blocks, if_neg (by rw [be64_inj]; exact hm.symm)]
          exact hb
        · rw [hpops.headerDigest_eq hm]
          exact hdigest
  | digestForBlock now number =>
    obtain rfl : s' = (s.digestForBlock env now number).2 := h
    exact hs.digestForBlock now number

/-- With a coherent cache, `DigestForBlock` returns what it should. -/
theorem CachingNode.Coherent.digestForBlock_eq (hs : s.Coherent env)
    (hread : Readable env now s.node.access.committed number) :
    (s.digestForBlock env now number).1 = currentDigest env s.node.access.committed number := by
  unfold CachingNode.digestForBlock currentDigest
  rw [Access.view_of_clean hs.onChain.clean]
  split_ifs with h1
  · rfl
  · dsimp only
    split_ifs with hcached hstored
    · obtain ⟨b, hb, hdigest⟩ := hs.digestFromCache hcached
      rw [hb, hdigest]
    · obtain ⟨b, hb, hdigest⟩ := hs.onChain.digestFromHashPool hstored
      rw [hb, hdigest]
    · rcases hb : s.node.access.committed.get .blocks (be64 number) with _ | b
      · rw [genDigestFromPool, hb]
        rfl
      · obtain ⟨-, hd, hhd, -⟩ := hs.onChain.chain.header hb
        rw [hs.onChain.genDigestFromPool hb hhd (hread (not_not.mp hstored) hd ⟨b, hb, hhd⟩)]

/-- **Digests that are served are current.** In every run in which block 2 is never deleted as the
only block while its digest is in the cache, `DigestForBlock` returns the genesis digest up to 1,
the digest of the block that is stored under the number now, and an error if there is none. -/
theorem digestForBlock_current (hr : Run (CachingStep env) (CachingNode.fresh env) trace s)
    (hg : Guarded (fun s op => op.KeepsCoherent s) trace) {now number : UInt64}
    (hread : Readable env now s.node.access.committed number) :
    (s.digestForBlock env now number).1 = currentDigest env s.node.access.committed number := by
  have hs : s.Coherent env := hr.invariant hg (coherent_fresh env) fun hs hop h => hs.step hop h
  exact hs.digestForBlock_eq hread

end Coherent

/-! ### The digest of a deleted block -/

namespace Sample

/-- A run of one call that stores a block. -/
theorem run_store {now : UInt64} {b : Bytes} {next : Option Bytes}
    (h : ((Op.storeIncoming now b next).run env (Node.fresh env)).1.isOk = true) :
    Run (CachingStep env) (CachingNode.fresh env)
      [(CachingNode.fresh env, .storeIncoming now b next)]
      ⟨after [.storeIncoming now b next], .empty⟩ := by
  have hstep := step_of_isOk h
  have hrun : (Op.storeIncoming now b next).run env (Node.fresh env) = (.ok (), _) := hstep
  have hafter : after [.storeIncoming now b next] =
      ((Op.storeIncoming now b next).run env (Node.fresh env)).2 := by
    rw [after, runOps, hrun]
    rfl
  rw [← hafter] at hstep
  exact Run.single ⟨hstep, rfl⟩

/-- A call that stores block 2. -/
def secondBlock : Op :=
  fastSync (block 2 2 testGenesisDigest 10 [foundation, asset 1]) 2 (id 5)

/-- The node with block 2, after a query for its digest. -/
def queried : CachingNode :=
  ((⟨after [secondBlock], .empty⟩ : CachingNode).digestForBlock env 1000 2).2

theorem run_queried : ∃ trace, Run (CachingStep env) (CachingNode.fresh env) trace queried ∧
    Guarded (fun s op => op.KeepsCoherent s) trace := by
  have hok : (secondBlock.run env (Node.fresh env)).1.isOk = true := by decide +kernel
  obtain ⟨now, b, next, hop⟩ : ∃ now b next, secondBlock = .storeIncoming now b next :=
    ⟨_, _, _, rfl⟩
  rw [queried]
  rw [hop] at hok ⊢
  have hquery (s : CachingNode) :
    CachingStep env s (.digestForBlock 1000 2) (s.digestForBlock env 1000 2).2 := rfl
  refine ⟨_, (run_store hok).snoc (hquery _), ?_⟩
  simp [Guarded, CachingOp.KeepsCoherent]

/-- What is checked of the node after block 2 is deleted again. -/
theorem deleted_isOk : (queried.deleteDownToBlock env 1000 2).1.isOk = true ∧
    (queried.deleteDownToBlock env 1000 2).2.node.access.committed.get .blocks (be64 2) = none ∧
    ((queried.deleteDownToBlock env 1000 2).2.digestForBlock env 1000 2).1 = .ok (id 5) := by
  decide +kernel

/-- Block 2 is deleted, and its digest is still returned. -/
theorem deleted_digest_served : ∃ trace s,
    Run (CachingStep env) (CachingNode.fresh env) trace s ∧
      s.node.access.committed.get .blocks (be64 2) = none ∧
      (s.digestForBlock env 1000 2).1 = .ok (id 5) := by
  obtain ⟨trace, hrun, -⟩ := run_queried
  obtain ⟨hok, hnone, hserved⟩ := deleted_isOk
  rcases hdelete : queried.deleteDownToBlock env 1000 2 with ⟨result, s⟩
  rw [hdelete] at hok hnone hserved
  cases result with
  | error e => cases hok
  | ok u =>
    have hstep : CachingStep env queried (.deleteDownToBlock 1000 2) s := hdelete
    exact ⟨_, s, hrun.snoc hstep, hnone, hserved⟩

/-- Before that, the digest of block 2 is the one it was stored with. -/
theorem digestForBlock_current_queried : (queried.digestForBlock env 1000 2).1 =
    currentDigest env queried.node.access.committed 2 := by
  obtain ⟨trace, hrun, hguarded⟩ := run_queried
  refine digestForBlock_current hrun hguarded fun hzero => ?_
  exact absurd hzero (by decide +kernel)

end Sample

end Bitmarkd
