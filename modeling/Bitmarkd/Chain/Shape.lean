import Bitmarkd.Block.Frame

/-!
# The shape of the chain

The blocks of a node are numbered from 2 (the genesis block is not stored) up to the height in the
header data, each stored with its digest under its own number (`BlockChain`). Storing a block pushes
one more, deleting pops the last one; the header data is that of the last block (`Tip`).

`Deleting.induct` packages the induction over a deletion: what the deletion of the last block keeps,
a whole `DeleteDownToBlock` keeps.
-/

namespace Bitmarkd

open Lib

/-! ## Chains -/

/-- Block `n` is stored, with this header. -/
def HeaderAt (env : Env) (v : View) (n : UInt64) (hd : Header) : Prop :=
  ∃ b, v.get .blocks (be64 n) = some b ∧ HeaderOf env (b.take totalBlockSize) hd

theorem HeaderAt.unique {env : Env} {v : View} {n : UInt64} {hd hd' : Header}
    (h : HeaderAt env v n hd) (h' : HeaderAt env v n hd') : hd = hd' := by
  obtain ⟨b, hb, hh⟩ := h
  obtain ⟨b', hb', hh'⟩ := h'
  obtain rfl := Option.some.inj (hb.symm.trans hb')
  exact hh.unique hh'

/-- The database holds blocks 2 to `h`, with headers that have their numbers and versions that do
not decrease, and a digest for each. -/
structure BlockChain (env : Env) (v : View) (h : UInt64) : Prop where
  one_le : 1 ≤ h
  blocks : ∀ k, (v.get .blocks k).isSome ↔ ∃ n, k = be64 n ∧ 2 ≤ n ∧ n ≤ h
  hashes : ∀ k, (v.get .blockHeaderHash k).isSome ↔ ∃ n, k = be64 n ∧ 2 ≤ n ∧ n ≤ h
  header : ∀ {n b}, v.get .blocks (be64 n) = some b → totalBlockSize ≤ b.length ∧
    ∃ hd, HeaderOf env (b.take totalBlockSize) hd ∧ hd.number = n
  digest : ∀ {n b}, v.get .blockHeaderHash (be64 n) = some b → ∃ d : BlockDigest, b = d.bytes
  versions : ∀ {n hd hd'}, HeaderAt env v n hd → HeaderAt env v (n + 1) hd' →
    hd.version ≤ hd'.version

/-- The header data is that of the last block. A digest that was stored as all zero is not
read back. -/
def Tip (env : Env) (v : View) (data : HeaderData) : Prop :=
  data = genesisHeader env ∨ 2 ≤ data.height ∧ ∃ hd d, HeaderAt env v data.height hd ∧
    data.previousVersion = hd.version ∧ data.previousTimestamp = hd.timestamp ∧
    v.get .blockHeaderHash (be64 data.height) = some d.bytes ∧
    (d ≠ .zero 32 → data.previousBlock = d)

section Chain

variable {env : Env} {v v' : View} {h : UInt64}

/-- The empty database. -/
theorem BlockChain.empty : BlockChain env (fun _ => none) 1 where
  one_le := by decide
  blocks k := by
    refine ⟨fun hk => by simp [View.get] at hk, fun ⟨n, _, h₂, h₁⟩ =>
      absurd (UInt64.le_trans h₂ h₁) ?_⟩
    decide
  hashes k := by
    refine ⟨fun hk => by simp [View.get] at hk, fun ⟨n, _, h₂, h₁⟩ =>
      absurd (UInt64.le_trans h₂ h₁) ?_⟩
    decide
  header hb := by simp [View.get] at hb
  digest hb := by simp [View.get] at hb
  versions := by
    rintro n hd hd' ⟨b, hb, -⟩
    simp [View.get] at hb

theorem BlockChain.isSome_block (hc : BlockChain env v h) {n : UInt64} :
    (v.get .blocks (be64 n)).isSome ↔ 2 ≤ n ∧ n ≤ h := by
  rw [hc.blocks]
  constructor
  · rintro ⟨m, hm, hn⟩
    rwa [be64_inj.mp hm]
  · exact fun hn => ⟨n, rfl, hn⟩

theorem BlockChain.isSome_hash (hc : BlockChain env v h) {n : UInt64} :
    (v.get .blockHeaderHash (be64 n)).isSome ↔ 2 ≤ n ∧ n ≤ h := by
  rw [hc.hashes]
  constructor
  · rintro ⟨m, hm, hn⟩
    rwa [be64_inj.mp hm]
  · exact fun hn => ⟨n, rfl, hn⟩

/-- Every stored block has a header. -/
theorem BlockChain.headerAt (hc : BlockChain env v h) {n : UInt64} (h₂ : 2 ≤ n) (hn : n ≤ h) :
    ∃ hd, HeaderAt env v n hd ∧ hd.number = n := by
  obtain ⟨b, hb⟩ := Option.isSome_iff_exists.mp (hc.isSome_block.mpr ⟨h₂, hn⟩)
  obtain ⟨-, hd, hhd, hnum⟩ := hc.header hb
  exact ⟨hd, ⟨b, hb, hhd⟩, hnum⟩

theorem BlockChain.digestAt (hc : BlockChain env v h) {n : UInt64} (h₂ : 2 ≤ n) (hn : n ≤ h) :
    ∃ d : BlockDigest, v.get .blockHeaderHash (be64 n) = some d.bytes := by
  obtain ⟨b, hb⟩ := Option.isSome_iff_exists.mp (hc.isSome_hash.mpr ⟨h₂, hn⟩)
  obtain ⟨d, rfl⟩ := hc.digest hb
  exact ⟨d, hb⟩

theorem HeaderAt.le (hc : BlockChain env v h) {n : UInt64} {hd : Header}
    (hn : HeaderAt env v n hd) :
    2 ≤ n ∧ n ≤ h := by
  obtain ⟨b, hb, -⟩ := hn
  exact hc.isSome_block.mp (by simp [hb])

/-- Block numbers up to the next one, in a chain that can still grow. -/
theorem le_succ_iff {n : UInt64} (hwrap : (h + 1).toNat = h.toNat + 1) (h1 : 1 ≤ h) :
    (2 ≤ n ∧ n ≤ h + 1) ↔ n = h + 1 ∨ 2 ≤ n ∧ n ≤ h := by
  rw [UInt64.le_iff_toNat_le] at h1
  simp only [UInt64.le_iff_toNat_le, ← UInt64.toNat_inj, hwrap]
  have h1' : (1 : UInt64).toNat = 1 := rfl
  have h2' : (2 : UInt64).toNat = 2 := rfl
  omega

theorem isSome_push {p : Pool} {b : Bytes} (hwrap : (h + 1).toNat = h.toNat + 1) (h1 : 1 ≤ h)
    (hv : ∀ k, (v.get p k).isSome ↔ ∃ n, k = be64 n ∧ 2 ≤ n ∧ n ≤ h)
    (hv' : ∀ k, v'.get p k = if be64 (h + 1) = k then some b else v.get p k) (k : Bytes) :
    (v'.get p k).isSome ↔ ∃ n, k = be64 n ∧ 2 ≤ n ∧ n ≤ h + 1 := by
  rw [hv']
  split
  next hk =>
    exact ⟨fun _ => ⟨h + 1, hk.symm, (le_succ_iff hwrap h1).mpr (Or.inl rfl)⟩, fun _ => rfl⟩
  next hk =>
    rw [hv]
    constructor
    · rintro ⟨n, rfl, hn⟩
      exact ⟨n, rfl, (le_succ_iff hwrap h1).mpr (Or.inr hn)⟩
    · rintro ⟨n, rfl, hn⟩
      rcases (le_succ_iff hwrap h1).mp hn with rfl | hn
      · exact absurd rfl hk
      · exact ⟨n, rfl, hn⟩

/-- The view has one more block, and its digest. -/
structure Pushes (v v' : View) (n : UInt64) (b : Bytes) (d : BlockDigest) : Prop where
  blocks : ∀ k, v'.get .blocks k = if be64 n = k then some b else v.get .blocks k
  hashes : ∀ k, v'.get .blockHeaderHash k =
    if be64 n = k then some d.bytes else v.get .blockHeaderHash k

/-- The headers of the other blocks stay. -/
theorem Pushes.headerAt {n m : UInt64} {b : Bytes} {d : BlockDigest} {hd : Header}
    (hp : Pushes v v' n b d) (hm : m ≠ n) : HeaderAt env v' m hd ↔ HeaderAt env v m hd := by
  simp only [HeaderAt, hp.blocks, be64_inj, if_neg hm.symm]

theorem Pushes.headerAt_new {n : UInt64} {b : Bytes} {d : BlockDigest} {hd : Header}
    (hp : Pushes v v' n b d) : HeaderAt env v' n hd ↔ HeaderOf env (b.take totalBlockSize) hd := by
  simp [HeaderAt, hp.blocks]

/-- The digests of the other blocks stay. -/
theorem Pushes.hash_of_ne {n m : UInt64} {b : Bytes} {d : BlockDigest} (hp : Pushes v v' n b d)
    (hm : m ≠ n) : v'.get .blockHeaderHash (be64 m) = v.get .blockHeaderHash (be64 m) := by
  simp [hp.hashes, hm.symm]

/-- **Pushing a block** on a chain. -/
theorem BlockChain.push {b : Bytes} {d : BlockDigest} {hd : Header} (hc : BlockChain env v h)
    (hp : Pushes v v' (h + 1) b d) (hwrap : (h + 1).toNat = h.toNat + 1)
    (hlen : totalBlockSize ≤ b.length) (hhd : HeaderOf env (b.take totalBlockSize) hd)
    (hnum : hd.number = h + 1)
    (hversion : ∀ hd₀, HeaderAt env v h hd₀ → hd₀.version ≤ hd.version) :
    BlockChain env v' (h + 1) where
  one_le := by
    have := hc.one_le
    rw [UInt64.le_iff_toNat_le] at this ⊢
    omega
  blocks := isSome_push hwrap hc.one_le hc.blocks hp.blocks
  hashes := isSome_push hwrap hc.one_le hc.hashes hp.hashes
  header := by
    intro n b' hb'
    rw [hp.blocks] at hb'
    split at hb'
    next hn =>
      cases hb'
      exact ⟨hlen, hd, hhd, hnum.trans (be64_inj.mp hn)⟩
    next => exact hc.header hb'
  digest := by
    intro n b' hb'
    rw [hp.hashes] at hb'
    split at hb'
    · cases hb'
      exact ⟨d, rfl⟩
    · exact hc.digest hb'
  versions := by
    intro n hd₁ hd₂ h₁ h₂
    by_cases hn : n = h
    · subst hn
      have hne : n ≠ n + 1 := by
        intro hc
        rw [← UInt64.toNat_inj, hwrap] at hc
        omega
      rw [hp.headerAt hne] at h₁
      rw [hp.headerAt_new] at h₂
      rw [h₂.unique hhd]
      exact hversion _ h₁
    · have hn' : n + 1 ≠ h + 1 := fun hc => hn (by simpa using hc)
      rw [hp.headerAt hn'] at h₂
      by_cases hn₁ : n = h + 1
      · -- the block after the new one would be stored already
        subst hn₁
        have hle := (HeaderAt.le hc h₂).2
        have h1 := (HeaderAt.le hc h₂).1
        rw [UInt64.le_iff_toNat_le, UInt64.toNat_add, hwrap] at hle
        rw [UInt64.le_iff_toNat_le, UInt64.toNat_add, hwrap] at h1
        have h1' : (1 : UInt64).toNat = 1 := rfl
        have h2' : (2 : UInt64).toNat = 2 := rfl
        have := h.toNat_lt
        rw [h1'] at hle h1
        rw [h2'] at h1
        omega
      · rw [hp.headerAt hn₁] at h₁
        exact hc.versions h₁ h₂

/-- The view has lost block `n` and its digest. -/
structure Pops (v v' : View) (n : UInt64) : Prop where
  blocks : ∀ k, v'.get .blocks k = if be64 n = k then none else v.get .blocks k
  hashes : ∀ k, v'.get .blockHeaderHash k =
    if be64 n = k then none else v.get .blockHeaderHash k

theorem Pops.of_headerAt {n m : UInt64} {hd : Header} (hp : Pops v v' n)
    (hm : HeaderAt env v' m hd) : HeaderAt env v m hd := by
  obtain ⟨b, hb, hhd⟩ := hm
  rw [hp.blocks] at hb
  split at hb
  · cases hb
  · exact ⟨b, hb, hhd⟩

theorem toNat_pred (h2 : 2 ≤ h) : (h - 1).toNat = h.toNat - 1 :=
  UInt64.toNat_sub_of_le _ _ (UInt64.le_trans (by decide) h2)

theorem le_pred_iff {n : UInt64} (h2 : 2 ≤ h) : (2 ≤ n ∧ n ≤ h - 1) ↔ n ≠ h ∧ 2 ≤ n ∧ n ≤ h := by
  have hpred := toNat_pred h2
  rw [UInt64.le_iff_toNat_le] at h2
  simp only [UInt64.le_iff_toNat_le, ne_eq, ← UInt64.toNat_inj, hpred]
  have h2' : (2 : UInt64).toNat = 2 := rfl
  omega

theorem isSome_pop {p : Pool} (h2 : 2 ≤ h)
    (hv : ∀ k, (v.get p k).isSome ↔ ∃ n, k = be64 n ∧ 2 ≤ n ∧ n ≤ h)
    (hv' : ∀ k, v'.get p k = if be64 h = k then none else v.get p k) (k : Bytes) :
    (v'.get p k).isSome ↔ ∃ n, k = be64 n ∧ 2 ≤ n ∧ n ≤ h - 1 := by
  rw [hv']
  split
  next hk =>
    refine ⟨fun hs => by simp at hs, ?_⟩
    rintro ⟨n, rfl, hn⟩
    exact absurd (be64_inj.mp hk).symm ((le_pred_iff h2).mp hn).1
  next hk =>
    rw [hv]
    constructor
    · rintro ⟨n, rfl, hn⟩
      exact ⟨n, rfl, (le_pred_iff h2).mpr ⟨fun hc => hk (by rw [hc]), hn⟩⟩
    · rintro ⟨n, rfl, hn⟩
      exact ⟨n, rfl, ((le_pred_iff h2).mp hn).2⟩

/-- **Popping the last block** of a chain. -/
theorem BlockChain.pop (hc : BlockChain env v h) (hp : Pops v v' h) (h2 : 2 ≤ h) :
    BlockChain env v' (h - 1) where
  one_le := by
    have hpred := toNat_pred h2
    rw [UInt64.le_iff_toNat_le] at h2 ⊢
    have h1' : (1 : UInt64).toNat = 1 := rfl
    have h2' : (2 : UInt64).toNat = 2 := rfl
    omega
  blocks := isSome_pop h2 hc.blocks hp.blocks
  hashes := isSome_pop h2 hc.hashes hp.hashes
  header := by
    intro n b hb
    rw [hp.blocks] at hb
    split at hb
    · cases hb
    · exact hc.header hb
  digest := by
    intro n b hb
    rw [hp.hashes] at hb
    split at hb
    · cases hb
    · exact hc.digest hb
  versions h₁ h₂ := hc.versions (hp.of_headerAt h₁) (hp.of_headerAt h₂)

end Chain

/-! ## The node -/

/-- Between calls: no database transaction is open, the database holds a chain, and the header data
is that of its last block. -/
structure Node.OnChain (env : Env) (node : Node) : Prop where
  clean : node.access.Clean
  rebuild : node.rebuild = false
  chain : BlockChain env node.access.committed node.header.height
  tip : Tip env node.access.committed node.header

theorem onChain_fresh (env : Env) : (Node.fresh env).OnChain env where
  clean := Overlay.clean_ofDb _
  rebuild := rfl
  chain := .empty
  tip := Or.inl rfl

/-! ## Storing -/

section Store

variable {env : Env} {now : UInt64} {packedBlock : Bytes} {packedNextBlock : Option Bytes}
  {node : Node} {i : Incoming} {a : Access}

/-- The header and data come from the block, and the digest as well unless there is a next one. -/
theorem extractIncoming_eq_ok {hd : Header} {digest : BlockDigest} {data : Bytes}
    (h : extractIncoming env now node packedBlock packedNextBlock = .ok (hd, digest, data)) :
    totalBlockSize ≤ packedBlock.length ∧
      HeaderOf env (packedBlock.take totalBlockSize) hd ∧ data = packedBlock.drop totalBlockSize ∧
      (packedNextBlock = none → digest =
        headerDigest env node.access.view (packedBlock.take totalBlockSize) hd.number) := by
  unfold extractIncoming at h
  dsimp only at h
  split at h
  next packedNext =>
    obtain ⟨⟨hd', digest', data'⟩, hextract, h⟩ := bind_eq_ok.mp h
    obtain ⟨⟨next, nextDigest, nextData⟩, -, h⟩ := bind_eq_ok.mp h
    cases h
    obtain ⟨hlen, hunpack, -, -, hdata⟩ := extractHeader_eq_ok.mp hextract
    exact ⟨hlen, ⟨now, hunpack⟩, hdata, fun hc => (nomatch hc)⟩
  next =>
    obtain ⟨hlen, hunpack, -, hdigest, hdata⟩ := extractHeader_eq_ok.mp h
    exact ⟨hlen, ⟨now, hunpack⟩, hdata, fun _ => hdigest⟩

theorem HeaderOf.one_le {record : Bytes} {hd : Header} (h : HeaderOf env record hd) :
    1 ≤ hd.number := by
  have hcounts := h.counts
  unfold checkHeaderCounts at hcounts
  split at hcounts
  next hone => exact hone.1 ▸ UInt64.le_refl _
  · split at hcounts
    · simp at hcounts
    next hver =>
      have h2 : ¬ hd.number < 2 := fun hc => hver (Or.inr hc)
      exact UInt64.le_trans (by decide) (UInt64.not_lt.mp h2)

/-- The number of a stored block does not wrap around. -/
theorem toNat_succ_of_one_le {h n : UInt64} (hn : n = h + 1) (h1 : 1 ≤ n) :
    (h + 1).toNat = h.toNat + 1 := by
  rw [hn, UInt64.le_iff_toNat_le, UInt64.toNat_add] at h1
  rw [UInt64.toNat_add]
  have h1' : (1 : UInt64).toNat = 1 := rfl
  rw [h1'] at h1 ⊢
  have := h.toNat_lt
  omega

/-- The updates of a block push it. -/
theorem updateBlock_pushes {b : Bytes} {hd : Header} {d : BlockDigest} {height : UInt64}
    {txs : List Txn} {foundation : Foundation} {a' : Access} (hclean : a.Clean)
    (h : updateBlock env height false b hd d txs foundation a.begin = .ok a') :
    Pushes a.committed a'.pending hd.number b d := by
  obtain ⟨a₁, a₂, htxs, hfoundation, -, rfl⟩ := updateBlock_eq_ok h
  have ht := htxs.touches.trans ((updateFoundation_touches hfoundation).mono (by decide))
  have hpending {p : Pool} (k : Bytes) (hp : p ∉ recordPools) :
      a₂.pending.get p k = a.committed.get p k := by
    rw [ht.pending k hp, pending_begin, Access.pending_of_clean hclean]
  constructor
  · intro k
    simp [hpending k (p := .blocks) (by decide)]
  · intro k
    simp [hpending k (p := .blockHeaderHash) (by decide)]

theorem Tip.version_le {v : View} {data : HeaderData} {hd : Header} {incoming : UInt16}
    (htip : Tip env v data) (hc : BlockChain env v data.height)
    (hversion : validHeaderVersion data.previousVersion incoming = .ok ())
    (hhd : HeaderAt env v data.height hd) : hd.version ≤ incoming := by
  rcases htip with rfl | ⟨-, hd', d, hhd', hver, -⟩
  · exact absurd (HeaderAt.le hc hhd).1 (by decide : ¬ (2 : UInt64) ≤ 1)
  · obtain rfl := hhd.unique hhd'
    unfold validHeaderVersion at hversion
    split at hversion
    · simp at hversion
    · split at hversion
      · simp at hversion
      next hlt => exact hver ▸ UInt16.not_lt.mp hlt

/-- The records of an accepted block are among the strings hashed. -/
theorem Accepted.packed_mem_hashed (h : Accepted env now packedBlock packedNextBlock node i)
    {item : Txn} (hitem : item ∈ i.txs) :
    item.packed ∈ (Op.storeIncoming now packedBlock packedNextBlock).hashed env := by
  obtain ⟨hlen, -, hdata, -⟩ := extractIncoming_eq_ok h.extract
  have hrecords := (validateBlock_eq_ok h.validate).1
  rw [hdata] at hrecords
  refine List.mem_append_left _ (hrecords.mem_splitRecords ?_ item.record
    (List.mem_map_of_mem hitem))
  refine hrecords.length_le.trans ?_
  simp

/-- So is the string of its foundation. -/
theorem Accepted.foundation_mem_hashed (h : Accepted env now packedBlock packedNextBlock node i)
    (hn : node.OnChain env) (hnumber : i.header.number = node.header.height + 1) :
    foundationBytes i.header.number i.digest ∈
      (Op.storeIncoming now packedBlock packedNextBlock).hashed env := by
  obtain ⟨-, hhd, -, hdigest⟩ := extractIncoming_eq_ok h.extract
  have hnum : blockNumberOf packedBlock = i.header.number := hhd.number_eq.symm
  refine List.mem_append_right _ ?_
  rw [hnum]
  cases hnext : packedNextBlock with
  | none =>
    -- the block is new, so the digest is the hash of its header
    have hwrap := toNat_succ_of_one_le hnumber hhd.one_le
    have hnone : node.access.view.get .blockHeaderHash (be64 i.header.number) = none := by
      rw [Access.view_of_clean hn.clean, ← Option.not_isSome_iff_eq_none, hn.chain.isSome_hash,
        hnumber, UInt64.le_iff_toNat_le, UInt64.le_iff_toNat_le, hwrap]
      omega
    rw [hdigest hnext, headerDigest, digestFromHashPool, hnone]
    simp
  | some next =>
    refine List.mem_cons_of_mem _ (List.mem_singleton.mpr ?_)
    have hextract := h.extract
    rw [hnext] at hextract
    obtain ⟨_, -, hextract⟩ := bind_eq_ok.mp hextract
    obtain ⟨⟨hd', _, _⟩, hnextHeader, hextract⟩ := bind_eq_ok.mp hextract
    obtain ⟨-, hunpack, -⟩ := extractHeader_eq_ok.mp hnextHeader
    obtain ⟨-, -, -, hfields⟩ := unpackHeader_eq_ok.mp hunpack
    have hdigest' := (Prod.mk.inj (Prod.mk.inj (Except.ok.inj hextract)).2).1
    rw [← hdigest', hfields]

/-- **Storing a block** pushes it on the chain. -/
theorem Node.OnChain.store (hn : node.OnChain env)
    (hacc : Accepted env now packedBlock packedNextBlock node i)
    (hupdate : updateBlock env node.header.height node.rebuild packedBlock i.header i.digest i.txs
      i.foundation node.access.begin = .ok a) :
    i.header.number = node.header.height + 1 ∧
      (node.header.height + 1).toNat = node.header.height.toNat + 1 ∧
      Pushes node.access.committed (node.stored i a).access.committed i.header.number packedBlock
        i.digest ∧ (node.stored i a).OnChain env := by
  obtain ⟨hlen, hhd, hdata, -⟩ := extractIncoming_eq_ok hacc.extract
  obtain ⟨-, -, -, -, hnumber, -⟩ := updateBlock_eq_ok hupdate
  have hwrap := toNat_succ_of_one_le hnumber hhd.one_le
  rw [hn.rebuild] at hupdate
  have hpush : Pushes node.access.committed (node.stored i a).access.committed i.header.number
      packedBlock i.digest := by
    rw [Node.stored, committed_commit]
    exact updateBlock_pushes hn.clean hupdate
  refine ⟨hnumber, hwrap, hpush, ?_⟩
  have hnew : HeaderAt env (node.stored i a).access.committed i.header.number i.header :=
    hpush.headerAt_new.mpr hhd
  refine ⟨Overlay.clean_commit _, hn.rebuild, ?_, Or.inr ⟨?_, i.header, i.digest, hnew, rfl, rfl,
    ?_, fun _ => rfl⟩⟩
  · show BlockChain env _ i.header.number
    rw [hnumber] at hpush ⊢
    exact hn.chain.push hpush hwrap hlen hhd hnumber fun hd₀ hhd₀ =>
      hn.tip.version_le hn.chain hacc.version hhd₀
  · show 2 ≤ i.header.number
    have h1 := hn.chain.one_le
    rw [UInt64.le_iff_toNat_le] at h1 ⊢
    have h1' : (1 : UInt64).toNat = 1 := rfl
    have h2' : (2 : UInt64).toNat = 2 := rfl
    rw [hnumber, hwrap]
    omega
  · show View.get _ _ (be64 i.header.number) = _
    rw [hpush.hashes, if_pos rfl]

end Store

/-! ## Deleting -/

section Delete

variable {env : Env} {now finalBlockNumber : UInt64} {node node' : Node}

/-- Undoing records leaves the other pools. -/
theorem Undone.frame {a a' : Access} {rs : List (Bytes × Transaction)} (h : Undone env a rs a')
    (hclean : a.Clean) : a'.Clean ∧
      ∀ {p} k, p ∉ recordPools → a'.committed.get p k = a.committed.get p k := by
  induction h with
  | nil a => exact ⟨hclean, fun _ _ => rfl⟩
  | @cons a trx a' packed tx rs huse hundo _ ih =>
    obtain ⟨hclean', hframe⟩ := ih (Overlay.clean_commit _)
    refine ⟨hclean', fun {p} k hp => ?_⟩
    have ht := (unapplied_of_undoTransaction hundo).touches.mono tx.pools_subset
    rw [hframe k hp, committed_commit, ht.pending k hp, pending_begin,
      Access.pending_of_clean hclean]

/-- The deletion of the block's own records. -/
theorem deleteFoundation_eq_ok {a trx : Access} {number : UInt64} {digest : BlockDigest}
    {blockOwner : Option Account}
    (h : deleteFoundation env a number digest blockOwner = .ok trx) :
    ∃ trx₁ : Access, releaseFoundation
        (a.poolRemove .transactions (foundationTxId env number digest).bytes)
        (foundationTxId env number digest) blockOwner = .ok trx₁ ∧
      trx = (((trx₁.poolRemove .blockOwnerTxIndex
        (foundationTxId env number digest).bytes).poolRemove
        .blockOwnerPayment (be64 number)).poolRemove .blocks (be64 number)).poolRemove
        .blockHeaderHash (be64 number) := by
  obtain ⟨trx₁, htrx₁, h⟩ := bind_eq_ok.mp h
  cases h
  exact ⟨trx₁, htrx₁, rfl⟩

/-- The pools of blocks, when the block's own records are deleted. -/
theorem deleteFoundation_pops {a trx : Access} {number : UInt64} {digest : BlockDigest}
    {blockOwner : Option Account} (hclean : a.Clean)
    (h : deleteFoundation env a.begin number digest blockOwner = .ok trx) :
    Pops a.committed trx.pending number ∧
      ∀ k, k ≠ be64 number → trx.view.get .blocks k = a.committed.get .blocks k := by
  obtain ⟨trx₁, htrx₁, rfl⟩ := deleteFoundation_eq_ok h
  have hsame {p : Pool} (k : Bytes) (hp : p ∉ recordPools) :
      trx₁.pending.get p k = a.committed.get p k ∧ trx₁.view.get p k = a.committed.get p k := by
    cases blockOwner with
    | none =>
      cases htrx₁
      have habort := Overlay.clean_ofDb a.db
      exact ⟨congrArg (fun v => View.get v p k) (Access.pending_of_clean habort),
        congrArg (fun v => View.get v p k) (Access.view_of_clean habort)⟩
    | some owner =>
      have ht : Touches recordPools a.begin trx₁ :=
        (Touches.poolRemove _ (by decide)).trans
          ((transferOwnership_touches htrx₁).mono (by decide))
      rw [ht.pending k hp, ht.view k hp, pending_begin, view_begin,
        Access.pending_of_clean hclean, Access.view_of_clean hclean]
      exact ⟨rfl, rfl⟩
  refine ⟨⟨fun k => ?_, fun k => ?_⟩, fun k hk => ?_⟩
  · simp [(hsame k (p := .blocks) (by decide)).1]
  · simp [(hsame k (p := .blockHeaderHash) (by decide)).1]
  · simp [(hsame k (p := .blocks) (by decide)).2, hk.symm]

/-- **Deleting a block** pops it, and finds the one before. -/
theorem deleteBlock_pops {a a' : Access} {hd : Header} {digest : BlockDigest} {data : Bytes}
    {previous : Option Bytes} (hclean : a.Clean) (h2 : 2 ≤ hd.number)
    (h : deleteBlock env a hd digest data = (.ok previous, a')) :
    a'.Clean ∧ Pops a.committed a'.committed hd.number ∧
      previous = a'.committed.get .blocks (be64 (hd.number - 1)) := by
  obtain ⟨rs, a₁, trx, -, -, hundone, huse, hfoundation, rfl, rfl⟩ := deleteBlock_eq_ok h
  obtain ⟨hclean₁, hframe⟩ := hundone.frame hclean
  obtain ⟨hpops, hview⟩ := deleteFoundation_pops hclean₁ hfoundation
  have hne : be64 (hd.number - 1) ≠ be64 hd.number := by
    rw [Ne, be64_inj]
    intro hc
    have hpred := toNat_pred h2
    rw [UInt64.le_iff_toNat_le] at h2
    have h2' : (2 : UInt64).toNat = 2 := rfl
    rw [hc] at hpred
    omega
  refine ⟨Overlay.clean_commit _, ⟨fun k => ?_, fun k => ?_⟩, ?_⟩
  · rw [committed_commit, hpops.blocks, hframe k (by decide)]
  · rw [committed_commit, hpops.hashes, hframe k (by decide)]
  · rw [hview _ hne, committed_commit, hpops.blocks, if_neg hne.symm]

/-- The digest that deletion gives the header data is the stored one, unless that is all zero. -/
theorem headerDigest_of_hash {v : View} {record : Bytes} {n : UInt64} {d : BlockDigest}
    (h : v.get .blockHeaderHash (be64 n) = some d.bytes) (hd : d ≠ .zero 32) :
    headerDigest env v record n = d := by
  simp [headerDigest, digestFromHashPool, h, hd]

/-- **The induction over a deletion.** A property of the database at a height that the deletion of
the last block keeps holds where the deletion stops: at an empty chain, or at a block below the
final one, whose difficulty is then set. -/
theorem Deleting.induct {P : Access → UInt64 → Prop}
    (hstep : ∀ {a a' m b hd digest data previous}, a.Clean → BlockChain env a.committed m →
      2 ≤ m → a.committed.get .blocks (be64 m) = some b → hd.number = m → finalBlockNumber ≤ m →
      extractHeader env now a.view b 0 false = .ok (hd, digest, data) →
      deleteBlock env a hd digest data = (.ok previous, a') →
      Pops a.committed a'.committed m → P a m → P a' (m - 1))
    {packedBlock : Bytes} {m : UInt64}
    (h : Deleting env now finalBlockNumber node packedBlock node')
    (hclean : node.access.Clean) (hchain : BlockChain env node.access.committed m) (h2 : 2 ≤ m)
    (hblock : node.access.committed.get .blocks (be64 m) = some packedBlock)
    (hP : P node.access m) :
    P node'.access node'.header.height ∧ node'.access.Clean ∧ node'.rebuild = node.rebuild ∧
      BlockChain env node'.access.committed node'.header.height ∧
      Tip env node'.access.committed node'.header ∧
      (node'.header.height = 1 ∧ node'.current = node.current ∨
        node'.header.height < finalBlockNumber ∧ ∃ hd,
          HeaderAt env node'.access.committed node'.header.height hd ∧
          difficultyAtStop env now { node with access := node'.access } hd
            = .ok node'.current) := by
  induction h generalizing m with
  | @stop node packedBlock data hd digest current hextract hlt hcurrent =>
    obtain ⟨hlen, hunpack, -, hdigest, -⟩ := extractHeader_eq_ok.mp hextract
    obtain ⟨-, hd', hhd', hnum⟩ := hchain.header hblock
    obtain rfl := hhd'.unique ⟨now, hunpack⟩
    subst hnum
    have hat : HeaderAt env node.access.committed hd'.number hd' := ⟨packedBlock, hblock, hhd'⟩
    obtain ⟨d, hd⟩ := hchain.digestAt h2 (UInt64.le_refl _)
    refine ⟨hP, hclean, rfl, hchain, Or.inr ⟨h2, hd', d, hat, rfl, rfl, hd, fun hne => ?_⟩,
      Or.inr ⟨hlt, hd', hat, hcurrent⟩⟩
    rw [← Access.view_of_clean hclean] at hd
    simp only [hdigest, headerDigest_of_hash hd hne]
    rfl
  | @empty node packedBlock data hd digest access hextract hlt hdelete =>
    obtain ⟨hlen, hunpack, -, hdigest, -⟩ := extractHeader_eq_ok.mp hextract
    obtain ⟨-, hd', hhd', hnum⟩ := hchain.header hblock
    obtain rfl := hhd'.unique ⟨now, hunpack⟩
    subst hnum
    obtain ⟨hclean', hpops, hprevious⟩ := deleteBlock_pops hclean h2 hdelete
    have hchain' := hchain.pop hpops h2
    have hone : hd'.number - 1 = 1 := by
      have hle : ¬ (2 ≤ hd'.number - 1) := by
        intro hc
        have := hchain'.isSome_block.mpr ⟨hc, UInt64.le_refl _⟩
        rw [← hprevious] at this
        simp at this
      have h1 := hchain'.one_le
      rw [UInt64.le_iff_toNat_le] at hle h1
      rw [← UInt64.toNat_inj]
      have h1' : (1 : UInt64).toNat = 1 := rfl
      have h2' : (2 : UInt64).toNat = 2 := rfl
      omega
    have hP' := hstep hclean hchain h2 hblock rfl (UInt64.not_lt.mp hlt) hextract hdelete hpops hP
    rw [hone] at hchain' hP'
    exact ⟨hP', hclean', rfl, hchain', Or.inl rfl, Or.inl ⟨rfl, rfl⟩⟩
  | @next node node' packedBlock previous data hd digest access hextract hlt hdelete _ ih =>
    obtain ⟨hlen, hunpack, -, hdigest, -⟩ := extractHeader_eq_ok.mp hextract
    obtain ⟨-, hd', hhd', hnum⟩ := hchain.header hblock
    obtain rfl := hhd'.unique ⟨now, hunpack⟩
    subst hnum
    obtain ⟨hclean', hpops, hprevious⟩ := deleteBlock_pops hclean h2 hdelete
    have hchain' := hchain.pop hpops h2
    have h2' := (hchain'.isSome_block.mp (by rw [← hprevious]; rfl)).1
    exact ih hclean' hchain' h2' hprevious.symm
      (hstep hclean hchain h2 hblock rfl (UInt64.not_lt.mp hlt) hextract hdelete hpops hP)

/-- The last element of pool `Blocks` is the last block. -/
theorem BlockChain.lastElement {a : Access} {h : UInt64} {key b : Bytes}
    (hc : BlockChain env a.committed h)
    (hlast : Database.lastElement a.db .blocks = some (key, b)) :
    2 ≤ h ∧ key = be64 h ∧ a.committed.get .blocks (be64 h) = some b := by
  obtain ⟨hb, hupper⟩ := lastElement_eq_some.mp hlast
  have hget : a.committed.get .blocks key = some b := hb
  obtain ⟨n, rfl, h2, hn⟩ := (hc.blocks key).mp (by simp [hget])
  have h2' : 2 ≤ h := UInt64.le_trans h2 hn
  have hle := hupper (be64 h) (hc.isSome_block.mpr ⟨h2', UInt64.le_refl _⟩)
  have hnh : n = h := by
    rw [← not_lt, be64_lt_iff, UInt64.not_lt] at hle
    exact UInt64.le_antisymm hn hle
  subst hnh
  exact ⟨h2', rfl, hget⟩

/-- **A whole deletion.** Either there was no block, or the last blocks were deleted. -/
theorem Node.OnChain.delete {P : Access → UInt64 → Prop} (hn : node.OnChain env)
    (h : deleteDownToBlock env now finalBlockNumber node = (.ok (), node'))
    (hstep : ∀ {a a' m b hd digest data previous}, a.Clean → BlockChain env a.committed m →
      2 ≤ m → a.committed.get .blocks (be64 m) = some b → hd.number = m → finalBlockNumber ≤ m →
      extractHeader env now a.view b 0 false = .ok (hd, digest, data) →
      deleteBlock env a hd digest data = (.ok previous, a') →
      Pops a.committed a'.committed m → P a m → P a' (m - 1))
    (hP : P node.access node.header.height) :
    P node'.access node'.header.height ∧ node'.OnChain env ∧
      (node' = node ∧ node.header.height = 1 ∨
        node'.header.height = 1 ∧ node'.current = node.current ∨
        node'.header.height < finalBlockNumber ∧ ∃ hd,
          HeaderAt env node'.access.committed node'.header.height hd ∧
          difficultyAtStop env now { node with access := node'.access } hd
            = .ok node'.current) := by
  rcases deleteDownToBlock_eq_ok h with ⟨hnone, rfl⟩ | ⟨key, b, hlast, hdel⟩
  · refine ⟨hP, hn, Or.inl ⟨rfl, ?_⟩⟩
    have hle : ¬ (2 ≤ node'.header.height) := by
      intro hc
      have := hn.chain.isSome_block.mpr ⟨hc, UInt64.le_refl _⟩
      have hempty := lastElement_eq_none.mp hnone (be64 node'.header.height)
      rw [View.get, Access.committed, hempty] at this
      simp at this
    have h1 := hn.chain.one_le
    rw [UInt64.le_iff_toNat_le] at hle h1
    rw [← UInt64.toNat_inj]
    have h1' : (1 : UInt64).toNat = 1 := rfl
    have h2' : (2 : UInt64).toNat = 2 := rfl
    omega
  · obtain ⟨h2, rfl, hblock⟩ := hn.chain.lastElement hlast
    obtain ⟨hP', hclean, hrebuild, hchain, htip, hstop⟩ :=
      hdel.induct hstep hn.clean hn.chain h2 hblock hP
    exact ⟨hP', ⟨hclean, hrebuild.trans hn.rebuild, hchain, htip⟩, Or.inr hstop⟩

end Delete

/-- **Every call** that returns without error leaves a chain. -/
theorem Node.OnChain.step {env : Env} {node node' : Node} {op : Op} (hn : node.OnChain env)
    (h : Step env node op node') : node'.OnChain env := by
  cases op with
  | storeIncoming now packedBlock packedNextBlock =>
    obtain ⟨i, a, hacc, -, hupdate, rfl⟩ := storeIncoming_eq_ok.mp h
    exact (hn.store hacc hupdate).2.2.2
  | deleteDownToBlock now finalBlockNumber =>
    exact (hn.delete (P := fun _ _ => True) h (fun _ _ _ _ _ _ _ _ _ _ => trivial) trivial).2.1

theorem NodeRun.onChain {env : Env} {trace : List (Node × Op)} {node : Node}
    (h : NodeRun env trace node) : node.OnChain env :=
  h.invariant (guarded_true trace) (onChain_fresh env) fun hn _ hs => hn.step hs

end Bitmarkd
