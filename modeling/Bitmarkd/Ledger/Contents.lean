import Bitmarkd.Ledger.Store

/-!
# The records of the stored blocks

Deleting a block undoes the records that its bytes list. For that to take back what storing it did,
the stored blocks and pool `Transactions` have to agree: every stored record is listed by the block
whose number it has, and every listed record with a link is stored (`Contents`). Issues need not
be: in a block of version 1 a known issue is listed again and left where it was.
-/

namespace Bitmarkd

open Lib Lib.Provenance

/-- Block `n` is stored with this digest and these records. -/
structure BlockAt (env : Env) (v : View) (n : UInt64) (d : BlockDigest)
    (rs : List (Bytes × Transaction)) : Prop where
  block : ∃ b, v.get .blocks (be64 n) = some b ∧ Records env (b.drop totalBlockSize) rs
  hash : v.get .blockHeaderHash (be64 n) = some d.bytes

/-- The stored blocks and the stored records agree. Of blocks from `m` on, the records with a link
may have been deleted already. -/
structure Contents (env : Env) (K : Set Bytes) (v : View) (m : ℕ) : Prop where
  block : ∀ {n b}, v.get .blocks (be64 n) = some b → ∃ d rs, BlockAt env v n d rs ∧
    (∀ x ∈ rs, x.1 ∈ K ∧ 64 ≤ x.1.length) ∧ blockOwnerOf none rs ≠ none ∧
    foundationBytes n d ∈ K ∧ foundationBytes n (env.argon2Hash (b.take totalBlockSize)) ∈ K
  entry : ∀ {t b r}, v.record env t = some (b, r) → ∃ n d rs, b = n.toNat ∧ BlockAt env v n d rs ∧
    ((∃ x ∈ rs, t = env.newDigest x.1) ∨ t = foundationTxId env n d)
  linked : ∀ {n d rs x}, BlockAt env v n d rs → x ∈ rs → x.2.link? ≠ none → n.toNat < m →
    v.record env (env.newDigest x.1) = some (n.toNat, x.2)
  linkedAt : ∀ {n d rs x b r}, BlockAt env v n d rs → x ∈ rs → x.2.link? ≠ none →
    v.record env (env.newDigest x.1) = some (b, r) → b = n.toNat

section Blocks

variable {env : Env} {K : Set Bytes} {v v' : View} {n : UInt64} {d : BlockDigest}
  {rs : List (Bytes × Transaction)} {m : ℕ}

theorem BlockAt.unique {d' : BlockDigest} {rs' : List (Bytes × Transaction)}
    (h : BlockAt env v n d rs) (h' : BlockAt env v n d' rs') : d = d' ∧ rs = rs' := by
  obtain ⟨b, hb, hrs⟩ := h.block
  obtain ⟨b', hb', hrs'⟩ := h'.block
  obtain rfl := Option.some.inj (hb.symm.trans hb')
  exact ⟨FixedBytes.bytes_inj.mp (Option.some.inj (h.hash.symm.trans h'.hash)), hrs.unique hrs'⟩

/-- The block is there in any view with the same blocks. -/
theorem BlockAt.congr (h : BlockAt env v n d rs)
    (hblocks : v'.get .blocks (be64 n) = v.get .blocks (be64 n))
    (hhashes : v'.get .blockHeaderHash (be64 n) = v.get .blockHeaderHash (be64 n)) :
    BlockAt env v' n d rs := by
  obtain ⟨b, hb, hrs⟩ := h.block
  exact ⟨⟨b, hblocks.trans hb, hrs⟩, hhashes.trans h.hash⟩

theorem BlockAt.pushes {k : UInt64} {b : Bytes} {dk : BlockDigest} (hp : Pushes v v' k b dk)
    (hn : n ≠ k) : BlockAt env v' n d rs ↔ BlockAt env v n d rs := by
  have hblocks : v'.get .blocks (be64 n) = v.get .blocks (be64 n) := by
    simp [hp.blocks, hn.symm]
  exact ⟨fun h => h.congr hblocks.symm (hp.hash_of_ne hn).symm,
    fun h => h.congr hblocks (hp.hash_of_ne hn)⟩

theorem BlockAt.pops {k : UInt64} (hp : Pops v v' k) (hn : n ≠ k) :
    BlockAt env v' n d rs ↔ BlockAt env v n d rs := by
  have hblocks : v'.get .blocks (be64 n) = v.get .blocks (be64 n) := by
    simp [hp.blocks, hn.symm]
  have hhashes : v'.get .blockHeaderHash (be64 n) = v.get .blockHeaderHash (be64 n) := by
    simp [hp.hashes, hn.symm]
  exact ⟨fun h => h.congr hblocks.symm hhashes.symm, fun h => h.congr hblocks hhashes⟩

theorem Contents.mono {m' : ℕ} (h : Contents env K v m) (hm : m' ≤ m) : Contents env K v m' where
  block := h.block
  entry := h.entry
  linked hat hx hl hn := h.linked hat hx hl (hn.trans_le hm)
  linkedAt := h.linkedAt

/-- A block that lists a record is stored. -/
theorem BlockAt.le {h : UInt64} (hc : BlockChain env v h) (hat : BlockAt env v n d rs) :
    2 ≤ n ∧ n ≤ h := by
  obtain ⟨b, hb, -⟩ := hat.block
  exact hc.isSome_block.mp (by simp [hb])

theorem contents_empty (env : Env) (K : Set Bytes) (m : ℕ) : Contents env K (fun _ => none) m where
  block hb := nomatch hb
  entry hr := nomatch hr
  linked hat := nomatch hat.hash
  linkedAt hat := nomatch hat.hash

end Blocks

/-! ## Storing -/

section Store

variable {env : Env} {K : Set Bytes} {now : UInt64} {packedBlock : Bytes}
  {packedNextBlock : Option Bytes} {node : Node} {i : Incoming} {a : Access}

/-- A record with a link is always written. -/
theorem Transaction.rewritten_of_link? {tx : Transaction} (h : tx.link? ≠ none) :
    tx.Rewritten := by
  cases tx <;> simp_all [link?, Rewritten]

theorem Transaction.not_isFoundation_of_link? {tx : Transaction} (h : tx.link? ≠ none) :
    ¬ tx.IsFoundation := by
  cases tx <;> simp_all [link?, IsFoundation]

/-- A record that has a link is not one of the first. -/
theorem Accepted.mem_items (hacc : Accepted env now packedBlock packedNextBlock node i)
    {item : Txn} (hitem : item ∈ i.txs) (hf : ¬ item.unpacked.IsFoundation) :
    item ∈ i.items := by
  rw [← List.take_append_drop i.foundation.txStart i.txs, List.mem_append] at hitem
  refine hitem.resolve_left fun hc => hf ?_
  exact hacc.foundationOf.first item hc

/-- The block that is stored, in the database after it. -/
theorem Accepted.blockAt (hacc : Accepted env now packedBlock packedNextBlock node i) {v v' : View}
    (hp : Pushes v v' i.header.number packedBlock i.digest) :
    BlockAt env v' i.header.number i.digest (i.txs.map Txn.record) := by
  obtain ⟨-, -, hdata, -⟩ := extractIncoming_eq_ok hacc.extract
  have hrecords := (validateBlock_eq_ok hacc.validate).1
  rw [hdata] at hrecords
  exact ⟨⟨packedBlock, by simp [hp.blocks], hrecords⟩, by simp [hp.hashes]⟩

/-- A record with a link that validation accepts has not been stored before: its link would have
been spent. -/
theorem Sound.record_eq_none {v : View} {h : ℕ} (hs : Sound env K v h)
    (hK : Set.InjOn env.newDigest K) {item : Txn} (hitem : Admitted env K v item)
    (hl : item.unpacked.link? ≠ none) : v.record env item.txId = none := by
  obtain ⟨_, _, hv⟩ := hitem.valid
  obtain ⟨l, hl⟩ := Option.ne_none_iff_exists'.mp hl
  obtain ⟨o, b, r, d, -, hlink, -⟩ := hs.linkFound hv hl
  rcases hr : v.record env item.txId with _ | ⟨b', r'⟩
  · rfl
  · obtain rfl := hitem.same hK hs.wf hr
    have hspent := hs.inv.spent hr hl (Nat.lt_succ_of_le (hs.bound hr))
    exact absurd (hlink.head.symm.trans hspent) (by simp)

section Stored

variable (h : StoresBlock env K now packedBlock packedNextBlock node i a)

include h

/-- The new block is there. -/
theorem StoresBlock.blockAt : BlockAt env (node.stored i a).access.committed i.header.number
    i.digest (i.txs.map Txn.record) :=
  h.accepted.blockAt h.pushes

theorem StoresBlock.block_ne {n : UInt64} {d : BlockDigest} {rs : List (Bytes × Transaction)}
    (hat : BlockAt env node.access.committed n d rs) : n ≠ i.header.number := by
  rintro rfl
  have hle := (hat.le h.onChain.chain).2
  have hnum := h.toNat_number
  rw [UInt64.le_iff_toNat_le] at hle
  omega

/-- A record of the new block with a link is stored for that block. -/
theorem StoresBlock.record_linked {item : Txn} (hitem : item ∈ i.txs)
    (hl : item.unpacked.link? ≠ none) : (node.stored i a).access.committed.record env item.txId =
      some (i.header.number.toNat, item.unpacked) := by
  have hmem := h.accepted.mem_items hitem (Transaction.not_isFoundation_of_link? hl)
  obtain ⟨b, hr⟩ := h.record_item hmem (Transaction.rewritten_of_link? hl)
  have hr' := hr
  rw [show (node.stored i a).access.committed = a.pending from committed_commit a] at hr'
  rcases h.updating.storing.fresh hr' with hr₀ | rfl
  · change a.committed.record env item.txId = _ at hr₀
    rw [h.committed, h.sound.record_eq_none h.injOn (h.admitted hitem) hl] at hr₀
    cases hr₀
  · exact hr

/-- So is every record with a link, of the old blocks and the new one. -/
theorem Contents.linked_store
    (hc : Contents env K node.access.committed (node.header.height.toNat + 1)) {n : UInt64}
    {d : BlockDigest} {rs : List (Bytes × Transaction)} {x : Bytes × Transaction}
    (hat : BlockAt env (node.stored i a).access.committed n d rs) (hx : x ∈ rs)
    (hl : x.2.link? ≠ none) : (node.stored i a).access.committed.record env (env.newDigest x.1) =
      some (n.toNat, x.2) := by
  by_cases hne : n = i.header.number
  · subst hne
    obtain ⟨rfl, rfl⟩ := hat.unique h.blockAt
    obtain ⟨item, hitem, rfl⟩ := List.mem_map.mp hx
    obtain ⟨_, _, hv⟩ := (h.admitted hitem).valid
    rw [show env.newDigest item.record.1 = item.txId from hv.txId_eq.symm]
    exact h.record_linked hitem hl
  · rw [BlockAt.pushes h.pushes hne] at hat
    have hr := hc.linked hat hx hl (Nat.lt_succ_of_le
      (UInt64.le_iff_toNat_le.mp (hat.le h.onChain.chain).2))
    obtain ⟨b', hr', hb'⟩ := h.record_keep hr
    rw [hr', hb' hl]

/-- The bytes of the new block. -/
theorem StoresBlock.block_contents : (∀ x ∈ i.txs.map Txn.record, x.1 ∈ K ∧ 64 ≤ x.1.length) ∧
    blockOwnerOf none (i.txs.map Txn.record) ≠ none ∧
    foundationBytes i.header.number (env.argon2Hash (packedBlock.take totalBlockSize)) ∈ K := by
  refine ⟨fun x hx => ?_, by simp [h.accepted.foundationOf.owner], ?_⟩
  · obtain ⟨item, hitem, rfl⟩ := List.mem_map.mp hx
    obtain ⟨_, _, hv⟩ := (h.admitted hitem).valid
    exact ⟨(h.admitted hitem).mem, hv.length_le⟩
  · have hnum : blockNumberOf packedBlock = i.header.number :=
      (extractIncoming_eq_ok h.accepted.extract).2.1.number_eq.symm
    refine h.hashed _ (List.mem_append_right _ ?_)
    rw [hnum]
    exact List.mem_cons_self

/-- **What is under a tx id** after the block: the foundation, an old record, or one of the
block. -/
theorem StoresBlock.record_cases {t : Digest} {b : ℕ} {r : Transaction}
    (hr : (node.stored i a).access.committed.record env t = some (b, r)) :
    (t = foundationTxId env i.header.number i.digest ∧ b = i.header.number.toNat ∧
      i.txs.head?.map Txn.unpacked = some r) ∨
    node.access.committed.record env t = some (b, r) ∨
    ∃ item ∈ i.items, item.unpacked.IsStored ∧ t = item.txId ∧ b = i.header.number.toNat ∧
      r = item.unpacked := by
  obtain ⟨v, hadded, hfoundation⟩ := updateBlock_recordsAdded h.onChain.clean h.update
  obtain ⟨n, packed, hget, rfl, hstored⟩ := h.wf.record_eq_some.mp hr
  rw [hfoundation] at hget
  split at hget
  next hkey =>
    obtain ⟨hnum, rfl⟩ := List.append_inj (Option.some.inj hget) (by simp)
    obtain rfl := be64_inj.mp hnum
    obtain ⟨tx, len, hhead, hunpack, -⟩ := h.accepted.foundationOf.record
    obtain ⟨len', hunpack'⟩ := hstored.unpack_eq
    obtain ⟨rfl, -⟩ := Prod.mk.inj (Except.ok.inj (hunpack.symm.trans hunpack'))
    exact .inl ⟨(FixedBytes.bytes_inj.mp hkey).symm, rfl, hhead⟩
  next =>
    rcases hadded.new hget with hget | ⟨item, hitem, hst, hkey, heq⟩
    · exact .inr (.inl (h.sound.wf.record_eq_some.mpr ⟨n, packed, hget, rfl, hstored⟩))
    · obtain ⟨hnum, -⟩ := List.append_inj heq (by simp)
      obtain rfl := be64_inj.mp hnum
      obtain rfl := FixedBytes.bytes_inj.mp hkey
      exact .inr (.inr ⟨item, hitem, hst, rfl, rfl,
        (h.admitted_items item hitem).same h.injOn h.wf hr⟩)

/-- **Storing a block** keeps the contents. -/
theorem Contents.store (hc : Contents env K node.access.committed (node.header.height.toNat + 1)) :
    Contents env K (node.stored i a).access.committed (i.header.number.toNat + 1) := by
  constructor
  case block =>
    intro n b hb
    by_cases hne : n = i.header.number
    · subst hne
      obtain rfl : packedBlock = b := by
        simpa [h.pushes.blocks] using hb
      obtain ⟨hrecords, howner, hheader⟩ := h.block_contents
      exact ⟨_, _, h.blockAt, hrecords, howner, h.foundationBytes_mem, hheader⟩
    · have hb' : node.access.committed.get .blocks (be64 n) = some b := by
        simpa [h.pushes.blocks, Ne.symm hne] using hb
      obtain ⟨d, rs, hat, hrest⟩ := hc.block hb'
      exact ⟨d, rs, (BlockAt.pushes h.pushes hne).mpr hat, hrest⟩
  case entry =>
    intro t b r hr
    rcases h.record_cases hr with ⟨rfl, rfl, -⟩ | hr₀ | ⟨item, hitem, -, rfl, rfl, -⟩
    · exact ⟨_, _, _, rfl, h.blockAt, Or.inr rfl⟩
    · obtain ⟨m, d, rs, hm, hat, hmem⟩ := hc.entry hr₀
      exact ⟨m, d, rs, hm, (BlockAt.pushes h.pushes (h.block_ne hat)).mpr hat, hmem⟩
    · obtain ⟨_, _, hv⟩ := (h.admitted_items item hitem).valid
      exact ⟨_, _, _, rfl, h.blockAt, Or.inl ⟨item.record,
        List.mem_map_of_mem (Incoming.mem_txs hitem), hv.txId_eq⟩⟩
  case linked => exact fun hat hx hl _ => hc.linked_store h hat hx hl
  case linkedAt =>
    intro n d rs x b r hat hx hl hr
    exact (Prod.mk.inj (Option.some.inj (hr.symm.trans (hc.linked_store h hat hx hl)))).1

end Stored

end Store

end Bitmarkd
