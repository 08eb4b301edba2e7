import Bitmarkd.Ledger.Owner
import Bitmarkd.Reservoir.Pool
import Bitmarkd.TransactionRecord.Codec

/-!
# Block storage against the reservoir

A record reaches a block through the reservoir of the node that mines it, but a node that receives
the block only has `StoreIncoming` to check it. Here the two checks are compared: for a record of a
block that `StoreIncoming` accepted, `pool_verifies_iff` says when an empty reservoir would have
taken it too. Transfers of blocks and shares it always takes. A bitmark transfer must not link to a
block record, and grants and swaps must not have expired, must be new, and must be of a known share;
block storage checks none of these.
-/

namespace Bitmarkd

open Lib Lib.Provenance

/-! ## Records for the reservoir -/

/-- The owner and the owner data of a share can be found. -/
def ShareKnown (v : View) (shareId : Digest) : Prop :=
  ∃ q t d, v.get .shares shareId.bytes = some (be64 q ++ FixedBytes.bytes t) ∧ v.head t = some d

namespace Transaction

/-- An empty reservoir accepts the record, if it takes records of this type. -/
def Verified (env : Env) (v : View) (height : UInt64) : Transaction → Prop
  | .bitmarkTransferUnratified tx => ∃ txId, verifyTransfer env v (.unratified tx) = .ok txId
  | .bitmarkTransferCountersigned tx => ∃ txId, verifyTransfer env v (.countersigned tx) = .ok txId
  | .blockOwnerTransfer tx => ∃ txId, verifyTransfer env v (.blockOwner tx) = .ok txId
  | .bitmarkShare tx => ∃ txId, verifyTransfer env v (.share tx) = .ok txId
  | .shareGrant tx => ∃ txId, verifyGrant env v height tx = .ok txId
  | .shareSwap tx => ∃ txId, verifySwap env v height tx = .ok txId
  | .oldBaseData _ | .assetData _ | .bitmarkIssue _ | .blockFoundation _ => True

/-- What the reservoir asks of a record and block storage does not. -/
def Poolable (env : Env) (v : View) (height : UInt64) (tx : Transaction) : Prop :=
  match tx with
  | .bitmarkTransferUnratified transfer =>
    ∀ b r, v.record env transfer.link = some (b, r) → ¬ r.IsBlockRecord
  | .bitmarkTransferCountersigned transfer =>
    ∀ b r, v.record env transfer.link = some (b, r) → ¬ r.IsBlockRecord
  | .shareGrant grant => height < grant.beforeBlock ∧
      v.record env (env.newDigest tx.layout) = none ∧ ShareKnown v grant.shareId
  | .shareSwap swap => height < swap.beforeBlock ∧
      v.record env (env.newDigest tx.layout) = none ∧ ShareKnown v swap.shareIdOne
  | .oldBaseData _ | .assetData _ | .bitmarkIssue _ | .blockFoundation _ | .blockOwnerTransfer _
  | .bitmarkShare _ => True

theorem PackedBy.length_layout {env : Env} {tx : Transaction} {signer : Account} {packed : Bytes}
    (h : tx.PackedBy env signer packed) : 64 ≤ tx.layout.length := by
  obtain ⟨s, hs, -⟩ := h.signed
  have hmem : s ∈ tx.signatures := List.mem_of_mem_head? hs
  have hlength := h.signatures s hmem
  have hsub : (packBytes s).length ≤ (tx.signatures.flatMap packBytes).length :=
    (List.sublist_flatten_of_mem (List.mem_map_of_mem hmem)).length_le
  simp only [layout, List.length_append]
  simp only [packBytes, List.length_append] at hsub
  omega

theorem link?_normal (tx : Transaction) : tx.normal.link? = tx.link? := by
  cases tx <;> rfl

end Transaction

/-! ## Transfers -/

section Transfer

variable {env : Env} {K : Set Bytes} {v : View} {h b : ℕ} {l : Digest} {o : Account}
  {r : Transaction} {d : OwnerData} {packed : Bytes}

/-- A record that spends a head is not stored yet, however it was packed. -/
theorem Sound.record_layout_eq_none (hs : Sound env K v h) (hK : Set.InjOn env.newDigest K)
    {tx : Transaction} (hpacked : tx.PackedBy env o packed) (hmem : tx.layout ∈ K)
    (hl : tx.link? = some l) (hhead : v.head l = some d) :
    v.record env (env.newDigest tx.layout) = none := by
  rcases hr : v.record env (env.newDigest tx.layout) with _ | ⟨b, r⟩
  · rfl
  have hbound := Nat.lt_succ_of_le (hs.bound hr)
  obtain ⟨n, stored, -, -, hstored⟩ := hs.wf.record_eq_some.mp hr
  cases hstored with
  | record hstoredK _ ht hrecord _ =>
    -- what is stored is this record, so its link is spent
    obtain rfl := hK hmem hstoredK ht
    have hsized := hpacked.sized
    by_cases hreadable : tx.Readable env env.isTesting
    · have hunpack := unpack_layout hsized hreadable []
      rw [List.append_nil] at hunpack
      obtain rfl := (Prod.mk.inj (Except.ok.inj (hunpack.symm.trans hrecord))).1
      have hlink : tx.normal.link? = some l := by rw [tx.link?_normal, hl]
      exact absurd (hhead.symm.trans (hs.inv.spent hr hlink hbound)) (by simp)
    · have hne := unpack_layout_ne_ok hsized hreadable []
      rw [List.append_nil] at hne
      exact absurd hrecord (hne _)
  | foundation hstoredK ht _ _ =>
    have hbytes := congrArg List.length (hK hmem hstoredK ht)
    have hlength := hpacked.length_layout
    simp [foundationBytes] at hbytes
    omega

theorem transitionOwner_eq (howner : r.owner? = some o) (transfer : BitmarkTransfer) :
    transitionOwner r transfer = if r.IsBlockRecord ↔ transfer.isBlockOwner = true then .ok o
      else fault .linkToInvalidOrUnconfirmedTransaction := by
  by_cases hblock : transfer.isBlockOwner = true
  · cases r <;> simp_all [Transaction.owner?, transitionOwner, Transaction.IsBlockRecord]
  · cases r <;> simp_all [Transaction.owner?, transitionOwner, Transaction.IsBlockRecord]

/-- **`verifyTransfer`** of a transfer of a head decides by the types of the two records. -/
theorem Sound.verifyTransfer_iff (hs : Sound env K v h) (hK : Set.InjOn env.newDigest K)
    {transfer : BitmarkTransfer} (hlink : LinkFound env v transfer.getLink o b r d)
    (hpack : transfer.pack env (some o) = .ok packed)
    (hpacked : transfer.record.PackedBy env o packed) (hmem : transfer.record.layout ∈ K) :
    (∃ txId, verifyTransfer env v transfer = .ok txId) ↔
      (r.IsBlockRecord ↔ transfer.isBlockOwner = true) := by
  obtain ⟨n, previous, hget, -, hstored⟩ := hs.wf.record_eq_some.mp hlink.entry
  obtain ⟨len, hunpack⟩ := hstored.unpack_eq
  have hnew := hs.record_layout_eq_none hK hpacked hmem transfer.link?_record hlink.head
  have hself : env.newDigest packed ≠ transfer.getLink := by
    intro hself
    rw [← hpacked.bytes, hself, hlink.entry] at hnew
    cases hnew
  have hnone : v.get .transactions (env.newDigest packed).bytes = none := by
    rw [hpacked.bytes]
    exact hs.wf.record_eq_none.mp hnew
  simp only [verifyTransfer, hs.wf.getNB_transactions hget, hunpack, bind, Except.bind,
    transitionOwner_eq hlink.owner]
  by_cases htypes : r.IsBlockRecord ↔ transfer.isBlockOwner = true
  · simp [htypes, hpack, hself, hnone, View.has, hlink.owns, View.head_eq_some.mp hlink.head,
      failIf,
      pure, Except.pure]
  · simp [htypes, fault]

/-- A chain that ends in a block record starts with one. -/
theorem root_isBlockRecord {L : Ledger Digest Transaction Account OwnerData} {m bs : ℕ}
    (hinv : ownershipScheme.Inv L m) {s : Digest} {rs : Transaction}
    (hroot : ownershipScheme.Root L l s) (hentry : L.entry l = some (b, r))
    (hstart : L.entry s = some (bs, rs)) (hblock : r.IsBlockRecord) : rs.IsBlockRecord := by
  induction hroot generalizing b r with
  | base =>
    rw [hentry] at hstart
    cases hstart
    exact hblock
  | step he hl hroot ih =>
    rw [hentry] at he
    cases he
    obtain ⟨b', r', hentry'⟩ := hroot.entry
    exact ih hentry' hstart ((hinv.linked_lt hentry hl hentry').2.2 hblock)

/-- A head with an asset is no block record. -/
theorem Sound.not_isBlockRecord_of_asset (hs : Sound env K v h) {assetId : AssetIdentifier}
    (hentry : v.record env l = some (b, r)) (hhead : v.head l = some d)
    (hitem : d.item = .asset assetId) : ¬ r.IsBlockRecord := by
  intro hblock
  obtain ⟨s, bs, rs, hroot, hstart, -, -, hfits⟩ :=
    hs.inv.origin hhead hentry (Nat.lt_succ_of_le (hs.bound hentry))
  have hblock' := root_isBlockRecord hs.inv hroot hentry hstart hblock
  cases rs <;> simp_all [Transaction.IsBlockRecord]

end Transfer

/-! ## Grants and swaps -/

section Shares

variable {env : Env} {K : Set Bytes} {v : View} {height : UInt64}

theorem WellFormed.shareOwnerData_iff (hwf : WellFormed env K v) {shareId : Digest} :
    (∃ d, shareOwnerData v shareId = .ok d) ↔ ShareKnown v shareId := by
  have hread (q : UInt64) (t : Digest)
      (hget : v.get .shares shareId.bytes = some (be64 q ++ t.bytes)) :
      (∃ d, shareOwnerData v shareId = .ok d) ↔ ∃ d, v.head t = some d := by
    have hdrop : (be64 q ++ t.bytes).drop 8 = t.bytes := List.drop_left' (length_be64 q)
    have hshare : v.getNB .shares shareId.bytes = .ok (some (q, t.bytes)) := by
      simp [View.getNB, hget, hdrop]
    have hdata : getOwnerDataB v t.bytes = getOwnerData v t := rfl
    simp only [shareOwnerData, hshare, bind, Except.bind, View.head_eq_some]
    rw [hdata]
    cases hd : getOwnerData v t <;> simp [pure, Except.pure]
  constructor
  · intro hok
    cases hget : v.get .shares shareId.bytes with
    | none =>
      obtain ⟨d, hd⟩ := hok
      simp [shareOwnerData, View.getNB, hget, bind, Except.bind] at hd
    | some value =>
      obtain ⟨s, t, q, -, rfl⟩ := hwf hget
      obtain ⟨d, hd⟩ := (hread q t hget).mp hok
      exact ⟨q, t, d, hget, hd⟩
  · rintro ⟨q, t, d, hget, hd⟩
    exact (hread q t hget).mpr ⟨d, hd⟩

theorem WellFormed.has_transactions (hwf : WellFormed env K v) (t : Digest) :
    v.has .transactions t.bytes = false ↔ v.record env t = none := by
  rw [hwf.record_eq_none]
  simp [View.has]

theorem WellFormed.verifyGrant_iff (hwf : WellFormed env K v) {tx : ShareGrant} {balance : UInt64}
    {packed : Bytes} (hbalance : checkGrantBalance v tx = .ok balance)
    (hpack : tx.pack env tx.owner = .ok packed) :
    (∃ txId, verifyGrant env v height tx = .ok txId) ↔ height < tx.beforeBlock ∧
      v.record env (env.newDigest packed) = none ∧ ShareKnown v tx.shareId := by
  rw [← hwf.has_transactions, ← hwf.shareOwnerData_iff]
  simp only [verifyGrant, bind_eq_ok, hbalance, hpack, failIf_eq_ok]
  simp [Unique.exists_iff, pure, Except.pure]

theorem WellFormed.verifySwap_iff (hwf : WellFormed env K v) {tx : ShareSwap}
    {balances : UInt64 × UInt64} {packed : Bytes}
    (hbalances : checkSwapBalances v tx = .ok balances)
    (hpack : tx.pack env tx.ownerOne = .ok packed) :
    (∃ txId, verifySwap env v height tx = .ok txId) ↔ height < tx.beforeBlock ∧
      v.record env (env.newDigest packed) = none ∧ ShareKnown v tx.shareIdOne := by
  rw [← hwf.has_transactions, ← hwf.shareOwnerData_iff]
  simp only [verifySwap, bind_eq_ok, hbalances, hpack, failIf_eq_ok]
  simp [Unique.exists_iff, pure, Except.pure]

end Shares

/-! ## Accepted blocks -/

section Accepted

variable {env : Env} {K : Set Bytes} {v : View} {h : ℕ} {height : UInt64} {suppress : Bool}
  {la : List AssetIdentifier} {item : Txn}

/-- **`verifyTransfer`** of a transfer that validation has accepted. -/
theorem Sound.verifyTransfer_of_valid (hs : Sound env K v h) (hK : Set.InjOn env.newDigest K)
    (hv : ValidItem env v suppress la item) (hmem : item.unpacked.layout ∈ K)
    {transfer : BitmarkTransfer} (htx : item.unpacked = transfer.record) :
    ∃ o b r d, LinkFound env v transfer.getLink o b r d ∧
      (transfer.record.IsBlockRecord → r.IsBlockRecord) ∧
      (transfer.record.IsShare → ∃ assetId, d.item = .asset assetId) ∧
      ((∃ txId, verifyTransfer env v transfer = .ok txId) ↔
        (r.IsBlockRecord ↔ transfer.isBlockOwner = true)) := by
  have hl : item.unpacked.link? = some transfer.getLink := by rw [htx, transfer.link?_record]
  obtain ⟨o, b, r, d, howner, hlink, hblock, hshare⟩ := hs.linkFound hv hl
  obtain ⟨o', bn, packed, howner', -, hpack⟩ := hv.pack_eq_ok hl
  obtain rfl := Option.some.inj (howner.symm.trans howner')
  rw [htx] at hblock hshare hpack hmem
  have hpack' : transfer.pack env (some o) = .ok packed := by
    cases transfer <;> exact hpack
  exact ⟨o, b, r, d, hlink, hblock, hshare,
    hs.verifyTransfer_iff hK hlink hpack' (Transaction.pack_eq_ok hpack) hmem⟩

/-- **The reservoir** takes a record of an accepted block exactly if the record meets what block
storage does not check. -/
theorem Sound.verified_iff (hs : Sound env K v h) (hK : Set.InjOn env.newDigest K)
    (hv : ValidItem env v suppress la item) (hmem : item.unpacked.layout ∈ K) :
    item.unpacked.Verified env v height ↔ item.unpacked.Poolable env v height := by
  have hsuited {b : ℕ} {r : Transaction} {l : Digest} (hr : v.record env l = some (b, r)) :
      (r.IsBlockRecord ↔ false = true) ↔
        ∀ b r, v.record env l = some (b, r) → ¬ r.IsBlockRecord := by
    simp [hr]
  have hvalid := hv.valid
  cases htx : item.unpacked with
  | bitmarkTransferUnratified tx =>
    have htx : item.unpacked = (BitmarkTransfer.unratified tx).record := htx
    obtain ⟨o, b, r, d, hlink, -, -, hverify⟩ := hs.verifyTransfer_of_valid hK hv hmem htx
    exact hverify.trans (hsuited hlink.entry)
  | bitmarkTransferCountersigned tx =>
    have htx : item.unpacked = (BitmarkTransfer.countersigned tx).record := htx
    obtain ⟨o, b, r, d, hlink, -, -, hverify⟩ := hs.verifyTransfer_of_valid hK hv hmem htx
    exact hverify.trans (hsuited hlink.entry)
  | blockOwnerTransfer tx =>
    have htx : item.unpacked = (BitmarkTransfer.blockOwner tx).record := htx
    obtain ⟨o, b, r, d, hlink, hblock, -, hverify⟩ := hs.verifyTransfer_of_valid hK hv hmem htx
    have hverified := hverify.mpr ⟨fun _ => rfl, fun _ => hblock trivial⟩
    exact ⟨fun _ => trivial, fun _ => hverified⟩
  | bitmarkShare tx =>
    have htx : item.unpacked = (BitmarkTransfer.share tx).record := htx
    obtain ⟨o, b, r, d, hlink, -, hshare, hverify⟩ := hs.verifyTransfer_of_valid hK hv hmem htx
    -- only a bitmark is converted, so the link is no block record
    obtain ⟨assetId, hitem⟩ := hshare trivial
    have hno := hs.not_isBlockRecord_of_asset hlink.entry hlink.head hitem
    have hverified := hverify.mpr ⟨fun hblock => absurd hblock hno, fun hf => nomatch hf⟩
    exact ⟨fun _ => trivial, fun _ => hverified⟩
  | shareGrant tx =>
    rw [htx] at hvalid
    obtain ⟨packed, hpack, hvalid⟩ := bind_eq_ok.mp hvalid
    obtain ⟨balance, hbalance, -⟩ := bind_eq_ok.mp hvalid
    have hpack' : (Transaction.shareGrant tx).pack env tx.owner = .ok packed := hpack
    refine (hs.wf.verifyGrant_iff hbalance hpack).trans ?_
    rw [(Transaction.pack_eq_ok hpack').bytes]
    exact Iff.rfl
  | shareSwap tx =>
    rw [htx] at hvalid
    obtain ⟨packed, hpack, hvalid⟩ := bind_eq_ok.mp hvalid
    obtain ⟨balances, hbalances, -⟩ := bind_eq_ok.mp hvalid
    have hpack' : (Transaction.shareSwap tx).pack env tx.ownerOne = .ok packed := hpack
    refine (hs.wf.verifySwap_iff hbalances hpack).trans ?_
    rw [(Transaction.pack_eq_ok hpack').bytes]
    exact Iff.rfl
  | oldBaseData _ | assetData _ | bitmarkIssue _ | blockFoundation _ => exact Iff.rfl

end Accepted

/-- The strings that a run hashes and the packed form of a record have different hashes. -/
def CollisionFreeWith (env : Env) (trace : List (Node × Op)) (tx : Transaction) : Prop :=
  Set.InjOn env.newDigest {s | s ∈ tx.layout :: hashedIn env trace}

instance (env : Env) (trace : List (Node × Op)) (tx : Transaction) :
    Decidable (CollisionFreeWith env trace tx) :=
  decidable_of_iff (∀ s ∈ tx.layout :: hashedIn env trace, ∀ t ∈ tx.layout :: hashedIn env trace,
    env.newDigest s = env.newDigest t → s = t) ⟨fun h s hs t ht => h s hs t ht,
      fun h _ hs _ ht => h hs ht⟩

/-- **Every record of every block that a reachable node accepts**: an empty reservoir of that node
takes it, before the block is stored, exactly if it is poolable. -/
theorem pool_verifies_iff {env : Env} {trace : List (Node × Op)} {node node' : Node} {now : UInt64}
    {packedBlock : Bytes} {packedNextBlock : Option Bytes} {record : Bytes × Transaction}
    (hr : NodeRun env trace node)
    (hstep : Step env node (.storeIncoming now packedBlock packedNextBlock) node')
    (hfree : CollisionFreeWith env
      (trace ++ [(node, .storeIncoming now packedBlock packedNextBlock)]) record.2)
    (hrecord : record ∈ (Op.storeIncoming now packedBlock packedNextBlock).listed env node) :
    record.2.Verified env node.access.committed node.header.height ↔
      record.2.Poolable env node.access.committed node.header.height := by
  obtain ⟨i, a, hacc, -⟩ := storeIncoming_eq_ok.mp hstep
  have hhashes := hashesIn_trace env
    (trace ++ [(node, .storeIncoming now packedBlock packedNextBlock)])
  have hn := hr.consistent hfree fun x hx s hs =>
    List.mem_cons_of_mem _ (hhashes x (List.mem_append_left _ hx) s hs)
  rw [hacc.listed_eq] at hrecord
  obtain ⟨item, hitem, rfl⟩ := List.mem_map.mp hrecord
  obtain ⟨la, hv⟩ := hacc.validItem hitem
  rw [Access.view_of_clean hn.onChain.clean] at hv
  exact hn.sound.verified_iff hfree hv List.mem_cons_self

/-! ## A transfer of a block -/

namespace Sample

/-- A bitmark is issued in the second block. -/
def issueOps : List Op := storeAll 2 [[asset 1, issue 1 0x11 1]]

/-- A transfer of the second block, as if that were a bitmark. -/
def blockTransfer : Transaction := transfer (foundationTxId env 2 (id 2)) 0x12 2

/-- The third block has that transfer and one of the bitmark. -/
def blockTransferOp : Op :=
  fastSync (block 2 3 testGenesisDigest 10
    [foundation, blockTransfer, transfer (id 0x11) 0x13 2]) 3 (id 3)

theorem blockTransferOp_facts : (runOps env issueOps (Node.fresh env)).isSome = true ∧
    (blockTransferOp.run env (after issueOps)).1.isOk = true ∧
    (blockTransferOp.listed env (after issueOps)).map Prod.snd =
      [foundation, blockTransfer, transfer (id 0x11) 0x13 2] ∧
    (verifyTransfer env (after issueOps).access.committed (.unratified
      ⟨foundationTxId env 2 (id 2), none, account 2, signature 0x12⟩)).toOption = none ∧
    CollisionFreeWith env
      (traceOps env issueOps (Node.fresh env) ++ [(after issueOps, blockTransferOp)])
      (transfer (id 0x11) 0x13 2) ∧
    ((after issueOps).access.committed.record env (id 0x11)).map Prod.snd =
      some (issue 1 0x11 1) := by
  decide +kernel

/-- The block is accepted; the reservoir does not take the first of its transfers. -/
theorem blockTransfer_not_pooled : ∃ trace node node',
    NodeRun env trace node ∧ Step env node blockTransferOp node' ∧
    blockTransfer ∈ (blockTransferOp.listed env node).map Prod.snd ∧
    ¬ blockTransfer.Verified env node.access.committed node.header.height := by
  obtain ⟨hrun, hok, hlisted, hnone, -⟩ := blockTransferOp_facts
  refine ⟨_, _, _, nodeRun_after hrun, step_of_isOk hok, ?_, ?_⟩
  · rw [hlisted]
    decide
  · rintro ⟨txId, htxId⟩
    rw [htxId] at hnone
    cases hnone

/-- The reservoir takes the second one. -/
theorem transfer_pooled : (transfer (id 0x11) 0x13 2).Verified env
    (after issueOps).access.committed (after issueOps).header.height := by
  obtain ⟨hrun, hok, hlisted, -, hfree, hissue⟩ := blockTransferOp_facts
  obtain ⟨record, hrecord, htx⟩ : ∃ x ∈ blockTransferOp.listed env (after issueOps),
      x.2 = transfer (id 0x11) 0x13 2 := by
    rw [← List.mem_map, hlisted]
    decide
  rw [← htx] at hfree ⊢
  refine (pool_verifies_iff (nodeRun_after hrun) (step_of_isOk hok) hfree hrecord).mpr ?_
  rw [htx]
  intro b r hr
  rw [hr] at hissue
  obtain rfl := Option.some.inj hissue
  exact not_false

end Sample

end Bitmarkd
