import Bitmarkd.Ledger.Reachable
import Bitmarkd.Sample
import Bitmarkd.TransactionRecord.Layout

/-!
# Who can move a head

The owner data and the index entry of a tx id change only when a record that links to it is stored,
and such a record is accepted only with the signature of the owner that the linked record names
(`ValidItem.packedBy`). The signing account may not be the zero key, so what has been transferred
to a zero key stays there (`destroyed_stays`).
-/

namespace Bitmarkd

open Lib Lib.Provenance

/-! ## The entries of one tx id -/

/-- The record of a tx id, its owner data and its index entries are the same in both views. -/
structure SameHead (t : Digest) (v v' : View) : Prop where
  record : v'.get .transactions t.bytes = v.get .transactions t.bytes
  data : v'.get .ownerData t.bytes = v.get .ownerData t.bytes
  index : ∀ w, v'.get .ownerTxIndex (ownerKey w t) = v.get .ownerTxIndex (ownerKey w t)

section Frame

variable {env : Env} {n : UInt64} {t u x : Digest} {a a₁ a' : Access} {v v' v'' : View}
  {item : Txn} {items : List Txn}

theorem SameHead.refl (t : Digest) (v : View) : SameHead t v v := ⟨rfl, rfl, fun _ => rfl⟩

theorem SameHead.trans (h : SameHead t v v') (h' : SameHead t v' v'') : SameHead t v v'' where
  record := h'.record.trans h.record
  data := h'.data.trans h.data
  index w := (h'.index w).trans (h.index w)

theorem SameHead.of_touches {ps : List Pool} (h : Touches ps a a')
    (hps : ∀ p ∈ [Pool.transactions, .ownerData, .ownerTxIndex], p ∉ ps) :
    SameHead t a.pending a'.pending where
  record := h.pending _ (hps _ (by simp))
  data := h.pending _ (hps _ (by simp))
  index _ := h.pending _ (hps _ (by simp))

/-- A write to another pool. -/
theorem SameHead.poolPut {p : Pool} {k b : Bytes}
    (hp : p ∉ [Pool.transactions, .ownerData, .ownerTxIndex]) :
    SameHead t a.pending (a.poolPut p k b).pending := by
  simp only [List.mem_cons, List.not_mem_nil, or_false, not_or] at hp
  constructor <;> simp [hp.1, hp.2.1, hp.2.2]

/-- Storing another record. -/
theorem SameHead.poolPutNB {packed : Bytes} (hu : u ≠ t) :
    SameHead t a.pending (a.poolPutNB .transactions u.bytes n packed).pending := by
  constructor <;> simp [Access.poolPutNB, hu]

/-- Creating another head. -/
theorem SameHead.create {d : OwnerData} {o : Account} (h : Bitmarkd.create a u d o = .ok a')
    (hu : u ≠ t) : SameHead t a.pending a'.pending := by
  obtain ⟨count, -, -, rfl⟩ := create_eq_ok h
  constructor <;> simp [hu]

/-- Deleting another head. -/
theorem SameHead.deleteOwner {o : Account} {dCount : Bytes} (hu : u ≠ t) :
    SameHead t a.pending (Bitmarkd.deleteOwner a o u dCount).pending := by
  constructor <;> simp [Bitmarkd.deleteOwner, hu]

/-- Moving another head. -/
theorem SameHead.transfer {o : Account} {new : Option Account} {q : UInt64}
    (h : Bitmarkd.transfer a u x n o new q = .ok a') (hu : u ≠ t) (hx : x ≠ t) :
    SameHead t a.pending a'.pending := by
  obtain ⟨dCount, d, -, -, ⟨-, -, rfl⟩ | ⟨-, o', item, -, -, hcreate⟩ | ⟨-, s, -, hcreate⟩⟩ :=
    transfer_eq_ok h
  · exact .deleteOwner hu
  · exact (SameHead.deleteOwner hu).trans (.create hcreate hx)
  · exact ((SameHead.deleteOwner hu).trans
      (.of_touches (createShare_touches ..) (by decide))).trans (.create hcreate hx)

/-- **A record that does not link to a tx id** leaves what is stored of it. An issue that is known
already is not stored again. -/
theorem Applied.sameHead (h : Applied env n a item a') (hl : item.unpacked.link? ≠ some t)
    (hid : item.txId = t → ∃ tx, item.unpacked = .bitmarkIssue tx)
    (ht : (a.committed.get .transactions t.bytes).isSome) : SameHead t a.pending a'.pending := by
  have hne (hno : ∀ tx, item.unpacked ≠ .bitmarkIssue tx) : item.txId ≠ t := fun hc => by
    obtain ⟨tx, htx⟩ := hid hc
    exact hno tx htx
  cases h with
  | assetKnown => exact .refl _ _
  | issueKnown => exact .refl _ _
  | asset hitem => exact .poolPut (by decide)
  | issue hitem hnew hcreate =>
    have hx : item.txId ≠ t := by
      rintro rfl
      have hview := a.view_isSome _ _ ht
      rw [View.has, hview] at hnew
      cases hnew
    exact (SameHead.poolPutNB hx).trans (.create hcreate hx)
  | @transfer link owner _ _ hitem _ htransfer =>
    have hx := hne fun tx htx => by rw [htx] at hitem; cases hitem
    have hu : link ≠ t := by
      rintro rfl
      exact hl (Transaction.of_transfer? hitem).1
    exact (SameHead.poolPutNB hx).trans (.transfer htransfer hu hx)
  | @blockOwner tx _ _ _ hitem _ _ htransfer =>
    have hx := hne fun tx' htx => by rw [htx] at hitem; cases hitem
    have hu : tx.link ≠ t := by
      rintro rfl
      exact hl (by rw [hitem]; rfl)
    exact ((SameHead.poolPutNB hx).trans (.of_touches (blockOwner_touches ..) (by decide))).trans
      (.transfer htransfer hu hx)
  | @share tx _ _ hitem _ hshare =>
    have hx := hne fun tx' htx => by rw [htx] at hitem; cases hitem
    have hu : tx.link ≠ t := by
      rintro rfl
      exact hl (by rw [hitem]; rfl)
    exact (SameHead.poolPutNB hx).trans (.transfer hshare hu hx)
  | grant hitem hupdate =>
    have hx := hne fun tx' htx => by rw [htx] at hitem; cases hitem
    exact (SameHead.of_touches (updateShareGrant_touches hupdate) (by decide)).trans
      (.poolPutNB hx)
  | swap hitem hupdate =>
    have hx := hne fun tx' htx => by rw [htx] at hitem; cases hitem
    exact (SameHead.of_touches (updateShareSwap_touches hupdate) (by decide)).trans
      (.poolPutNB hx)

theorem AppliedAll.sameHead (h : AppliedAll env n a items a')
    (hl : ∀ item ∈ items, item.unpacked.link? ≠ some t)
    (hid : ∀ item ∈ items, item.txId = t → ∃ tx, item.unpacked = .bitmarkIssue tx)
    (ht : (a.committed.get .transactions t.bytes).isSome) : SameHead t a.pending a'.pending := by
  induction h with
  | nil => exact .refl _ _
  | cons h _ ih =>
    rw [List.forall_mem_cons] at hl hid
    exact (h.sameHead hl.1 hid.1 ht).trans (ih hl.2 hid.2 (by rwa [h.touches.committed]))

end Frame

/-! ## Signatures -/

section Signed

variable {env : Env} {v : View} {suppress : Bool} {la : List AssetIdentifier} {item : Txn}
  {l : Digest}

/-- A record with a link has been packed with the owner of the link as the signer. -/
theorem ValidItem.pack_eq_ok (hv : ValidItem env v suppress la item)
    (hl : item.unpacked.link? = some l) :
    ∃ o bn packed, item.linkOwner = some o ∧ ownerOf env v l = .ok (some (bn, o)) ∧
      item.unpacked.pack env ⟨0, o⟩ = .ok packed := by
  have hvalid := hv.valid
  cases htx : item.unpacked with
  | bitmarkTransferUnratified tx =>
    rw [htx] at hvalid hl
    cases hl
    obtain ⟨o, hok, hret⟩ := bind_eq_ok.mp hvalid
    obtain ⟨⟨bn, hfound⟩, ⟨packed, hpack⟩, -⟩ := validateBitmarkTransfer_eq_ok.mp hok
    exact ⟨o, bn, packed, (Prod.mk.inj (Except.ok.inj hret)).1.symm, hfound, hpack⟩
  | bitmarkTransferCountersigned tx =>
    rw [htx] at hvalid hl
    cases hl
    obtain ⟨o, hok, hret⟩ := bind_eq_ok.mp hvalid
    obtain ⟨⟨bn, hfound⟩, ⟨packed, hpack⟩, -⟩ := validateBitmarkTransfer_eq_ok.mp hok
    exact ⟨o, bn, packed, (Prod.mk.inj (Except.ok.inj hret)).1.symm, hfound, hpack⟩
  | blockOwnerTransfer tx =>
    rw [htx] at hvalid hl
    cases hl
    obtain ⟨⟨o, key⟩, hok, hret⟩ := bind_eq_ok.mp hvalid
    obtain ⟨⟨bn, hfound⟩, ⟨packed, hpack⟩, -⟩ := validateBlockOwnerTransfer_eq_ok.mp hok
    exact ⟨o, bn, packed, (Prod.mk.inj (Except.ok.inj hret)).1.symm, hfound, hpack⟩
  | bitmarkShare tx =>
    rw [htx] at hvalid hl
    cases hl
    obtain ⟨o, hok, hret⟩ := bind_eq_ok.mp hvalid
    obtain ⟨⟨bn, hfound⟩, ⟨packed, hpack⟩, -⟩ := validateBitmarkShare_eq_ok.mp hok
    exact ⟨o, bn, packed, (Prod.mk.inj (Except.ok.inj hret)).1.symm, hfound, hpack⟩
  | oldBaseData _ | assetData _ | bitmarkIssue _ | blockFoundation _ | shareGrant _
  | shareSwap _ =>
    rw [htx] at hl
    cases hl

end Signed

/-! ## One block -/

section Store

variable {env : Env} {K : Set Bytes} {now : UInt64} {packedBlock : Bytes}
  {packedNextBlock : Option Bytes} {node : Node} {i : Incoming} {a : Access} {t : Digest} {b : ℕ}
  {r : Transaction}

/-- **Storing a block** without a record that links to a stored record leaves what is stored of
it. -/
theorem StoresBlock.sameHead (h : StoresBlock env K now packedBlock packedNextBlock node i a)
    (hrec : node.access.committed.record env t = some (b, r))
    (hl : ∀ item ∈ i.items, item.unpacked.link? ≠ some t)
    (hid : ∀ item ∈ i.items, item.txId = t → ∃ tx, item.unpacked = .bitmarkIssue tx) :
    SameHead t node.access.committed (node.stored i a).access.committed := by
  obtain ⟨a₁, a₂, happlied, hfoundation, -, ha⟩ := updateBlock_eq_ok h.update
  have hsome : (node.access.committed.get .transactions t.bytes).isSome := by
    obtain ⟨_, _, hget, -⟩ := h.sound.wf.record_eq_some.mp hrec
    simp [hget]
  have hitems := happlied.sameHead hl hid hsome
  rw [pending_begin, Access.pending_of_clean h.onChain.clean] at hitems
  -- the foundation is a new record
  have hfid : foundationTxId env i.header.number i.digest ≠ t := by
    rintro rfl
    have hadded : RecordsAdded node.access.committed node.access.committed i.header.number [] :=
      ⟨id, Or.inl, by simp⟩
    have hnew := h.sound.foundation_new h.injOn h.toNat_number h.sound.wf hadded (by simp)
      h.foundationBytes_mem
    exact absurd (hnew.symm.trans hrec) (by simp)
  have hfound : SameHead t a₁.pending a₂.pending := by
    refine SameHead.trans ?_ (.create hfoundation hfid)
    exact ((SameHead.poolPut (by decide)).trans (.poolPutNB hfid)).trans (.poolPut (by decide))
  have hblock : SameHead t a₂.pending a.pending := by
    rw [ha, h.onChain.rebuild]
    exact (SameHead.poolPut (by decide)).trans (.poolPut (by decide))
  rw [show (node.stored i a).access.committed = a.pending from committed_commit a]
  exact (hitems.trans hfound).trans hblock

/-- A block with a record that links to one whose owner has the zero key does not pass
validation. -/
theorem Node.Consistent.not_linked_of_isZero (hn : node.Consistent env K) {o : Account}
    (hrec : node.access.committed.record env t = some (b, r)) (howner : r.owner? = some o)
    (hzero : o.isZero = true) {header : Header} {data : Bytes} {txs : List Txn}
    {foundation : Foundation} (h : validateBlock env node header data = .ok (txs, foundation)) :
    ∀ item ∈ txs, item.unpacked.link? ≠ some t := by
  intro item hitem hl
  obtain ⟨la, hv⟩ := (validateBlock_eq_ok h).2.1 item hitem
  obtain ⟨o', bn, packed, -, hfound, hpack⟩ := hv.pack_eq_ok hl
  rw [Access.view_of_clean hn.onChain.clean] at hfound
  obtain ⟨r', hrec', howner'⟩ := hn.sound.wf.ownerOf_eq_some.mp hfound
  obtain ⟨-, rfl⟩ := Prod.mk.inj (Option.some.inj (hrec.symm.trans hrec'))
  obtain rfl := Option.some.inj (howner.symm.trans howner')
  exact absurd hzero (by simp [(Transaction.pack_eq_ok hpack).signer_ne_zero])

end Store

/-! ## Destroyed bitmarks -/

/-- A call of `StoreIncoming`, whether it accepts the block or not. -/
def Offered (env : Env) (node : Node) (op : Op) (node' : Node) : Prop :=
  (∃ now packedBlock packedNextBlock, op = .storeIncoming now packedBlock packedNextBlock) ∧
    (op.run env node).2 = node'

section Destroyed

variable {env : Env} {K : Set Bytes} {node node' : Node} {op : Op} {t : Digest} {b : ℕ}
  {r : Transaction} {l : Digest} {o : Account}

theorem Transaction.owner?_of_transfer? (h : r.transfer? = some (l, o)) : r.owner? = some o := by
  cases r <;> simp_all [Transaction.transfer?, Transaction.owner?]

/-- The records that a call lists are those of a block that passes validation. -/
theorem Op.mem_listed {record : Bytes × Transaction} (h : record ∈ op.listed env node) :
    ∃ item, (∃ header data txs foundation,
      validateBlock env node header data = .ok (txs, foundation) ∧ item ∈ txs) ∧
      item.record = record := by
  unfold Op.listed at h
  split at h
  · split at h
    · cases h
    next header digest data hextract =>
      split at h
      · cases h
      next txs foundation hvalid =>
        obtain ⟨item, hitem, hrecord⟩ := List.mem_map.mp h
        exact ⟨item, ⟨header, data, txs, foundation, hvalid, hitem⟩, hrecord⟩
  · cases h

/-- A call of `StoreIncoming` leaves a bitmark that has been transferred to a zero key. -/
theorem Node.Consistent.offered (hn : node.Consistent env K) (hK : Set.InjOn env.newDigest K)
    (hmem : op.HashesIn env K) (hrec : node.access.committed.record env t = some (b, r))
    (hto : r.transfer? = some (l, o)) (hzero : o.isZero = true) (h : Offered env node op node') :
    node'.Consistent env K ∧ SameHead t node.access.committed node'.access.committed := by
  obtain ⟨⟨now, packedBlock, packedNextBlock, rfl⟩, hrun⟩ := h
  rcases hresult : (Op.storeIncoming now packedBlock packedNextBlock).run env node with ⟨x, node₁⟩
  rw [hresult] at hrun
  obtain rfl : node₁ = node' := hrun
  cases x with
  | error e =>
    obtain ⟨current, rfl⟩ := storeIncoming_error hresult
    exact ⟨⟨⟨hn.onChain.clean, hn.onChain.rebuild, hn.onChain.chain, hn.onChain.tip⟩, hn.sound,
      hn.contents⟩, .refl _ _⟩
  | ok =>
    refine ⟨hn.step hK hmem hresult, ?_⟩
    obtain ⟨i, a, hacc, -, hupdate, rfl⟩ := storeIncoming_eq_ok.mp hresult
    have howner := Transaction.owner?_of_transfer? hto
    have hlink : r.link? ≠ none := by
      rw [(Transaction.of_transfer? hto).1]
      simp
    have hstores := hn.stores hK hmem hacc hupdate
    refine hstores.sameHead hrec ?_ fun item hitem hid => ?_
    · exact fun item hitem => hn.not_linked_of_isZero hrec howner hzero hacc.validate item
        (Incoming.mem_txs hitem)
    · -- the transfer itself cannot be stored a second time
      exfalso
      subst hid
      have hadmitted := hstores.admitted_items item hitem
      obtain rfl := hadmitted.same hK hn.sound.wf hrec
      have hnone := hn.sound.record_eq_none hK hadmitted hlink
      exact absurd (hnone.symm.trans hrec) (by simp)

/-- **A destroyed bitmark stays destroyed.** Whatever blocks are offered after a bitmark has been
transferred to a zero key, its record, owner data and index entries stay, and no block with a record
that links to it passes validation. -/
theorem destroyed_stays {trace later : List (Node × Op)} (hr : NodeRun env trace node)
    (hlater : Run (Offered env) node later node') (hfree : CollisionFree env (trace ++ later))
    (hrec : node.access.committed.record env t = some (b, r)) (hto : r.transfer? = some (l, o))
    (hzero : o.isZero = true) :
    SameHead t node.access.committed node'.access.committed ∧
      ∀ x ∈ later, ∀ record ∈ x.2.listed env x.1, record.2.link? ≠ some t := by
  have hK := hfree.injOn
  have hhashes := hashesIn_trace env (trace ++ later)
  have hn := hr.consistent hK fun x hx => hhashes x (List.mem_append_left _ hx)
  have hguard :
      Guarded (fun _ op => op.HashesIn env {s | s ∈ hashedIn env (trace ++ later)}) later :=
    fun x hx => hhashes x (List.mem_append_right _ hx)
  have howner := Transaction.owner?_of_transfer? hto
  generalize {s | s ∈ hashedIn env (trace ++ later)} = K at hK hn hguard
  -- in every state the bitmark is as it was, and it has not been linked to
  have hall : (node'.Consistent env K ∧ SameHead t node.access.committed node'.access.committed) ∧
      ∀ x ∈ later, ∀ record ∈ x.2.listed env x.1, record.2.link? ≠ some t := by
    refine hlater.history_invariant (P := fun later node' =>
      (node'.Consistent env K ∧ SameHead t node.access.committed node'.access.committed) ∧
        ∀ x ∈ later, ∀ record ∈ x.2.listed env x.1, record.2.link? ≠ some t) hguard
      ⟨⟨hn, .refl _ _⟩, by simp⟩ ?_
    rintro later node₁ op node₂ - - ⟨⟨hn₁, hsame⟩, hlisted⟩ hop hstep
    have hrec₁ : node₁.access.committed.record env t = some (b, r) := by
      rw [← hrec, View.record, View.record, hsame.record]
    obtain ⟨hn₂, hsame₂⟩ := hn₁.offered hK hop hrec₁ hto hzero hstep
    refine ⟨⟨hn₂, hsame.trans hsame₂⟩, fun x hx => ?_⟩
    rcases List.mem_append.mp hx with hx | hx
    · exact hlisted x hx
    · obtain rfl := List.mem_singleton.mp hx
      intro record hrecord
      obtain ⟨item, hitem, rfl⟩ := Op.mem_listed hrecord
      obtain ⟨header, data, txs, foundation, hvalid, hitem⟩ := hitem
      exact hn₁.not_linked_of_isZero hrec₁ howner hzero hvalid item hitem
  exact ⟨hall.1.2, hall.2⟩

end Destroyed

namespace Sample

/-- A bitmark is issued and transferred to the zero key. -/
def destroyOps : List Op := storeAll 2 [[asset 1, issue 1 0x11 1], [transfer (id 0x11) 0x12 0]]

/-- A block in which the zero key transfers the bitmark on. -/
def reviveOp : Op :=
  fastSync (block 2 4 testGenesisDigest 10 [foundation, transfer (id 0x12) 0x13 3]) 4 (id 4)

theorem destroyOps_facts : (runOps env destroyOps (Node.fresh env)).isSome = true ∧
    CollisionFree env
      (traceOps env destroyOps (Node.fresh env) ++ [((after destroyOps), reviveOp)]) ∧
    ((after destroyOps).access.committed.record env (id 0x12)).map Prod.snd =
      some (transfer (id 0x11) 0x12 0) := by
  decide +kernel

/-- The block is rejected, and the bitmark stays as it was. -/
theorem destroyed_stays_offered :
    SameHead (id 0x12) (after destroyOps).access.committed
        (reviveOp.run env (after destroyOps)).2.access.committed ∧
      ∀ record ∈ reviveOp.listed env (after destroyOps), record.2.link? ≠ some (id 0x12) := by
  obtain ⟨hrun, hfree, hrecord⟩ := destroyOps_facts
  obtain ⟨⟨b, r⟩, hrec, rfl⟩ := Option.map_eq_some_iff.mp hrecord
  have hoffered : Run (Offered env) (after destroyOps) [((after destroyOps), reviveOp)]
      (reviveOp.run env (after destroyOps)).2 := .single ⟨⟨_, _, _, rfl⟩, rfl⟩
  have h := destroyed_stays (nodeRun_after hrun) hoffered hfree hrec rfl (by decide +kernel)
  have hlisted := h.2 _ (List.mem_singleton.mpr rfl)
  dsimp only at hlisted
  exact ⟨h.1, hlisted⟩

end Sample

end Bitmarkd
