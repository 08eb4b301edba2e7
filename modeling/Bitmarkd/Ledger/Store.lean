import Bitmarkd.Block.Transactions
import Bitmarkd.Chain.Shape
import Bitmarkd.Ledger.Format

/-!
# The ledger when a block is stored

The update loop works through the cache on what validation accepted against the committed database.
`Updating` relates the two: what is pending is a provenance ledger in the middle of storing a block
over the committed one. So whatever a block contains, each of its records finds in the cache the
head that validation found in the database, and no record makes the loop panic
(`Updating.progress`), although two of them may spend the same head.
-/

namespace Bitmarkd

open Lib Lib.Provenance

/-- A tx id in the index of block owners is that of a block record. -/
def Indexed (env : Env) (v : View) : Prop :=
  ∀ ⦃t : Digest⦄, (v.get .blockOwnerTxIndex t.bytes).isSome →
    ∃ b r, v.record env t = some (b, r) ∧ r.IsBlockRecord

/-- The database holds a well-formed ledger, of blocks up to `h`. -/
structure Sound (env : Env) (K : Set Bytes) (v : View) (h : ℕ) : Prop where
  wf : WellFormed env K v
  inv : ownershipScheme.Inv (v.ledger env) (h + 1)
  bound : ∀ {t b r}, v.record env t = some (b, r) → b ≤ h
  indexed : Indexed env v

/-- The updates of block `n` so far, over the committed database. -/
structure Updating (env : Env) (K : Set Bytes) (n : UInt64) (a : Access) : Prop where
  wf₀ : WellFormed env K a.committed
  wf : WellFormed env K a.pending
  storing : ownershipScheme.Storing (a.committed.ledger env) (a.pending.ledger env) n.toNat
  indexed₀ : Indexed env a.committed
  indexed : Indexed env a.pending

/-! ## The link of a record -/

section Link

variable {env : Env} {K : Set Bytes} {v : View} {h : ℕ} {l : Digest} {o : Account} {b : ℕ}
  {r : Transaction} {d : OwnerData} {suppress : Bool} {la : List AssetIdentifier} {item : Txn}

/-- What validation finds at the link of a record: a record with an owner who owns it. -/
structure LinkFound (env : Env) (v : View) (l : Digest) (o : Account) (b : ℕ) (r : Transaction)
    (d : OwnerData) : Prop where
  entry : v.record env l = some (b, r)
  owner : r.owner? = some o
  head : v.head l = some d
  owns : currentlyOwns v o l = true

theorem Transaction.not_isShare_of_owner? {r : Transaction} {o : Account}
    (h : r.owner? = some o) : ¬ r.IsShare := by
  cases r <;> simp_all [owner?, IsShare]

/-- A record with an owner is not the head of a share. -/
theorem not_isShare_of_head {L : Ledger Digest Transaction Account OwnerData} {m : ℕ}
    (hinv : ownershipScheme.Inv L m) (hhead : L.head l = some d) (hentry : L.entry l = some (b, r))
    (howner : r.owner? = some o) : ¬ d.item.IsShare :=
  fun hc => Transaction.not_isShare_of_owner? howner ((hinv.suited hhead hentry).mp hc)

theorem Sound.linkFound_of_owns (hs : Sound env K v h) {n : UInt64}
    (hfound : ownerOf env v l = .ok (some (n, o))) (howns : currentlyOwns v o l = true) :
    ∃ b r d, LinkFound env v l o b r d := by
  obtain ⟨r, hentry, howner⟩ := hs.wf.ownerOf_eq_some.mp hfound
  obtain ⟨d, hhead⟩ := hs.inv.owns_head howns
  exact ⟨_, r, d, hentry, howner, hhead, howns⟩

theorem Sound.linkFound_of_head (hs : Sound env K v h) {n : UInt64}
    (hfound : ownerOf env v l = .ok (some (n, o))) (hhead : getOwnerData v l = .ok d) :
    ∃ b r, LinkFound env v l o b r d := by
  obtain ⟨r, hentry, howner⟩ := hs.wf.ownerOf_eq_some.mp hfound
  have hhead := View.head_eq_some.mpr hhead
  obtain ⟨o', howner', howns⟩ := hs.inv.head_owned hhead hentry
    (Nat.lt_succ_of_le (hs.bound hentry))
  -- the owner of the head is the one that the record names
  have hholder := Transaction.holder?_of_owner? howner
  rcases howner' with ho' | ⟨ho', -⟩
  · obtain rfl := Option.some.inj (hholder.symm.trans ho')
    exact ⟨_, r, hentry, howner, hhead, howns⟩
  · exact absurd (hholder.symm.trans ho') (by simp)

/-- **Validation** of a record with a link has found the head it spends. -/
theorem Sound.linkFound (hs : Sound env K v h) (hv : ValidItem env v suppress la item)
    (hl : item.unpacked.link? = some l) :
    ∃ o b r d, item.linkOwner = some o ∧ LinkFound env v l o b r d ∧
      (item.unpacked.IsBlockRecord → r.IsBlockRecord) ∧
      (item.unpacked.IsShare → ∃ assetId, d.item = .asset assetId) := by
  have hvalid := hv.valid
  cases htx : item.unpacked with
  | bitmarkTransferUnratified tx =>
    rw [htx] at hvalid hl
    cases hl
    obtain ⟨o, hok, hret⟩ := bind_eq_ok.mp hvalid
    obtain ⟨⟨bn, hfound⟩, -, howns, -⟩ := validateBitmarkTransfer_eq_ok.mp hok
    obtain ⟨b, r, d, hlink⟩ := hs.linkFound_of_owns hfound howns
    exact ⟨o, b, r, d, (Prod.mk.inj (Except.ok.inj hret)).1.symm, hlink, False.elim, False.elim⟩
  | bitmarkTransferCountersigned tx =>
    rw [htx] at hvalid hl
    cases hl
    obtain ⟨o, hok, hret⟩ := bind_eq_ok.mp hvalid
    obtain ⟨⟨bn, hfound⟩, -, howns, -⟩ := validateBitmarkTransfer_eq_ok.mp hok
    obtain ⟨b, r, d, hlink⟩ := hs.linkFound_of_owns hfound howns
    exact ⟨o, b, r, d, (Prod.mk.inj (Except.ok.inj hret)).1.symm, hlink, False.elim, False.elim⟩
  | blockOwnerTransfer tx =>
    rw [htx] at hvalid hl
    cases hl
    obtain ⟨⟨o, key⟩, hok, hret⟩ := bind_eq_ok.mp hvalid
    obtain ⟨⟨bn, hfound⟩, -, howns, hkey, -⟩ := validateBlockOwnerTransfer_eq_ok.mp hok
    obtain ⟨b, r, d, hlink⟩ := hs.linkFound_of_owns hfound howns
    refine ⟨o, b, r, d, (Prod.mk.inj (Except.ok.inj hret)).1.symm, hlink, fun _ => ?_, False.elim⟩
    obtain ⟨b', r', hentry, hblock⟩ := hs.indexed (t := tx.link) (by simp [hkey])
    rw [hlink.entry] at hentry
    cases hentry
    exact hblock
  | bitmarkShare tx =>
    rw [htx] at hvalid hl
    cases hl
    obtain ⟨o, hok, hret⟩ := bind_eq_ok.mp hvalid
    obtain ⟨⟨bn, hfound⟩, -, d, assetId, hd, hitem⟩ := validateBitmarkShare_eq_ok.mp hok
    obtain ⟨b, r, hlink⟩ := hs.linkFound_of_head hfound hd
    exact ⟨o, b, r, d, (Prod.mk.inj (Except.ok.inj hret)).1.symm, hlink, False.elim,
      fun _ => ⟨assetId, hitem⟩⟩
  | oldBaseData _ | assetData _ | bitmarkIssue _ | blockFoundation _ | shareGrant _
  | shareSwap _ =>
    rw [htx] at hl
    cases hl

end Link

/-! ## Reading through the cache -/

section Reads

variable {env : Env} {K : Set Bytes} {n : UInt64} {a a₁ : Access} {l : Digest} {o : Account} {b : ℕ}
  {r : Transaction} {d : OwnerData} {ps : List Pool}

theorem Updating.sound₀ (hu : Updating env K n a) (hn : 1 ≤ n) :
    Sound env K a.committed (n.toNat - 1) := by
  rw [UInt64.le_iff_toNat_le] at hn
  have hn' : n.toNat - 1 + 1 = n.toNat := Nat.sub_add_cancel hn
  refine ⟨hu.wf₀, ?_, fun hentry => ?_, hu.indexed₀⟩
  · rw [hn']
    exact hu.storing.inv₀
  · have := hu.storing.bound hentry
    omega

/-- The head that validation found is what the loop reads, even after it has been spent. -/
theorem Updating.getOwnerData_eq (hu : Updating env K n a)
    (hlink : LinkFound env a.committed l o b r d) : getOwnerData a.view l = .ok d := by
  have hcommitted := hu.wf₀.head_eq_some.mp hlink.head
  have hview : a.view.get .ownerData l.bytes = some d.pack := by
    rcases a.view_eq_pending_or .ownerData l.bytes with heq | ⟨-, heq⟩
    · have hsome := a.view_isSome (p := .ownerData) (k := l.bytes) (by simp [hcommitted])
      obtain ⟨packed, hpacked⟩ := Option.isSome_iff_exists.mp hsome
      obtain ⟨t, d', -, rfl⟩ := hu.wf (heq ▸ hpacked)
      have hhead : a.pending.head l = some d' := hu.wf.head_eq_some.mpr (heq ▸ hpacked)
      obtain rfl := Option.some.inj (hlink.head.symm.trans (hu.storing.heads hlink.entry hhead))
      exact hpacked
    · rw [heq, hcommitted]
  exact View.head_eq_some.mp ((hu.wf.view hu.wf₀).head_eq_some.mpr hview)

end Reads

/-! ## One record -/

section Step

variable {env : Env} {K : Set Bytes} {n : UInt64} {a a₁ a' : Access} {item : Txn}
  {suppress : Bool} {la : List AssetIdentifier}

/-- A record of the block: it is among the strings that are hashed, and valid. -/
structure Admitted (env : Env) (K : Set Bytes) (v : View) (item : Txn) : Prop where
  mem : item.packed ∈ K
  valid : ∃ suppress la, ValidItem env v suppress la item

theorem Admitted.isRecord {v : View} (h : Admitted env K v item) :
    IsRecord env item.packed item.unpacked := by
  obtain ⟨_, _, hv⟩ := h.valid
  exact hv.isRecord

/-- Under the id of the record there can only be the same record. -/
theorem Admitted.same {v w : View} (hK : Set.InjOn env.newDigest K) (h : Admitted env K v item)
    (hw : WellFormed env K w) {b : ℕ} {r : Transaction}
    (hr : w.record env item.txId = some (b, r)) : r = item.unpacked := by
  obtain ⟨_, _, hv⟩ := h.valid
  obtain ⟨m, packed, -, -, hstored⟩ := hw.record_eq_some.mp hr
  exact (hstored.unique hK h.mem hv.length_le hv.txId_eq hv.isRecord).2

theorem Admitted.storedAs {v : View} (h : Admitted env K v item) (hs : item.unpacked.IsStored) :
    Pool.Valid env K .transactions item.txId.bytes (be64 n ++ item.packed) := by
  obtain ⟨_, _, hv⟩ := h.valid
  exact ⟨item.txId, n, item.packed, item.unpacked, rfl, rfl,
    .record h.mem hv.length_le hv.txId_eq hv.isRecord hs⟩

theorem WellFormed.storeRecord {v : View} (h : WellFormed env K a.pending)
    (hitem : Admitted env K v item) (hs : item.unpacked.IsStored) :
    WellFormed env K (a.storeRecord n item).pending :=
  h.poolPut (hitem.storedAs hs)

/-- The records that are there stay, and the index of block owners gets no other new entry than for
a block record. -/
theorem Indexed.mono {v w : View} (hv : Indexed env v)
    (hindex : ∀ t : Digest, (w.get .blockOwnerTxIndex t.bytes).isSome →
      (v.get .blockOwnerTxIndex t.bytes).isSome ∨
        ∃ b r, w.record env t = some (b, r) ∧ r.IsBlockRecord)
    (hrecord : ∀ t b r, v.record env t = some (b, r) → ∃ b', w.record env t = some (b', r)) :
    Indexed env w := by
  intro t ht
  rcases hindex t ht with ht | hnew
  · obtain ⟨b, r, hentry, hblock⟩ := hv ht
    obtain ⟨b', hentry'⟩ := hrecord t b r hentry
    exact ⟨b', r, hentry', hblock⟩
  · exact hnew

/-- A record that is stored keeps the others. -/
theorem record_storeRecord (hr : IsRecord env item.packed item.unpacked) (t : Digest) :
    (a.storeRecord n item).pending.record env t =
      if t = item.txId then some (n.toNat, item.unpacked) else a.pending.record env t := by
  have hledger := congrArg Ledger.entry (ledger_storeRecord (a := a) (t := item.txId) (n := n) hr)
  exact (congrFun hledger t).trans Ledger.entry_addEntry

theorem Touches.record_eq {ps : List Pool} (ht : Touches ps a a')
    (hps : Pool.transactions ∉ ps) : a'.pending.record env = a.pending.record env := by
  funext t
  rw [View.record, View.record, ht.pending _ hps]

/-- Storing a record, and then writing other pools without the index of block owners. -/
theorem Updating.indexed_storeRecord (hu : Updating env K n a) (hK : Set.InjOn env.newDigest K)
    (hitem : Admitted env K a.committed item) {ps : List Pool}
    (ht : Touches ps (a.storeRecord n item) a') (hps : Pool.transactions ∉ ps)
    (hindex : ∀ t : Digest, (a'.pending.get .blockOwnerTxIndex t.bytes).isSome →
      (a.pending.get .blockOwnerTxIndex t.bytes).isSome ∨
        t = item.txId ∧ item.unpacked.IsBlockRecord) : Indexed env a'.pending := by
  have hrecord (t : Digest) :
      a'.pending.record env t = (a.storeRecord n item).pending.record env t :=
    congrFun (ht.record_eq hps) t
  refine hu.indexed.mono (fun t h => (hindex t h).imp_right ?_) fun t b r hr => ?_
  · rintro ⟨rfl, hblock⟩
    exact ⟨_, _, by rw [hrecord, record_storeRecord hitem.isRecord, if_pos rfl], hblock⟩
  · rw [hrecord, record_storeRecord hitem.isRecord]
    split
    next htx =>
      subst htx
      exact ⟨_, by rw [hitem.same hK hu.wf hr]⟩
    next => exact ⟨b, hr⟩

/-- The record spends the head that validation found. -/
theorem Updating.spends (hu : Updating env K n a) (hK : Set.InjOn env.newDigest K)
    (hitem : Admitted env K a.committed item) {l : Digest} {o o' : Account} {b : ℕ}
    {r : Transaction} {d d' : OwnerData} (hl : item.unpacked.link? = some l)
    (hlink : LinkFound env a.committed l o b r d)
    (hblock : item.unpacked.IsBlockRecord → r.IsBlockRecord)
    (hholder : item.unpacked.holder? = some o' ∨ item.unpacked.holder? = none ∧ o' = o)
    (hfits : ∀ {s b r'}, d.Fits s b r' → d'.Fits s b r')
    (hsuits : d'.item.IsShare ↔ item.unpacked.IsShare) :
    ownershipScheme.Spends (a.committed.ledger env) (a.pending.ledger env) n.toNat item.txId
      item.unpacked l d' o o' b r d where
  storing := hu.storing
  link_entry := hlink.entry
  link_head := hlink.head
  link_holder := Transaction.holder?_of_owner? hlink.owner
  link := hl
  follows := ⟨by rw [hlink.owner]; simp, hblock⟩
  holder := hholder
  fits := hfits
  suits := hsuits
  same _ _ hr := hitem.same hK hu.wf hr

theorem OwnerData.Fits.transfer {d : OwnerData} {s : Digest} {b : ℕ} {r : Transaction}
    (h : d.Fits s b r) (m : UInt64) :
    ({ d with transferBlockNumber := m } : OwnerData).Fits s b r :=
  h

/-- A bitmark may become a share. -/
theorem OwnerData.Fits.share {d : OwnerData} {s : Digest} {b : ℕ} {r : Transaction}
    (h : d.Fits s b r) (m : UInt64) {assetId : AssetIdentifier} (hd : d.item = .asset assetId) :
    ({ d with transferBlockNumber := m, item := .share assetId } : OwnerData).Fits s b r := by
  obtain ⟨hid, hnum, hitem⟩ := h
  refine ⟨hid, hnum, ?_⟩
  cases r <;> simp_all

/-- The parts of a bitmark transfer. -/
theorem Transaction.of_transfer? {tx : Transaction} {l : Digest} {o : Account}
    (h : tx.transfer? = some (l, o)) : tx.link? = some l ∧ tx.holder? = some o ∧ tx.IsStored ∧
      ¬ tx.IsShare ∧ ¬ tx.IsBlockRecord := by
  cases tx <;>
    simp_all [transfer?, link?, holder?, IsStored, IsShare, IsBlockRecord]

/-- A head moves to a record that is no share. -/
theorem Updating.transfer (hu : Updating env K n a) (hK : Set.InjOn env.newDigest K) (hn : 1 ≤ n)
    (hitem : Admitted env K a.committed item) {l : Digest} {o o' : Account}
    (hl : item.unpacked.link? = some l) (hholder : item.unpacked.holder? = some o')
    (hshare : ¬ item.unpacked.IsShare) (ho : item.linkOwner = some o) {ps : List Pool}
    (ht : Touches ps (a.storeRecord n item) a₁)
    (hps : ∀ p ∈ Pool.transactions :: ownershipPools, p ∉ ps)
    (hwf : WellFormed env K a₁.pending)
    (hledger : a₁.pending.ledger env = (a.storeRecord n item).pending.ledger env)
    (hindex : ∀ t : Digest, (a₁.pending.get .blockOwnerTxIndex t.bytes).isSome →
      (a.pending.get .blockOwnerTxIndex t.bytes).isSome ∨
        t = item.txId ∧ item.unpacked.IsBlockRecord)
    (h : transferOwnership a₁ l item.txId n o (some o') = .ok a') : Updating env K n a' := by
  obtain ⟨_, _, hv⟩ := hitem.valid
  obtain ⟨o₁, b, r, d, ho₁, hlink, hblock, -⟩ := (hu.sound₀ hn).linkFound hv hl
  obtain rfl := Option.some.inj (ho.symm.trans ho₁)
  have hd : getOwnerData a₁.view l = .ok d := by
    rw [← hu.getOwnerData_eq hlink, getOwnerData, getOwnerData,
      ht.view _ (hps .ownerData (by decide))]
    simp [Access.storeRecord, Access.poolPutNB]
  have hno := not_isShare_of_head hu.storing.inv₀ hlink.head hlink.entry hlink.owner
  have htransfer := transferOwnership_touches h
  have hcommitted : a'.committed = a.committed := htransfer.committed.trans ht.committed
  have hspends := hu.spends hK hitem hl hlink hblock (Or.inl hholder)
    (fun hf => hf.transfer n) (iff_of_false hno hshare)
  constructor
  · rw [hcommitted]
    exact hu.wf₀
  · exact hwf.transfer h
  · rw [hcommitted, ledger_transferOwnership hd hno h, hledger, Access.storeRecord,
      ledger_storeRecord hitem.isRecord]
    exact hspends.storing_spend
  · rw [hcommitted]
    exact hu.indexed₀
  · have hall : Touches (ownershipPools ++ ps) (a.storeRecord n item) a' :=
      (ht.mono (List.subset_append_right _ _)).trans
        (htransfer.mono (List.subset_append_left _ _))
    refine hu.indexed_storeRecord hK hitem hall ?_ fun t hs => hindex t ?_
    · rw [List.mem_append, not_or]
      exact ⟨by decide, hps _ List.mem_cons_self⟩
    · rwa [htransfer.pending _ (by decide)] at hs

/-- A write to a pool of neither the ledger nor the index of block owners. -/
theorem Updating.other (hu : Updating env K n a) {ps : List Pool} (ht : Touches ps a a')
    (hps : ∀ p ∈ [Pool.transactions, .ownerData, .ownerTxIndex, .blockOwnerTxIndex], p ∉ ps)
    (hwf : WellFormed env K a'.pending) : Updating env K n a' := by
  have hledger : a'.pending.ledger env = a.pending.ledger env :=
    View.ledger_congr (fun t => ht.pending _ (hps _ (by simp)))
      (fun t => ht.pending _ (hps _ (by simp))) fun o t => ht.pending _ (hps _ (by simp))
  constructor
  · rw [ht.committed]
    exact hu.wf₀
  · exact hwf
  · rw [ht.committed, hledger]
    exact hu.storing
  · rw [ht.committed]
    exact hu.indexed₀
  · refine hu.indexed.mono (fun t hs => Or.inl ?_) fun t b r hr => ⟨b, ?_⟩
    · rwa [ht.pending _ (hps _ (by simp))] at hs
    · rwa [ht.record_eq (hps _ (by simp))]

/-- Storing the record of a grant or a swap. -/
theorem Updating.note (hu : Updating env K n a) (hK : Set.InjOn env.newDigest K)
    (hitem : Admitted env K a.committed item) (hl : item.unpacked.link? = none)
    (hholder : item.unpacked.holder? = none) (hstored : item.unpacked.IsStored) :
    Updating env K n (a.storeRecord n item) where
  wf₀ := hu.wf₀
  wf := hu.wf.storeRecord hitem hstored
  storing := by
    rw [Access.storeRecord, ledger_storeRecord hitem.isRecord]
    exact hu.storing.note hl hholder fun _ _ hr => hitem.same hK hu.wf hr
  indexed₀ := hu.indexed₀
  indexed := hu.indexed_storeRecord hK hitem (.refl [] _) (by simp) fun t hs => Or.inl (by
    simpa [Access.storeRecord, Access.poolPutNB] using hs)

/-- A new issue. -/
theorem Updating.issue (hu : Updating env K n a) (hK : Set.InjOn env.newDigest K)
    (hitem : Admitted env K a.committed item) {tx : BitmarkIssue}
    (htx : item.unpacked = .bitmarkIssue tx)
    (hnew : a.view.has .transactions item.txId.bytes = false)
    (h : createAsset (a.storeRecord n item) item.txId n tx.assetId tx.owner = .ok a') :
    Updating env K n a' := by
  have hstored : item.unpacked.IsStored := by rw [htx]; trivial
  have hnone : a.pending.record env item.txId = none := by
    rw [hu.wf.record_eq_none]
    by_contra hc
    have hview := a.get_ne_none _ (Or.inr hc)
    exact hview (by simpa [View.has, View.get, Access.view] using hnew)
  have ht := create_touches h
  constructor
  · rw [ht.committed]
    exact hu.wf₀
  · exact (hu.wf.storeRecord hitem hstored).create h
  · rw [ht.committed, ledger_create h, Access.storeRecord, ledger_storeRecord hitem.isRecord]
    refine hu.storing.issue hnone ?_ ?_ ⟨rfl, rfl, ?_⟩ ?_
    · rw [htx]
      rfl
    · rw [htx]
      rfl
    · rw [htx]
      exact Or.inl rfl
    · show OwnedItem.IsShare _ ↔ item.unpacked.IsShare
      rw [htx]
      exact Iff.rfl
  · rw [ht.committed]
    exact hu.indexed₀
  · refine hu.indexed_storeRecord hK hitem ht (by decide) fun t hs => Or.inl ?_
    rw [ht.pending _ (by decide)] at hs
    simpa [Access.storeRecord, Access.poolPutNB] using hs

/-- What a share record converts: a bitmark of its link owner, which the loop still reads. -/
theorem Updating.conversion (hu : Updating env K n a) (hn : 1 ≤ n)
    (hitem : Admitted env K a.committed item) {tx : BitmarkShare}
    (htx : item.unpacked = .bitmarkShare tx) :
    ∃ o b r d assetId, item.linkOwner = some o ∧ LinkFound env a.committed tx.link o b r d ∧
      d.item = .asset assetId ∧ tx.quantity ≠ 0 ∧
      getOwnerData (a.storeRecord n item).view tx.link = .ok d := by
  have hl : item.unpacked.link? = some tx.link := by rw [htx]; rfl
  obtain ⟨_, _, hv⟩ := hitem.valid
  obtain ⟨o, b, r, d, ho, hlink, -, hasset⟩ := (hu.sound₀ hn).linkFound hv hl
  obtain ⟨assetId, hasset⟩ := hasset (by rw [htx]; trivial)
  refine ⟨o, b, r, d, assetId, ho, hlink, hasset, ?_, ?_⟩
  · have hvalid := hv.valid
    rw [htx] at hvalid
    obtain ⟨_, hok, -⟩ := bind_eq_ok.mp hvalid
    obtain ⟨-, ⟨packed, hpack⟩, -⟩ := validateBitmarkShare_eq_ok.mp hok
    exact BitmarkShare.quantity_of_pack hpack
  · rw [← hu.getOwnerData_eq hlink, getOwnerData, getOwnerData]
    simp [Access.storeRecord, Access.poolPutNB]

/-- A bitmark becomes a share. -/
theorem Updating.share (hu : Updating env K n a) (hK : Set.InjOn env.newDigest K) (hn : 1 ≤ n)
    (hitem : Admitted env K a.committed item) {tx : BitmarkShare} {o : Account}
    (htx : item.unpacked = .bitmarkShare tx) (ho : item.linkOwner = some o)
    (h : share (a.storeRecord n item) tx.link item.txId n o tx.quantity = .ok a') :
    Updating env K n a' := by
  have hstored : item.unpacked.IsStored := by rw [htx]; trivial
  have hl : item.unpacked.link? = some tx.link := by rw [htx]; rfl
  obtain ⟨o₁, b, r, d, assetId, ho₁, hlink, hasset, hq, hd⟩ := hu.conversion hn hitem htx
  obtain rfl := Option.some.inj (ho.symm.trans ho₁)
  have hblock : item.unpacked.IsBlockRecord → r.IsBlockRecord := by
    rw [htx]
    exact False.elim
  have ht := share_touches h
  have hholder : item.unpacked.holder? = some o ∨ item.unpacked.holder? = none ∧ o = o :=
    Or.inr ⟨by rw [htx]; rfl, rfl⟩
  have hspends := hu.spends hK hitem hl hlink hblock hholder (fun hf => hf.share n hasset)
    (iff_of_true trivial (by rw [htx]; trivial))
  constructor
  · rw [ht.committed]
    exact hu.wf₀
  · exact (hu.wf.storeRecord hitem hstored).transfer h
  · rw [ht.committed, ledger_share hq hd hasset h, Access.storeRecord,
      ledger_storeRecord hitem.isRecord]
    exact hspends.storing_spend
  · rw [ht.committed]
    exact hu.indexed₀
  · refine hu.indexed_storeRecord hK hitem ht (by decide) fun t hs => Or.inl ?_
    rw [ht.pending _ (by decide)] at hs
    simpa [Access.storeRecord, Access.poolPutNB] using hs

/-- A block changes its owner. -/
theorem Updating.blockOwner (hu : Updating env K n a) (hK : Set.InjOn env.newDigest K) (hn : 1 ≤ n)
    (hitem : Admitted env K a.committed item) {tx : BlockOwnerTransfer} {o : Account}
    {pkPayments : Bytes} (htx : item.unpacked = .blockOwnerTransfer tx)
    (ho : item.linkOwner = some o)
    (h : transferOwnership ((((a.storeRecord n item).poolPut .blockOwnerPayment
        item.blockNumberKey pkPayments).poolPut .blockOwnerTxIndex item.txId.bytes
        item.blockNumberKey).poolRemove .blockOwnerTxIndex tx.link.bytes) tx.link item.txId n
        o (some tx.owner) = .ok a') : Updating env K n a' := by
  have hkey : ∃ m, item.blockNumberKey = be64 m := by
    obtain ⟨_, _, hv⟩ := hitem.valid
    have hvalid := hv.valid
    rw [htx] at hvalid
    obtain ⟨⟨o', key⟩, hok, hret⟩ := bind_eq_ok.mp hvalid
    obtain ⟨-, -, -, hkey, -⟩ := validateBlockOwnerTransfer_eq_ok.mp hok
    obtain ⟨t, m, -, rfl⟩ := hu.wf₀ hkey
    exact ⟨m, (Prod.mk.inj (Except.ok.inj hret)).2.symm⟩
  obtain ⟨m, hkey⟩ := hkey
  have ht := blockOwner_touches (a.storeRecord n item) item.blockNumberKey pkPayments
    item.txId.bytes tx.link.bytes
  refine hu.transfer hK hn hitem (by rw [htx]; rfl) (by rw [htx]; rfl) (by rw [htx]; exact id) ho
    ht (by decide) ?_ ?_ ?_ h
  · refine (((hu.wf.storeRecord hitem ?_).poolPut ?_).poolPut ?_).poolRemove
    · rw [htx]
      trivial
    · trivial
    · exact ⟨item.txId, m, rfl, hkey⟩
  · rw [ledger_poolRemove (by decide), ledger_poolPut (by decide), ledger_poolPut (by decide)]
  · intro t hs
    simp only [pending_poolRemove, pending_poolPut, true_and, reduceCtorEq, false_and, if_false,
      FixedBytes.bytes_inj, Access.storeRecord, Access.poolPutNB] at hs
    split at hs
    · cases hs
    · split at hs
      next hid => exact Or.inr ⟨hid.symm, by rw [htx]; trivial⟩
      next => exact Or.inl hs

/-- **One record** keeps the ledger. -/
theorem Updating.applied (hu : Updating env K n a) (hK : Set.InjOn env.newDigest K) (hn : 1 ≤ n)
    (hitem : Admitted env K a.committed item) (h : Applied env n a item a') :
    Updating env K n a' := by
  have hstore (p : Pool) (k : Bytes) (hp : p ≠ .transactions) :
      (a.storeRecord n item).pending.get p k = a.pending.get p k := by
    simp [Access.storeRecord, Access.poolPutNB, hp.symm]
  cases h with
  | assetKnown => exact hu
  | issueKnown => exact hu
  | @asset tx _ _ =>
    have ht : Touches [.assets] a (a.poolPutNB .assets (tx.assetId env).bytes n item.packed) :=
      .poolPut _ _ (by decide)
    exact hu.other ht (by decide) (hu.wf.poolPut trivial)
  | issue htx hnew hcreate => exact hu.issue hK hitem htx hnew hcreate
  | transfer htx ho htransfer =>
    obtain ⟨hl, hholder, hstored, hshare, -⟩ := Transaction.of_transfer? htx
    exact hu.transfer hK hn hitem hl hholder hshare ho (.refl [] _) (by decide)
      (hu.wf.storeRecord hitem hstored) rfl
      (fun t hs => Or.inl (by rwa [hstore _ _ (by decide)] at hs)) htransfer
  | blockOwner htx ho _ htransfer => exact hu.blockOwner hK hn hitem htx ho htransfer
  | share htx ho hshare => exact hu.share hK hn hitem htx ho hshare
  | grant htx hupdate =>
    have ht := updateShareGrant_touches hupdate
    exact (hu.other ht (by decide) (hu.wf.updateShareGrant hupdate)).note hK
      (by rwa [ht.committed]) (by rw [htx]; rfl) (by rw [htx]; rfl) (by rw [htx]; trivial)
  | swap htx hupdate =>
    have ht := updateShareSwap_touches hupdate
    exact (hu.other ht (by decide) (hu.wf.updateShareSwap hupdate)).note hK
      (by rwa [ht.committed]) (by rw [htx]; rfl) (by rw [htx]; rfl) (by rw [htx]; trivial)

end Step

/-! ## Progress -/

section Progress

variable {env : Env} {K : Set Bytes} {n : UInt64} {a : Access} {item : Txn}

end Progress

/-! ## The whole block -/

section Block

variable {env : Env} {K : Set Bytes} {n : UInt64} {a a' : Access} {items : List Txn}

/-- **The update loop** keeps the ledger. -/
theorem Updating.appliedAll (hu : Updating env K n a) (hK : Set.InjOn env.newDigest K) (hn : 1 ≤ n)
    (hitems : ∀ item ∈ items, Admitted env K a.committed item)
    (h : AppliedAll env n a items a') : Updating env K n a' := by
  induction h with
  | nil a => exact hu
  | cons h _ ih =>
    have hitem := List.forall_mem_cons.mp hitems
    refine ih (hu.applied hK hn hitem.1 h) fun x hx => ?_
    rw [h.touches.committed]
    exact hitem.2 x hx

/-- A base or foundation record is never stored by the loop. -/
theorem AppliedAll.not_foundation (h : AppliedAll env n a items a') :
    ∀ item ∈ items, ¬ item.unpacked.IsFoundation := by
  induction h with
  | nil => simp
  | cons h _ ih =>
    refine List.forall_mem_cons.mpr ⟨fun hf => ?_, ih⟩
    cases h with
    | assetKnown hitem | asset hitem | issueKnown hitem | issue hitem | blockOwner hitem
    | share hitem | grant hitem | swap hitem =>
      rw [hitem] at hf
      exact hf
    | transfer hitem =>
      obtain ⟨-, -, hstored, -⟩ := Transaction.of_transfer? hitem
      exact hstored.not_foundation hf

/-- What the first transactions of a block determine: the first is stored as the foundation of the
block, with its owner. -/
structure FoundationOf (env : Env) (txs : List Txn) (f : Foundation) : Prop where
  record : ∃ tx len, txs.head?.map Txn.unpacked = some tx ∧
    unpack env f.packedFoundation env.isTesting = .ok (tx, len) ∧ tx.IsFoundation ∧
    tx.holder? = some f.blockOwner
  owner : blockOwnerOf none (txs.map Txn.record) = some f.blockOwner
  first : ∀ item ∈ txs.take f.txStart, item.unpacked.IsFoundation

theorem extractFoundation_eq_ok {txs : List Txn} {f : Foundation}
    (hrec : ∀ item ∈ txs, IsRecord env item.packed item.unpacked)
    (h : extractFoundation env txs = .ok f) : FoundationOf env txs f := by
  have hkeep (o : Account) (rs : List (Bytes × Transaction)) :
      blockOwnerOf (some o) rs = some o := by
    induction rs with
    | nil => rfl
    | cons r rs ih => exact ih
  unfold extractFoundation at h
  split at h
  · simp at h
  next first rest =>
    have hfirst := hrec first List.mem_cons_self
    have howner (o : Account) (ho : first.unpacked.blockOwner? = some o) :
        blockOwnerOf none ((first :: rest).map Txn.record) = some o := by
      rw [List.map_cons, blockOwnerOf, List.foldl_cons, Txn.record, ho]
      exact hkeep o _
    split at h
    next tx htx =>
      obtain ⟨⟨⟩, -, h⟩ := bind_eq_ok.mp h
      obtain ⟨packedPayments, -, h⟩ := bind_eq_ok.mp h
      cases h
      rw [htx] at hfirst
      exact ⟨⟨_, _, by simp [htx], hfirst, trivial, rfl⟩, howner _ (by rw [htx]; rfl),
        by simp [htx, Transaction.IsFoundation]⟩
    next tx htx =>
      obtain ⟨⟨⟩, -, h⟩ := bind_eq_ok.mp h
      rw [htx] at hfirst
      have howner := howner tx.owner (by rw [htx]; rfl)
      split at h
      · simp at h
      next second rest =>
        split at h
        next tx1 htx1 =>
          obtain ⟨packedPayments, -, h⟩ := bind_eq_ok.mp h
          cases h
          refine ⟨⟨_, _, by simp [htx], hfirst.unpack_append _, trivial, rfl⟩, howner, ?_⟩
          simp [htx, htx1, Transaction.IsFoundation]
        next =>
          obtain ⟨packedPayments, -, h⟩ := bind_eq_ok.mp h
          cases h
          exact ⟨⟨_, _, by simp [htx], hfirst, trivial, rfl⟩, howner,
            by simp [htx, Transaction.IsFoundation]⟩
    next => simp at h

/-- The foundation of the block is a new record with an owner. -/
theorem Updating.foundation (hu : Updating env K n a) {header : Header} {digest : BlockDigest}
    {f : Foundation} {tx : Transaction} {len : Nat} (hnum : header.number = n)
    (hmem : foundationBytes n digest ∈ K)
    (hnew : a.pending.record env (foundationTxId env n digest) = none)
    (hunpack : unpack env f.packedFoundation env.isTesting = .ok (tx, len))
    (hfound : tx.IsFoundation) (hholder : tx.holder? = some f.blockOwner)
    (h : updateFoundation env header digest f a = .ok a') : Updating env K n a' := by
  subst hnum
  have ht := create_touches h
  have hrecord (t : Digest) : a'.pending.record env t =
      if t = foundationTxId env header.number digest then some (header.number.toNat, tx)
      else a.pending.record env t := by
    rw [ht.record_eq (by decide)]
    have hledger := congrArg Ledger.entry
      (ledger_storeRecord (a := a.poolPut .blockOwnerPayment (be64 header.number) f.packedPayments)
        (t := foundationTxId env header.number digest) (n := header.number) hunpack)
    rw [ledger_poolPut (by decide)] at hledger
    refine Eq.trans ?_ ((congrFun hledger t).trans Ledger.entry_addEntry)
    have hindex (a : Access) (k b : Bytes) : Touches [.blockOwnerTxIndex] a
        (a.poolPut .blockOwnerTxIndex k b) := .poolPut _ _ (by decide)
    rw [(hindex _ _ _).record_eq (by decide)]
    rfl
  constructor
  · rw [ht.committed]
    exact hu.wf₀
  · refine WellFormed.create ?_ h
    refine ((hu.wf.poolPut ?_).poolPut ?_).poolPut ?_
    · trivial
    · exact ⟨_, header.number, f.packedFoundation, tx, rfl, rfl,
        .foundation hmem rfl hunpack hfound⟩
    · exact ⟨_, header.number, rfl, rfl⟩
  · rw [ht.committed, ledger_create h, ledger_poolPut (by decide), ledger_storeRecord hunpack,
      ledger_poolPut (by decide)]
    refine hu.storing.issue hnew ?_ hholder ⟨rfl, rfl, ?_⟩ ?_
    · show tx.link? = none
      cases tx <;> simp_all [Transaction.IsFoundation, Transaction.link?]
    · cases tx <;> simp_all [Transaction.IsFoundation]
    · show OwnedItem.IsShare _ ↔ tx.IsShare
      cases tx <;> simp_all [Transaction.IsFoundation, Transaction.IsShare, OwnedItem.IsShare]
  · rw [ht.committed]
    exact hu.indexed₀
  · refine hu.indexed.mono (fun t hs => ?_) fun t b r hr => ?_
    · rw [ht.pending _ (by decide)] at hs
      simp only [pending_poolPut, true_and, reduceCtorEq, false_and, if_false,
        FixedBytes.bytes_inj, Access.poolPutNB] at hs
      split at hs
      next hid =>
        refine Or.inr ⟨_, tx, by rw [hrecord, if_pos hid.symm], ?_⟩
        cases tx <;> simp_all [Transaction.IsFoundation, Transaction.IsBlockRecord]
      next => exact Or.inl hs
    · rw [hrecord]
      split
      next hid =>
        rw [hid, hnew] at hr
        cases hr
      next => exact ⟨b, hr⟩

/-- Before the first update. -/
theorem Sound.begin {h : ℕ} (hs : Sound env K a.committed h) (hclean : a.Clean)
    (hn : n.toNat = h + 1) : Updating env K n a.begin := by
  have hpending : Access.pending a.begin = a.committed := by
    rw [pending_begin, Access.pending_of_clean hclean]
  constructor
  · exact hs.wf
  · rw [hpending]
    exact hs.wf
  · rw [hpending, hn]
    exact .start hs.inv fun hentry => Nat.lt_succ_of_le (hs.bound hentry)
  · exact hs.indexed
  · rw [hpending]
    exact hs.indexed

/-- After the last one. -/
theorem Updating.sound (hu : Updating env K n a) : Sound env K a.pending n.toNat :=
  ⟨hu.wf, hu.storing.inv, hu.storing.le_number, hu.indexed⟩

end Block

/-! ## StoreIncoming -/

section Store

variable {env : Env} {K : Set Bytes} {now : UInt64} {packedBlock : Bytes}
  {packedNextBlock : Option Bytes} {node : Node} {i : Incoming} {a : Access}

/-- The transactions of an accepted block are admitted. -/
theorem Accepted.admitted (hacc : Accepted env now packedBlock packedNextBlock node i)
    (hclean : node.access.Clean)
    (hmem : ∀ s ∈ (Op.storeIncoming now packedBlock packedNextBlock).hashed env, s ∈ K) {item : Txn}
    (hitem : item ∈ i.txs) : Admitted env K node.access.committed item := by
  obtain ⟨la, hv⟩ := hacc.validItem hitem
  rw [Access.view_of_clean hclean] at hv
  exact ⟨hmem _ (hacc.packed_mem_hashed hitem), _, la, hv⟩

theorem Accepted.isRecord (hacc : Accepted env now packedBlock packedNextBlock node i) {item : Txn}
    (hitem : item ∈ i.txs) : IsRecord env item.packed item.unpacked := by
  obtain ⟨la, hv⟩ := hacc.validItem hitem
  exact hv.isRecord

theorem Accepted.foundationOf (hacc : Accepted env now packedBlock packedNextBlock node i) :
    FoundationOf env i.txs i.foundation :=
  extractFoundation_eq_ok (fun _ hitem => hacc.isRecord hitem)
    (validateBlock_eq_ok hacc.validate).2.2.1

/-- The foundation of the next block is not stored yet. -/
theorem Sound.foundation_new {h : ℕ} (hs : Sound env K node.access.committed h)
    (hK : Set.InjOn env.newDigest K) {n : UInt64} (hn : n.toNat = h + 1) {v : View}
    (hwf : WellFormed env K v) {items : List Txn}
    (hadded : RecordsAdded node.access.committed v n items)
    (hrec : ∀ item ∈ items, IsRecord env item.packed item.unpacked) {digest : BlockDigest}
    (hmem : foundationBytes n digest ∈ K) : v.record env (foundationTxId env n digest) = none := by
  rcases hr : v.record env (foundationTxId env n digest) with _ | ⟨b, r⟩
  · rfl
  obtain ⟨m, packed, hget, -, hstored⟩ := hwf.record_eq_some.mp hr
  obtain ⟨rfl, hfound⟩ := hstored.of_foundationTxId hK hmem rfl
  rcases hadded.new hget with hold | ⟨item, hitem, hst, -, heq⟩
  · -- an old record has the number of an old block
    obtain ⟨t', m', packed', tx', hk, hb, hstored'⟩ := hs.wf hold
    obtain rfl := FixedBytes.bytes_inj.mp hk
    obtain ⟨hm, rfl⟩ := List.append_inj hb (by simp)
    obtain rfl := be64_inj.mp hm
    have := hs.bound (hs.wf.record_eq_some.mpr ⟨m, packed, hold, rfl, hstored'⟩)
    omega
  · -- a record of the block is no foundation
    obtain ⟨-, rfl⟩ := List.append_inj heq (by simp)
    obtain ⟨len, hunpack⟩ := hstored.unpack_eq
    have heq := (Prod.mk.inj (Except.ok.inj (hunpack.symm.trans (hrec item hitem)))).1
    subst heq
    exact absurd hfound hst.not_foundation

/-- A block is stored on a sound node: every stage goes through. -/
structure StoresBlock (env : Env) (K : Set Bytes) (now : UInt64) (packedBlock : Bytes)
    (packedNextBlock : Option Bytes) (node : Node) (i : Incoming) (a : Access) : Prop where
  injOn : Set.InjOn env.newDigest K
  onChain : node.OnChain env
  sound : Sound env K node.access.committed node.header.height.toNat
  hashed : ∀ s ∈ (Op.storeIncoming now packedBlock packedNextBlock).hashed env, s ∈ K
  accepted : Accepted env now packedBlock packedNextBlock node i
  update : updateBlock env node.header.height node.rebuild packedBlock i.header i.digest i.txs
    i.foundation node.access.begin = .ok a

namespace StoresBlock

variable (h : StoresBlock env K now packedBlock packedNextBlock node i a)

include h

theorem number : i.header.number = node.header.height + 1 :=
  (h.onChain.store h.accepted h.update).1

theorem toNat_number : i.header.number.toNat = node.header.height.toNat + 1 := by
  rw [h.number, (h.onChain.store h.accepted h.update).2.1]

theorem pushes : Pushes node.access.committed (node.stored i a).access.committed i.header.number
    packedBlock i.digest :=
  (h.onChain.store h.accepted h.update).2.2.1

theorem one_le : 1 ≤ i.header.number := (extractIncoming_eq_ok h.accepted.extract).2.1.one_le

theorem admitted {item : Txn} (hitem : item ∈ i.txs) :
    Admitted env K node.access.committed item :=
  h.accepted.admitted h.onChain.clean h.hashed hitem

theorem admitted_items : ∀ item ∈ i.items, Admitted env K node.access.committed item :=
  fun _ hitem => h.admitted (Incoming.mem_txs hitem)

theorem foundationBytes_mem : foundationBytes i.header.number i.digest ∈ K :=
  h.hashed _ (h.accepted.foundation_mem_hashed h.onChain h.number)

/-- Before the first update. -/
theorem begin : Updating env K i.header.number node.access.begin :=
  h.sound.begin h.onChain.clean h.toNat_number

/-- **Storing a block** keeps the ledger sound. -/
theorem updating : Updating env K i.header.number a := by
  obtain ⟨a₁, a₂, happlied, hfoundation, -, ha⟩ := updateBlock_eq_ok h.update
  have hu₁ := h.begin.appliedAll h.injOn h.one_le h.admitted_items happlied
  have hadded := happlied.recordsAdded
  rw [pending_begin, Access.pending_of_clean h.onChain.clean] at hadded
  obtain ⟨tx, len, -, hunpack, hfound, hholder⟩ := h.accepted.foundationOf.record
  have hnew := h.sound.foundation_new h.injOn h.toNat_number hu₁.wf hadded
    (fun item hitem => (h.admitted_items item hitem).isRecord) h.foundationBytes_mem
  have hu₂ := hu₁.foundation rfl h.foundationBytes_mem hnew hunpack hfound hholder hfoundation
  rw [ha, h.onChain.rebuild]
  have ht := storeBlock_touches a₂ (be64 i.header.number) packedBlock i.digest.bytes
  refine hu₂.other ht (by decide) ((hu₂.wf.poolPut ?_).poolPut ?_)
  · trivial
  · trivial

theorem committed : a.committed = node.access.committed := by
  obtain ⟨a₁, a₂, happlied, hfoundation, -, ha⟩ := updateBlock_eq_ok h.update
  rw [ha, h.onChain.rebuild]
  exact (updateFoundation_touches hfoundation).committed.trans happlied.touches.committed

/-- A stored record stays, and keeps its block number if it has a link. -/
theorem record_keep {t : Digest} {b : ℕ} {r : Transaction}
    (hr : node.access.committed.record env t = some (b, r)) :
    ∃ b', (node.stored i a).access.committed.record env t = some (b', r) ∧
      (r.link? ≠ none → b' = b) := by
  rw [← h.committed] at hr
  obtain ⟨b', hr', hb'⟩ := h.updating.storing.keep _ _ _ hr
  exact ⟨b', (congrArg (View.record env · t) (committed_commit a)).trans hr',
    fun hl => hb' (.inr hl)⟩

theorem wf : WellFormed env K (node.stored i a).access.committed := by
  rw [show (node.stored i a).access.committed = a.pending from committed_commit a]
  exact h.updating.wf

/-- A record of the block that is always written is there afterwards. -/
theorem record_item {item : Txn} (hitem : item ∈ i.items) (hrewritten : item.unpacked.Rewritten) :
    ∃ b, (node.stored i a).access.committed.record env item.txId = some (b, item.unpacked) := by
  obtain ⟨v, hadded, hfoundation⟩ := updateBlock_recordsAdded h.onChain.clean h.update
  have hsome : ((node.stored i a).access.committed.get .transactions item.txId.bytes).isSome := by
    rw [hfoundation]
    split
    · rfl
    · exact hadded.rewritten item hitem hrewritten
  rcases hr : (node.stored i a).access.committed.record env item.txId with _ | ⟨b, r⟩
  · rw [h.wf.record_eq_none.mp hr] at hsome
    cases hsome
  · exact ⟨b, by rw [(h.admitted_items item hitem).same h.injOn h.wf hr]⟩

end StoresBlock

end Store

end Bitmarkd
