import Bitmarkd.Ledger.Contents

/-!
# The ledger when blocks are deleted

Deleting a block undoes its records from first to last, each in a database transaction of its own,
and then its foundation. In between, the records of the block that are still there are not settled:
`Undoing` is the ledger invariant with the block's number as the bound.

Every record takes itself out of `Transactions` (`Undoing.unapplied`), so at the end nothing of the
block is left and the ledger is sound for the block before (`Sound.deleteBlock`).
-/

namespace Bitmarkd

open Lib Lib.Provenance

/-- The ledger in the middle of deleting block `m`. -/
structure Undoing (env : Env) (K : Set Bytes) (v : View) (m : ℕ) : Prop where
  wf : WellFormed env K v
  inv : ownershipScheme.Inv (v.ledger env) m
  bound : ∀ {t b r}, v.record env t = some (b, r) → b ≤ m
  indexed : Indexed env v

/-- A record that block `m` lists. If it has a link and is stored, it is stored for this block. -/
structure Listed (env : Env) (K : Set Bytes) (v : View) (m : ℕ) (packed : Bytes)
    (tx : Transaction) : Prop where
  isRecord : IsRecord env packed tx
  mem : packed ∈ K
  length : 64 ≤ packed.length
  block : ∀ {b r}, tx.link? ≠ none → v.record env (env.newDigest packed) = some (b, r) → b = m

section Undo

variable {env : Env} {K : Set Bytes} {v v' : View} {m : ℕ} {packed : Bytes} {tx : Transaction}
  {a a₁ a' trx : Access} {link : Digest} {owner linkOwner : Account} {number : UInt64}

theorem Sound.undoing (hs : Sound env K v m) : Undoing env K v m :=
  ⟨hs.wf, hs.inv.mono (Nat.le_succ m), hs.bound, hs.indexed⟩

/-- Under the hash of a listed record there is that record, and it is of a stored type. -/
theorem Listed.same (hl : Listed env K v m packed tx) (hK : Set.InjOn env.newDigest K)
    (hwf : WellFormed env K v) {b : ℕ} {r : Transaction}
    (hr : v.record env (env.newDigest packed) = some (b, r)) : r = tx ∧ tx.IsStored := by
  obtain ⟨n, packed', -, -, hstored⟩ := hwf.record_eq_some.mp hr
  obtain ⟨rfl, rfl⟩ := hstored.unique hK hl.mem hl.length rfl hl.isRecord
  refine ⟨rfl, ?_⟩
  cases hstored with
  | record _ _ _ _ hst => exact hst
  | foundation hbytes ht _ _ =>
    have heq := congrArg List.length (hK hl.mem hbytes ht)
    have hlen := hl.length
    simp only [foundationBytes, List.length_append, length_le64, FixedBytes.length_bytes] at heq
    omega

/-- What a transfer finds, right after the start of a database transaction. -/
theorem transfer_reads {u t : Digest} {n : UInt64} {o : Account} {new : Option Account}
    {ps : List Pool} (hclean : a.Clean) (ht : Touches ps a.begin a₁)
    (hps : ∀ p ∈ ownershipPools, p ∉ ps) (h : transferOwnership a₁ u t n o new = .ok a') :
    currentlyOwns a.committed o u = true ∧
      ∃ d, getOwnerData a₁.view u = .ok d ∧ a.committed.head u = some d := by
  have hview {p : Pool} (hp : p ∈ ownershipPools) (k : Bytes) :
      a₁.view.get p k = a.committed.get p k := by
    rw [ht.view k (hps p hp), view_begin, Access.view_of_clean hclean]
  obtain ⟨dCount, d, hidx, hd, -⟩ := transfer_eq_ok h
  refine ⟨?_, d, hd, ?_⟩
  · rw [hview (by decide)] at hidx
    simp [currentlyOwns, View.has, hidx]
  · rw [View.head_eq_some, ← hd, getOwnerData, getOwnerData, hview (by decide)]

/-- A deletion right after the start of a database transaction does not show in what is read. -/
theorem view_poolRemove_of_clean (hclean : a.Clean) (p : Pool) (k : Bytes) :
    Access.view (Access.poolRemove a.begin p k) = a.committed := by
  funext key
  have hget := Overlay.get_delete a.begin (prefixKey p k) key
  rw [Access.view, Access.poolRemove, hget]
  split
  next heq => rw [← heq]; rfl
  next => exact congrFun (Access.view_of_clean hclean) key

/-- The record is gone, and with it its part of the ledger. -/
theorem Undoing.removed (hu : Undoing env K v m) (hK : Set.InjOn env.newDigest K)
    (hl : Listed env K v m packed tx) (hwf : WellFormed env K v')
    (hinv : ownershipScheme.Inv (v'.ledger env) m)
    (hrecord : ∀ t, v'.record env t = if t = env.newDigest packed then none else v.record env t)
    (hindex : ∀ t : Digest, (v'.get .blockOwnerTxIndex t.bytes).isSome →
      (tx.IsBlockRecord → t ≠ env.newDigest packed) ∧
        ((v.get .blockOwnerTxIndex t.bytes).isSome ∨
          t ≠ env.newDigest packed ∧ ∃ b r, v.record env t = some (b, r) ∧ r.IsBlockRecord)) :
    Undoing env K v' m := by
  refine ⟨hwf, hinv, fun {t b r} hr => ?_, fun t ht => ?_⟩
  · rw [hrecord] at hr
    split at hr
    · cases hr
    · exact hu.bound hr
  · obtain ⟨hne, hcases⟩ := hindex t ht
    rcases hcases with hold | ⟨hid, b, r, hr, hblock⟩
    · obtain ⟨b, r, hr, hblock⟩ := hu.indexed hold
      have hid : t ≠ env.newDigest packed := by
        rintro rfl
        obtain ⟨rfl, -⟩ := hl.same hK hu.wf hr
        exact hne hblock rfl
      exact ⟨b, r, by rw [hrecord, if_neg hid, hr], hblock⟩
    · exact ⟨b, r, by rw [hrecord, if_neg hid, hr], hblock⟩

/-- The record was not there, and the ledger stays. -/
theorem Undoing.unchanged (hu : Undoing env K v m)
    (hnone : v.record env (env.newDigest packed) = none) (hwf : WellFormed env K v')
    (hledger : v'.ledger env = v.ledger env)
    (hindex : ∀ t : Digest, v'.get .blockOwnerTxIndex t.bytes = v.get .blockOwnerTxIndex t.bytes) :
    Undoing env K v' m ∧
      ∀ t, v'.record env t = if t = env.newDigest packed then none else v.record env t := by
  have hrecord (t : Digest) : v'.record env t = v.record env t :=
    congrFun (congrArg Ledger.entry hledger) t
  refine ⟨⟨hwf, hledger ▸ hu.inv, fun hr => hu.bound (hrecord _ ▸ hr), fun t ht => ?_⟩, fun t => ?_⟩
  · rw [hindex] at ht
    obtain ⟨b, r, hr, hblock⟩ := hu.indexed ht
    exact ⟨b, r, by rw [hrecord, hr], hblock⟩
  · rw [hrecord]
    split
    next heq => rw [heq, hnone]
    next => rfl

/-- The ledger after a record with a link gives its head back. -/
theorem Undoing.inv_unspend (hu : Undoing env K v m) (hK : Set.InjOn env.newDigest K)
    (hl : Listed env K v m packed tx) (hlink : tx.link? = some link)
    (hfound : ownerOf env v link = .ok (some (number, linkOwner)))
    (hown : currentlyOwns v owner (env.newDigest packed) = true) {d₀ d : OwnerData}
    (hd₀ : v.head (env.newDigest packed) = some d₀)
    (hfits : ∀ {s b r}, d₀.Fits s b r → d.Fits s b r) (hitem : ¬ d.item.IsShare) :
    ownershipScheme.Inv ((v.ledger env).unspend (env.newDigest packed) link d owner linkOwner) m ∧
      link ≠ env.newDigest packed ∧
      ∃ b r, v.record env link = some (b, r) ∧ (tx.IsBlockRecord → r.IsBlockRecord) := by
  obtain ⟨rl, hel, howner⟩ := hu.wf.ownerOf_eq_some.mp hfound
  obtain ⟨b, r, he, -⟩ := hu.inv.head_entry hd₀
  obtain ⟨rfl, -⟩ := hl.same hK hu.wf he
  obtain rfl := hl.block (by rw [hlink]; simp) he
  obtain ⟨hlt, -, hblock⟩ := hu.inv.linked_lt he hlink hel
  refine ⟨hu.inv.unspend hu.bound he hlink hd₀ hown hel (Transaction.holder?_of_owner? howner)
    hfits (iff_of_false hitem (Transaction.not_isShare_of_owner? howner)), ?_, _, rl, hel, hblock⟩
  rintro rfl
  have heq := (Prod.mk.inj (Option.some.inj (he.symm.trans hel))).1
  omega

/-- A share goes back to a bitmark. -/
theorem OwnerData.Fits.unshare {d : OwnerData} {s : Digest} {b : ℕ} {r : Transaction}
    (h : d.Fits s b r) (n : UInt64) {assetId : AssetIdentifier} (hd : d.item = .share assetId) :
    ({ d with transferBlockNumber := n, item := .asset assetId } : OwnerData).Fits s b r := by
  obtain ⟨hid, hnum, hitem⟩ := h
  refine ⟨hid, hnum, ?_⟩
  cases r <;> simp_all

/-- The record is deleted first. -/
theorem ledger_poolRemove_begin (hclean : a.Clean) (id : Digest) :
    (Access.poolRemove a.begin .transactions id.bytes).pending.ledger env =
      (a.committed.ledger env).removeEntry id := by
  rw [ledger_removeRecord, pending_begin, Access.pending_of_clean hclean]

/-- The pending records after that and writes to other pools. -/
theorem record_removed (env : Env) {ps : List Pool} {id : Digest} (hclean : a.Clean)
    (ht : Touches ps (Access.poolRemove a.begin .transactions id.bytes) a')
    (hps : Pool.transactions ∉ ps) (t : Digest) :
    a'.pending.record env t = if t = id then none else a.committed.record env t := by
  rw [ht.record_eq hps]
  exact (congrFun (congrArg Ledger.entry (ledger_poolRemove_begin hclean id)) t).trans
    Ledger.entry_removeEntry

/-- The index of block owners, in a database transaction that does not touch it. -/
theorem index_of_touches {ps : List Pool} (hclean : a.Clean) (ht : Touches ps a.begin a')
    (hps : Pool.blockOwnerTxIndex ∉ ps) (k : Bytes) :
    a'.pending.get .blockOwnerTxIndex k = a.committed.get .blockOwnerTxIndex k := by
  rw [ht.pending k hps, pending_begin, Access.pending_of_clean hclean]

theorem WellFormed.removeRecord (hwf : WellFormed env K a.committed) (hclean : a.Clean)
    (id : Digest) :
    WellFormed env K (Access.poolRemove a.begin .transactions id.bytes).pending := by
  refine WellFormed.poolRemove ?_
  rw [pending_begin, Access.pending_of_clean hclean]
  exact hwf

/-! ### The cases -/

/-- An issue loses its head. -/
theorem Undoing.issue (hu : Undoing env K a.committed m) (hK : Set.InjOn env.newDigest K)
    (hclean : a.Clean) (hl : Listed env K a.committed m packed tx) {r : BitmarkIssue}
    (htx : tx = .bitmarkIssue r)
    (h : transferOwnership (Access.poolRemove a.begin .transactions (env.newDigest packed).bytes)
      (env.newDigest packed) (env.newDigest packed) 0 r.owner none = .ok trx) :
    Undoing env K trx.pending m ∧ ∀ t, trx.pending.record env t =
      if t = env.newDigest packed then none else a.committed.record env t := by
  have ht : Touches [.transactions] a.begin
      (Access.poolRemove a.begin .transactions (env.newDigest packed).bytes) :=
    .poolRemove _ (by decide)
  obtain ⟨hown, d, -, hd⟩ := transfer_reads hclean ht (by decide) h
  have htouch := transferOwnership_touches h
  have hrecord := record_removed env hclean htouch (by decide)
  refine ⟨hu.removed hK hl ((hu.wf.removeRecord hclean _).transfer h) ?_ hrecord fun t hs => ?_,
    hrecord⟩
  · rw [ledger_transferOwnership_none h, ledger_poolRemove_begin hclean]
    exact hu.inv.unissue hu.bound hown (hu.inv.notSettledLink_of_head hd)
  · have hidx := index_of_touches hclean (ht.mono
      (List.subset_append_left _ ownershipPools) |>.trans
      (htouch.mono (List.subset_append_right _ _))) (by decide) t.bytes
    rw [hidx] at hs
    exact ⟨fun hc => by rw [htx] at hc; exact hc.elim, Or.inl hs⟩

/-- A transfer gives its head back. -/
theorem Undoing.transfer (hu : Undoing env K a.committed m) (hK : Set.InjOn env.newDigest K)
    (hclean : a.Clean) (hl : Listed env K a.committed m packed tx) (hlink : tx.link? = some link)
    (hshare : ¬ tx.IsShare)
    (hfound : ownerOf env (Access.poolRemove a.begin .transactions
      (env.newDigest packed).bytes).view link = .ok (some (number, linkOwner)))
    (h : transferOwnership (Access.poolRemove a.begin .transactions (env.newDigest packed).bytes)
      (env.newDigest packed) link number owner (some linkOwner) = .ok trx) :
    ownershipScheme.Inv (trx.pending.ledger env) m ∧ WellFormed env K trx.pending ∧
      (∀ t, trx.pending.record env t =
        if t = env.newDigest packed then none else a.committed.record env t) ∧
      link ≠ env.newDigest packed ∧
      ∃ b r, a.committed.record env link = some (b, r) ∧ (tx.IsBlockRecord → r.IsBlockRecord) := by
  have ht : Touches [.transactions] a.begin
      (Access.poolRemove a.begin .transactions (env.newDigest packed).bytes) :=
    .poolRemove _ (by decide)
  obtain ⟨hown, d, hd, hhead⟩ := transfer_reads hclean ht (by decide) h
  rw [view_poolRemove_of_clean hclean] at hfound
  -- the record is no share, so neither is its head
  obtain ⟨b, r, he, -⟩ := hu.inv.head_entry hhead
  obtain ⟨rfl, -⟩ := hl.same hK hu.wf he
  have hitem : ¬ d.item.IsShare := fun hc => hshare ((hu.inv.suited hhead he).mp hc)
  obtain ⟨hinv, hne, hblock⟩ := hu.inv_unspend hK hl hlink hfound hown hhead
    (fun hf => hf.transfer number) hitem
  refine ⟨?_, (hu.wf.removeRecord hclean _).transfer h,
    record_removed env hclean (transferOwnership_touches h) (by decide), hne, hblock⟩
  rw [ledger_transferOwnership hd hitem h, ledger_poolRemove_begin hclean]
  exact hinv

/-- A block owner transfer also gives the index back. -/
theorem Undoing.blockOwner (hu : Undoing env K a.committed m) (hK : Set.InjOn env.newDigest K)
    (hclean : a.Clean) (hl : Listed env K a.committed m packed tx) {r : BlockOwnerTransfer}
    {n : UInt64} {packedPayments : Bytes} (htx : tx = .blockOwnerTransfer r)
    (hfound : ownerOf env (Access.poolRemove a.begin .transactions
      (env.newDigest packed).bytes).view r.link = .ok (some (number, linkOwner)))
    (h : transferOwnership (Access.poolRemove a.begin .transactions (env.newDigest packed).bytes)
      (env.newDigest packed) r.link number r.owner (some linkOwner) = .ok trx) :
    Undoing env K (((trx.poolPut .blockOwnerPayment (be64 n) packedPayments).poolPut
        .blockOwnerTxIndex r.link.bytes (be64 n)).poolRemove .blockOwnerTxIndex
        (env.newDigest packed).bytes).pending m ∧
      ∀ t, (((trx.poolPut .blockOwnerPayment (be64 n) packedPayments).poolPut
        .blockOwnerTxIndex r.link.bytes (be64 n)).poolRemove .blockOwnerTxIndex
        (env.newDigest packed).bytes).pending.record env t =
        if t = env.newDigest packed then none else a.committed.record env t := by
  obtain ⟨hinv, hwf, hrecord, hne, b, rl, hel, hblock⟩ :=
    hu.transfer hK hclean hl (by rw [htx]; rfl) (by rw [htx]; exact id) hfound h
  have hput : Touches [.blockOwnerPayment, .blockOwnerTxIndex] trx
      (((trx.poolPut .blockOwnerPayment (be64 n) packedPayments).poolPut
        .blockOwnerTxIndex r.link.bytes (be64 n)).poolRemove .blockOwnerTxIndex
        (env.newDigest packed).bytes) :=
    ((Touches.poolPut _ _ (by decide)).trans (.poolPut _ _ (by decide))).trans
      (.poolRemove _ (by decide))
  have hrecord' (t : Digest) : View.record env _ t = _ :=
    (congrFun (hput.record_eq (by decide)) t).trans (hrecord t)
  refine ⟨hu.removed hK hl ?_ ?_ hrecord' fun t hs => ?_, hrecord'⟩
  · refine ((hwf.poolPut ?_).poolPut ?_).poolRemove
    · trivial
    · exact ⟨r.link, n, rfl, rfl⟩
  · rw [ledger_poolRemove (by decide), ledger_poolPut (by decide), ledger_poolPut (by decide)]
    exact hinv
  · have hold : trx.pending.get .blockOwnerTxIndex t.bytes =
        a.committed.get .blockOwnerTxIndex t.bytes := by
      rw [(transferOwnership_touches h).pending _ (by decide), pending_poolRemove, if_neg (by simp),
        pending_begin, Access.pending_of_clean hclean]
    simp only [pending_poolRemove, pending_poolPut, true_and, reduceCtorEq, false_and, if_false,
      FixedBytes.bytes_inj, hold] at hs
    split at hs
    · cases hs
    next hid =>
      refine ⟨fun _ => Ne.symm hid, ?_⟩
      split at hs
      next heq =>
        subst heq
        exact Or.inr ⟨hne, b, rl, hel, hblock (by rw [htx]; trivial)⟩
      next => exact Or.inl hs

/-- A share becomes a bitmark again. -/
theorem Undoing.share (hu : Undoing env K a.committed m) (hK : Set.InjOn env.newDigest K)
    (hclean : a.Clean) (hl : Listed env K a.committed m packed tx) {r : BitmarkShare}
    {d : OwnerData} {assetId : AssetIdentifier} (htx : tx = .bitmarkShare r)
    (hfound : ownerOf env (Access.view a.begin) r.link = .ok (some (number, linkOwner)))
    (hd : getOwnerData (Access.view a.begin) (env.newDigest packed) = .ok d)
    (hitem : d.item = .share assetId)
    (h : transferOwnership (((Access.poolRemove a.begin .transactions
        (env.newDigest packed).bytes).poolRemove .shares d.issueTxId.bytes).poolRemove
        .shareQuantity (ownerKey linkOwner d.issueTxId)) (env.newDigest packed) r.link number
        linkOwner (some linkOwner) = .ok trx) :
    Undoing env K trx.pending m ∧ ∀ t, trx.pending.record env t =
      if t = env.newDigest packed then none else a.committed.record env t := by
  have hremove : Touches [.shares, .shareQuantity]
      (Access.poolRemove a.begin .transactions (env.newDigest packed).bytes)
      (((Access.poolRemove a.begin .transactions (env.newDigest packed).bytes).poolRemove .shares
        d.issueTxId.bytes).poolRemove .shareQuantity (ownerKey linkOwner d.issueTxId)) :=
    (Touches.poolRemove _ (by decide)).trans (.poolRemove _ (by decide))
  have hfirst : Touches [.transactions] a.begin
      (Access.poolRemove a.begin .transactions (env.newDigest packed).bytes) :=
    .poolRemove _ (by decide)
  have ht : Touches [.transactions, .shares, .shareQuantity] a.begin _ :=
    (hfirst.mono (by decide)).trans (hremove.mono (by decide))
  obtain ⟨hown, d', hd', hhead⟩ := transfer_reads hclean ht (by decide) h
  rw [view_begin, Access.view_of_clean hclean] at hfound hd
  obtain rfl := Option.some.inj ((View.head_eq_some.mpr hd).symm.trans hhead)
  have hitem' : ¬ ({ d with transferBlockNumber := number, item := .asset assetId } :
      OwnerData).item.IsShare := id
  obtain ⟨hinv, -⟩ := hu.inv_unspend hK hl (by rw [htx]; rfl) hfound hown hhead
    (fun hf => hf.unshare number hitem) hitem'
  have htouch := transferOwnership_touches h
  have hall := (hremove.mono (List.subset_append_left _ ownershipPools)).trans
    (htouch.mono (List.subset_append_right _ _))
  have hrecord := record_removed env hclean hall (by decide)
  refine ⟨hu.removed hK hl ?_ ?_ hrecord fun t hs => ?_, hrecord⟩
  · exact (((hu.wf.removeRecord hclean _).poolRemove).poolRemove).transfer h
  · rw [ledger_transferOwnership_share hd' hitem h, ledger_poolRemove (by decide),
      ledger_poolRemove (by decide), ledger_poolRemove_begin hclean]
    exact hinv
  · rw [hall.pending _ (by decide), pending_poolRemove, if_neg (by simp), pending_begin,
      Access.pending_of_clean hclean] at hs
    exact ⟨fun hc => by rw [htx] at hc; exact hc.elim, Or.inl hs⟩

/-- A grant or swap has no head. -/
theorem Undoing.move (hu : Undoing env K a.committed m) (hK : Set.InjOn env.newDigest K)
    (hclean : a.Clean) (hl : Listed env K a.committed m packed tx) (hlink : tx.link? = none)
    (hholder : tx.holder? = none) (hwf : WellFormed env K trx.pending)
    (ht : Touches [.shareQuantity]
      (Access.poolRemove a.begin .transactions (env.newDigest packed).bytes) trx) :
    Undoing env K trx.pending m ∧ ∀ t, trx.pending.record env t =
      if t = env.newDigest packed then none else a.committed.record env t := by
  have hrecord := record_removed env hclean ht (by decide)
  have hledger : trx.pending.ledger env =
      (a.committed.ledger env).removeEntry (env.newDigest packed) := by
    rw [← ledger_poolRemove_begin hclean]
    exact View.ledger_congr (fun t => ht.pending _ (by decide)) (fun t => ht.pending _ (by decide))
      fun o t => ht.pending _ (by decide)
  refine ⟨hu.removed hK hl hwf ?_ hrecord fun t hs => ?_, hrecord⟩
  · rw [hledger]
    refine hu.inv.unnote hu.bound fun {b r} hr => ?_
    obtain ⟨rfl, -⟩ := hl.same hK hu.wf hr
    exact not_or.mpr ⟨not_not.mpr hholder, not_not.mpr hlink⟩
  · rw [ht.pending _ (by decide), pending_poolRemove, if_neg (by simp), pending_begin,
      Access.pending_of_clean hclean] at hs
    refine ⟨fun hc => ?_, Or.inl hs⟩
    cases tx <;> simp_all [Transaction.IsBlockRecord, Transaction.link?, Transaction.holder?]

theorem Listed.record_eq_none (hl : Listed env K v m packed tx) (hK : Set.InjOn env.newDigest K)
    (hwf : WellFormed env K v) (hst : ¬ tx.IsStored) :
    v.record env (env.newDigest packed) = none := by
  rcases hr : v.record env (env.newDigest packed) with _ | ⟨b, r⟩
  · rfl
  · exact absurd (hl.same hK hwf hr).2 hst

/-- **Undoing a record** takes it out of the ledger, and nothing else. -/
theorem Undoing.unapplied (hu : Undoing env K a.committed m) (hK : Set.InjOn env.newDigest K)
    (hclean : a.Clean) (hl : Listed env K a.committed m packed tx)
    (h : Unapplied env a.begin (env.newDigest packed) tx trx) :
    Undoing env K trx.pending m ∧ ∀ t, trx.pending.record env t =
      if t = env.newDigest packed then none else a.committed.record env t := by
  have hbegin : Access.pending a.begin = a.committed := by
    rw [pending_begin, Access.pending_of_clean hclean]
  have hremove : WellFormed env K
      (Access.poolRemove a.begin .transactions (env.newDigest packed).bytes).pending :=
    hu.wf.removeRecord hclean _
  cases h with
  | foundation htx =>
    have hst : ¬ tx.IsStored := by
      cases tx <;> simp_all [Transaction.blockOwner?, Transaction.IsStored]
    refine hu.unchanged (hl.record_eq_none hK hu.wf hst) (hbegin ▸ hu.wf) ?_ fun t => ?_
    · rw [hbegin]
    · rw [hbegin]
  | @asset r htx =>
    have hst : ¬ tx.IsStored := by rw [htx]; exact id
    have ht : Touches [.assets] a.begin (Access.poolRemove a.begin .assets (r.assetId env).bytes) :=
      .poolRemove _ (by decide)
    refine hu.unchanged (hl.record_eq_none hK hu.wf hst) ?_ ?_
      fun t => index_of_touches hclean ht (by decide) _
    · refine WellFormed.poolRemove ?_
      rw [hbegin]
      exact hu.wf
    · rw [ledger_poolRemove (by decide), hbegin]
  | issueUnknown _ hnew =>
    have hnone : a.committed.record env (env.newDigest packed) = none := by
      rw [hu.wf.record_eq_none]
      rw [view_begin, Access.view_of_clean hclean] at hnew
      simpa [View.has] using hnew
    refine hu.unchanged hnone (hbegin ▸ hu.wf) ?_ fun t => ?_
    · rw [hbegin]
    · rw [hbegin]
  | issue htx _ htransfer => exact hu.issue hK hclean hl htx htransfer
  | transfer htx hfound htransfer =>
    obtain ⟨hlink, -, -, hshare, hblock⟩ := Transaction.of_transfer? htx
    obtain ⟨hinv, hwf, hrecord, -⟩ := hu.transfer hK hclean hl hlink hshare hfound htransfer
    refine ⟨hu.removed hK hl hwf hinv hrecord fun t hs => ?_, hrecord⟩
    rw [(transferOwnership_touches htransfer).pending _ (by decide), pending_poolRemove,
      if_neg (by simp), hbegin] at hs
    exact ⟨fun hc => absurd hc hblock, Or.inl hs⟩
  | blockOwner htx hfound _ _ htransfer _ =>
    exact hu.blockOwner hK hclean hl htx hfound htransfer
  | share htx hfound hd hitem htransfer => exact hu.share hK hclean hl htx hfound hd hitem htransfer
  | grant htx hundo =>
    refine hu.move hK hclean hl (by rw [htx]; rfl) (by rw [htx]; rfl) ?_
      (undoShareGrant_frame hundo)
    exact WellFormed.undoShareGrant (hbegin ▸ hu.wf) hundo
  | swap htx hundo =>
    refine hu.move hK hclean hl (by rw [htx]; rfl) (by rw [htx]; rfl) ?_ (undoShareSwap_frame hundo)
    exact WellFormed.undoShareSwap (hbegin ▸ hu.wf) hundo

end Undo

/-! ## The records of a block -/

section Records

variable {env : Env} {K : Set Bytes} {v v' : View} {m : ℕ} {n : UInt64} {d : BlockDigest}
  {rs : List (Bytes × Transaction)} {a a' : Access}

/-- The records that a stored block lists. -/
theorem Contents.listed (hc : Contents env K v m) (hat : BlockAt env v n d rs) (hn : n.toNat = m)
    {x : Bytes × Transaction} (hx : x ∈ rs) : Listed env K v m x.1 x.2 := by
  obtain ⟨b, hb, hrs⟩ := hat.block
  obtain ⟨d', rs', hat', hmem, -⟩ := hc.block hb
  obtain ⟨rfl, rfl⟩ := hat.unique hat'
  refine ⟨hrs.isRecord x hx, (hmem x hx).1, (hmem x hx).2, fun hlink hr => ?_⟩
  exact (hc.linkedAt hat hx hlink hr).trans hn

/-- Taking out a record of block `m` keeps the contents. -/
theorem Contents.removed (hc : Contents env K v m) (hK : Set.InjOn env.newDigest K)
    (hwf : WellFormed env K v) {packed : Bytes} {tx : Transaction}
    (hl : Listed env K v m packed tx)
    (hsame : ∀ k, v'.get .blocks k = v.get .blocks k ∧
      v'.get .blockHeaderHash k = v.get .blockHeaderHash k)
    (hrecord : ∀ t, v'.record env t = if t = env.newDigest packed then none else v.record env t) :
    Contents env K v' m := by
  have hat {k : UInt64} {d : BlockDigest} {rs : List (Bytes × Transaction)} :
      BlockAt env v' k d rs ↔ BlockAt env v k d rs :=
    ⟨fun h => h.congr (hsame _).1.symm (hsame _).2.symm, fun h => h.congr (hsame _).1 (hsame _).2⟩
  have hsub {t : Digest} {b : ℕ} {r : Transaction} (hr : v'.record env t = some (b, r)) :
      v.record env t = some (b, r) := by
    rw [hrecord] at hr
    split at hr
    · cases hr
    · exact hr
  constructor
  case block =>
    intro k b hb
    rw [(hsame _).1] at hb
    obtain ⟨d, rs, hblock, hrest⟩ := hc.block hb
    exact ⟨d, rs, hat.mpr hblock, hrest⟩
  case entry =>
    intro t b r hr
    obtain ⟨k, d, rs, hb, hblock, hmem⟩ := hc.entry (hsub hr)
    exact ⟨k, d, rs, hb, hat.mpr hblock, hmem⟩
  case linked =>
    intro k d rs x hblock hx hlink hlt
    have hr := hc.linked (hat.mp hblock) hx hlink hlt
    rw [hrecord, if_neg, hr]
    -- the record that goes is of block `m`, or has no link
    intro heq
    rw [heq] at hr
    obtain ⟨rfl, -⟩ := hl.same hK hwf hr
    have := hl.block hlink hr
    omega
  case linkedAt =>
    intro k d rs x b r hblock hx hlink hr
    exact hc.linkedAt (hat.mp hblock) hx hlink (hsub hr)

/-- A property of the records that are left and the database which undoing one record keeps. -/
def UndoKeeps (env : Env) (K : Set Bytes) (m : Nat) (R : List (Bytes × Transaction) → View → Prop) :
    Prop :=
  ∀ ⦃a trx : Access⦄ ⦃packed tx rest⦄, a.Clean → Undoing env K a.committed m →
    Contents env K a.committed m → Listed env K a.committed m packed tx →
    Unapplied env a.begin (env.newDigest packed) tx trx →
    R ((packed, tx) :: rest) a.committed → R rest trx.pending

/-- **Undoing the records of a block**, one after the other. Afterwards none of them is stored.
Along with that goes every property `R` of the records that are left and the database which undoing
one record keeps. -/
theorem Undoing.undone {R : List (Bytes × Transaction) → View → Prop}
    (hK : Set.InjOn env.newDigest K) {all : List (Bytes × Transaction)}
    (hstep : UndoKeeps env K m R)
    (h : Undone env a rs a') (hclean : a.Clean) (hu : Undoing env K a.committed m)
    (hc : Contents env K a.committed m) (hat : BlockAt env a.committed n d all)
    (hn : n.toNat = m) (hrs : ∀ x ∈ rs, x ∈ all) (hR : R rs a.committed) :
    Undoing env K a'.committed m ∧ Contents env K a'.committed m ∧
      (∀ x ∈ rs, a'.committed.record env (env.newDigest x.1) = none) ∧
      (∀ t, a.committed.record env t = none → a'.committed.record env t = none) ∧
      R [] a'.committed := by
  induction h with
  | nil a => exact ⟨hu, hc, by simp, fun _ h => h, hR⟩
  | @cons a trx a' packed tx rs huse hundo _ ih =>
    have hmem := List.forall_mem_cons.mp hrs
    have hl := hc.listed hat hn hmem.1
    have hun := unapplied_of_undoTransaction hundo
    obtain ⟨hu₁, hrecord⟩ := hu.unapplied hK hclean hl hun
    have hsame (k : Bytes) : trx.pending.get .blocks k = a.committed.get .blocks k ∧
        trx.pending.get .blockHeaderHash k = a.committed.get .blockHeaderHash k := by
      have ht := hun.touches.mono tx.pools_subset
      rw [ht.pending k (by decide), ht.pending k (by decide), pending_begin,
        Access.pending_of_clean hclean]
      exact ⟨rfl, rfl⟩
    have hc₁ := hc.removed hK hu.wf hl hsame hrecord
    have hR₁ := hstep hclean hu hc hl hun hR
    rw [← committed_commit] at hu₁ hc₁ hrecord hsame hR₁
    obtain ⟨hu', hc', hgone, hkeep, hR'⟩ := ih (Overlay.clean_commit _) hu₁ hc₁
      (hat.congr (hsame _).1 (hsame _).2) hmem.2 hR₁
    refine ⟨hu', hc', List.forall_mem_cons.mpr ⟨hkeep _ ?_, hgone⟩, fun t ht => hkeep t ?_, hR'⟩
    · rw [hrecord, if_pos rfl]
    · rw [hrecord, ht, ite_self]

end Records

/-! ## The block itself -/

section Block

variable {env : Env} {K : Set Bytes} {m : ℕ} {n : UInt64} {d digest : BlockDigest}
  {rs : List (Bytes × Transaction)} {a a' trx : Access} {owner : Account}

/-- The digest that deletion works with is the stored one or the hash of the header. -/
theorem headerDigest_eq_or {v : View} (record : Bytes)
    (h : v.get .blockHeaderHash (be64 n) = some d.bytes) :
    headerDigest env v record n = d ∨ headerDigest env v record n = env.argon2Hash record := by
  by_cases hd : d = .zero 32
  · right
    simp [headerDigest, digestFromHashPool, h, hd]
  · left
    exact headerDigest_of_hash h hd

/-- A foundation that has an owner is the one that was stored for the block. -/
theorem Undoing.foundation_eq (hu : Undoing env K a.committed m)
    (hc : Contents env K a.committed m) (hK : Set.InjOn env.newDigest K)
    (hat : BlockAt env a.committed n d rs) (hmem : foundationBytes n digest ∈ K)
    {data : OwnerData} (hhead : a.committed.head (foundationTxId env n digest) = some data) :
    foundationTxId env n digest = foundationTxId env n d := by
  obtain ⟨b, r, hr, -⟩ := hu.inv.head_entry hhead
  obtain ⟨k, packed, -, rfl, hstored⟩ := hu.wf.record_eq_some.mp hr
  obtain ⟨rfl, -⟩ := hstored.of_foundationTxId hK hmem rfl
  obtain ⟨k', d', rs', hk, hat', hcases⟩ := hc.entry hr
  obtain rfl := UInt64.toNat_inj.mp hk
  obtain ⟨rfl, rfl⟩ := hat.unique hat'
  rcases hcases with ⟨x, hx, hid⟩ | hid
  · -- a record is longer than the string of a foundation
    obtain ⟨b, hb, -⟩ := hat.block
    obtain ⟨d', rs', hat', hlist, -⟩ := hc.block hb
    obtain ⟨rfl, rfl⟩ := hat.unique hat'
    have heq := congrArg List.length (hK hmem (hlist x hx).1 hid)
    have hlen := (hlist x hx).2
    simp only [foundationBytes, List.length_append, length_le64, FixedBytes.length_bytes] at heq
    omega
  · exact hid

/-- **Deleting the block's own records**: the ledger is that of the block before. -/
theorem Undoing.deleteFoundation (hu : Undoing env K a.committed m)
    (hc : Contents env K a.committed m) (hK : Set.InjOn env.newDigest K) (hclean : a.Clean)
    (hat : BlockAt env a.committed n d rs) (hn : n.toNat = m)
    (hgone : ∀ x ∈ rs, a.committed.record env (env.newDigest x.1) = none)
    (hmem : foundationBytes n digest ∈ K)
    (h : Bitmarkd.deleteFoundation env a.begin n digest (some owner) = .ok trx) :
    WellFormed env K trx.pending ∧ ownershipScheme.Inv (trx.pending.ledger env) m ∧
      (∀ {t b r}, trx.pending.record env t = some (b, r) →
        b < m ∧ a.committed.record env t = some (b, r)) ∧
      (∀ {t b r}, a.committed.record env t = some (b, r) → b < m →
        trx.pending.record env t = some (b, r)) ∧ Indexed env trx.pending := by
  obtain ⟨trx₁, hrelease, rfl⟩ := deleteFoundation_eq_ok h
  have hrelease : transferOwnership _ _ _ 0 owner none = .ok trx₁ := hrelease
  have hfirst : Touches [.transactions] a.begin (Access.poolRemove a.begin .transactions
      (foundationTxId env n digest).bytes) := .poolRemove _ (by decide)
  obtain ⟨hown, data, -, hhead⟩ := transfer_reads hclean hfirst (by decide) hrelease
  have hid := hu.foundation_eq hc hK hat hmem hhead
  have htouch := transferOwnership_touches hrelease
  have hlast : Touches [.blockOwnerTxIndex, .blockOwnerPayment, .blocks, .blockHeaderHash] trx₁
      ((((trx₁.poolRemove .blockOwnerTxIndex (foundationTxId env n digest).bytes).poolRemove
        .blockOwnerPayment (be64 n)).poolRemove .blocks (be64 n)).poolRemove .blockHeaderHash
        (be64 n)) :=
    (((Touches.poolRemove _ (by decide)).trans (.poolRemove _ (by decide))).trans
      (.poolRemove _ (by decide))).trans (.poolRemove _ (by decide))
  have hrecord (t : Digest) : View.record env _ t = if t = foundationTxId env n digest then none
      else a.committed.record env t :=
    (congrFun (hlast.record_eq (by decide)) t).trans
      (record_removed env hclean htouch (by decide) t)
  have hsub {t : Digest} {b : ℕ} {r : Transaction}
      (hr : a.committed.record env t = some (b, r)) (hne : t ≠ foundationTxId env n digest) :
      b < m := by
    obtain ⟨k, d', rs', rfl, hat', hcases⟩ := hc.entry hr
    have hle := hu.bound hr
    by_contra hlt
    obtain rfl : k = n := UInt64.toNat_inj.mp (by omega)
    obtain ⟨rfl, rfl⟩ := hat.unique hat'
    rcases hcases with ⟨x, hx, rfl⟩ | hid'
    · rw [hgone x hx] at hr
      cases hr
    · exact hne (hid'.trans hid.symm)
  refine ⟨?_, ?_, fun {t b r} hr => ?_, fun {t b r} hr hb => ?_, fun t ht => ?_⟩
  · have hwf := (hu.wf.removeRecord hclean _).transfer hrelease
    exact hwf.poolRemove.poolRemove.poolRemove.poolRemove
  · rw [ledger_poolRemove (by decide), ledger_poolRemove (by decide), ledger_poolRemove (by decide),
      ledger_poolRemove (by decide), ledger_transferOwnership_none hrelease,
      ledger_poolRemove_begin hclean]
    exact hu.inv.unissue hu.bound hown (hu.inv.notSettledLink_of_head hhead)
  · rw [hrecord] at hr
    split at hr
    · cases hr
    next hne => exact ⟨hsub hr hne, hr⟩
  · rw [hrecord, if_neg, hr]
    rintro rfl
    obtain ⟨k, packed, -, rfl, hstored⟩ := hu.wf.record_eq_some.mp hr
    obtain ⟨rfl, -⟩ := hstored.of_foundationTxId hK hmem rfl
    omega
  · simp only [pending_poolRemove, reduceCtorEq, false_and, if_false, true_and,
      FixedBytes.bytes_inj] at ht
    split at ht
    · cases ht
    next hne =>
      rw [htouch.pending _ (by decide), pending_poolRemove, if_neg (by simp), pending_begin,
        Access.pending_of_clean hclean] at ht
      obtain ⟨b, r, hr, hblock⟩ := hu.indexed ht
      exact ⟨b, r, by rw [hrecord, if_neg (Ne.symm hne), hr], hblock⟩

/-- Block `n` when its records have been undone, but not yet its foundation. -/
structure Cleared (env : Env) (K : Set Bytes) (n : UInt64) (d : BlockDigest)
    (rs : List (Bytes × Transaction)) (a : Access) : Prop where
  clean : a.Clean
  undoing : Undoing env K a.committed n.toNat
  contents : Contents env K a.committed n.toNat
  blockAt : BlockAt env a.committed n d rs
  gone : ∀ x ∈ rs, a.committed.record env (env.newDigest x.1) = none

/-- The last block is deleted in two parts: its records, and then its foundation. -/
theorem Sound.clearBlock {R : List (Bytes × Transaction) → View → Prop}
    (hs : Sound env K a.committed n.toNat)
    (hc : Contents env K a.committed (n.toNat + 1)) (hK : Set.InjOn env.newDigest K)
    (hclean : a.Clean) {b : Bytes} (hblock : a.committed.get .blocks (be64 n) = some b)
    {now : UInt64} {header : Header} {data : Bytes} {previous : Option Bytes}
    (hextract : extractHeader env now a.view b 0 false = .ok (header, digest, data))
    (hnum : header.number = n)
    (h : Bitmarkd.deleteBlock env a header digest data = (.ok previous, a'))
    (hstep : UndoKeeps env K n.toNat R)
    (hR : ∀ d rs, BlockAt env a.committed n d rs → R rs a.committed) :
    ∃ d rs owner a₁ trx, Cleared env K n d rs a₁ ∧ R [] a₁.committed ∧
      (∀ {p} k, p ∉ recordPools → a₁.committed.get p k = a.committed.get p k) ∧
      foundationBytes n digest ∈ K ∧
      Bitmarkd.deleteFoundation env a₁.begin n digest (some owner) = .ok trx ∧
      a' = trx.commit := by
  obtain ⟨-, -, -, hdigest, hdata⟩ := extractHeader_eq_ok.mp hextract
  obtain ⟨rs, a₁, trx, hrs, -, hundone, -, hfoundation, -, rfl⟩ := deleteBlock_eq_ok h
  obtain ⟨d, rs', hat, hlist, howner, hmemd, hmemh⟩ := hc.block hblock
  -- the block lists the records that are undone
  obtain ⟨b', hb', hrs'⟩ := hat.block
  obtain rfl := Option.some.inj (hblock.symm.trans hb')
  rw [hdata] at hrs
  obtain rfl := hrs.unique hrs'
  obtain ⟨hu₁, hc₁, hgone, -, hR₁⟩ := Undoing.undone hK hstep hundone hclean hs.undoing
    (hc.mono (Nat.le_succ _)) hat rfl (fun _ hx => hx) (hR d rs hat)
  obtain ⟨hclean₁, hframe⟩ := hundone.frame hclean
  have hat₁ : BlockAt env a₁.committed n d rs :=
    hat.congr (hframe _ (by decide)) (hframe _ (by decide))
  obtain ⟨owner, howner⟩ := Option.ne_none_iff_exists'.mp howner
  have hmem : foundationBytes n digest ∈ K := by
    rw [Access.view_of_clean hclean, hnum] at hdigest
    rw [hdigest, if_neg (by simp)]
    rcases headerDigest_eq_or (b.take totalBlockSize) hat.hash with heq | heq
    · rw [heq]
      exact hmemd
    · rw [heq]
      exact hmemh
  rw [howner, hnum] at hfoundation
  exact ⟨d, rs, owner, a₁, trx, ⟨hclean₁, hu₁, hc₁, hat₁, hgone⟩, hR₁, hframe, hmem, hfoundation,
    rfl⟩

/-- **Deleting the last block** leaves the ledger of the blocks before it. -/
theorem Sound.deleteBlock (hs : Sound env K a.committed n.toNat)
    (hc : Contents env K a.committed (n.toNat + 1)) (hK : Set.InjOn env.newDigest K)
    (hclean : a.Clean) (h2 : 2 ≤ n) {b : Bytes} (hblock : a.committed.get .blocks (be64 n) = some b)
    {now : UInt64} {header : Header} {data : Bytes} {previous : Option Bytes}
    (hextract : extractHeader env now a.view b 0 false = .ok (header, digest, data))
    (hnum : header.number = n)
    (h : Bitmarkd.deleteBlock env a header digest data = (.ok previous, a'))
    (hpops : Pops a.committed a'.committed n) :
    Sound env K a'.committed (n - 1).toNat ∧ Contents env K a'.committed ((n - 1).toNat + 1) := by
  have hpred : (n - 1).toNat + 1 = n.toNat := by
    rw [toNat_pred h2]
    rw [UInt64.le_iff_toNat_le] at h2
    have h2' : (2 : UInt64).toNat = 2 := rfl
    omega
  obtain ⟨d, rs, owner, a₁, trx, hcleared, -, hframe, hmem, hfoundation, rfl⟩ :=
    hs.clearBlock (R := fun _ _ => True) hc hK hclean hblock hextract hnum h
      (fun _ _ _ _ _ _ _ _ _ _ _ => trivial) fun _ _ _ => trivial
  have hc₁ := hcleared.contents
  obtain ⟨hwf, hinv, hsub, hkeep, hindexed⟩ := hcleared.undoing.deleteFoundation hc₁ hK
    hcleared.clean hcleared.blockAt rfl hcleared.gone hmem hfoundation
  have hpops₁ : Pops a₁.committed (Access.committed trx.commit) n := by
    refine ⟨fun k => ?_, fun k => ?_⟩
    · rw [hpops.blocks, hframe k (by decide)]
    · rw [hpops.hashes, hframe k (by decide)]
  rw [← committed_commit] at hwf hinv hsub hkeep hindexed
  refine ⟨⟨hwf, hpred ▸ hinv, fun hr => ?_, hindexed⟩, ?_⟩
  · have := (hsub hr).1
    omega
  · rw [hpred]
    have hne {k : UInt64} {d : BlockDigest} {rs : List (Bytes × Transaction)}
        (hk : BlockAt env (Access.committed trx.commit) k d rs) : k ≠ n := by
      rintro rfl
      obtain ⟨b, hb, -⟩ := hk.block
      rw [hpops₁.blocks, if_pos rfl] at hb
      cases hb
    constructor
    case block =>
      intro k b hb
      rw [hpops₁.blocks] at hb
      split at hb
      · cases hb
      next hk =>
        obtain ⟨d, rs, hat, hrest⟩ := hc₁.block hb
        exact ⟨d, rs, (BlockAt.pops hpops₁ fun hc => hk (by rw [hc])).mpr hat, hrest⟩
    case entry =>
      intro t b r hr
      obtain ⟨hlt, hr⟩ := hsub hr
      obtain ⟨k, d, rs, rfl, hat, hmem⟩ := hc₁.entry hr
      refine ⟨k, d, rs, rfl, (BlockAt.pops hpops₁ ?_).mpr hat, hmem⟩
      rintro rfl
      omega
    case linked =>
      intro k d rs x hk hx hlink hlt
      exact hkeep (hc₁.linked ((BlockAt.pops hpops₁ (hne hk)).mp hk) hx hlink hlt) hlt
    case linkedAt =>
      intro k d rs x b r hk hx hlink hr
      exact hc₁.linkedAt ((BlockAt.pops hpops₁ (hne hk)).mp hk) hx hlink (hsub hr).2

end Block

end Bitmarkd
