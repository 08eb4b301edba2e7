import Bitmarkd.Ledger.Store

/-!
# Balances

Pool `ShareQuantity` as a book of balances, zero where there is no key. `StoreIncoming` reads
balances through the cache, where a balance that was emptied in the same block still reads as the
committed one; the writes go to what is pending. So each update of the book is stated with what was
read (`updateShareGrant_eq`, `updateShareSwap_eq`), and `Access.Fresh` says when that is what is
pending.
-/

namespace Bitmarkd

open Lib

/-- Balances by account and share. -/
abbrev Book : Type := Account → Digest → UInt64

/-- Set one balance. -/
def Book.set (f : Book) (o : Account) (s : Digest) (q : UInt64) : Book :=
  fun o' s' => if o' = o ∧ s' = s then q else f o' s'

theorem Book.set_apply {f : Book} {o o' : Account} {s s' : Digest} {q : UInt64} :
    f.set o s q o' s' = if o' = o ∧ s' = s then q else f o' s' := rfl

theorem Book.set_of_ne {f : Book} {o o' : Account} {s s' : Digest} {q : UInt64}
    (h : ¬ (o' = o ∧ s' = s)) : f.set o s q o' s' = f o' s' := by
  simp [Book.set, h]

/-- The balances in a view. -/
def View.quantity (v : View) : Book := fun o s =>
  ((v.get .shareQuantity (ownerKey o s)).map ofBE64).getD 0

/-- The balance that the code reads is the one that is pending: it has not been emptied. -/
def Access.Fresh (a : Access) (o : Account) (s : Digest) : Prop :=
  a.pending.get .shareQuantity (ownerKey o s) = none →
    a.committed.get .shareQuantity (ownerKey o s) = none

section Quantity

variable {a a' : Access} {o o' : Account} {s s' : Digest} {q : UInt64}

theorem Access.Fresh.view_eq (h : a.Fresh o s) :
    a.view.get .shareQuantity (ownerKey o s) = a.pending.get .shareQuantity (ownerKey o s) :=
  (a.get_eq_final_iff _).mpr h

theorem Access.Fresh.quantity_eq (h : a.Fresh o s) :
    a.view.quantity o s = a.pending.quantity o s := by
  rw [View.quantity, h.view_eq, View.quantity]

theorem fresh_of_clean (h : a.Clean) (o : Account) (s : Digest) : a.Fresh o s := by
  rw [Access.Fresh, Access.pending_of_clean h]
  exact fun h => h

theorem Touches.fresh_iff {ps : List Pool} (h : Touches ps a a') (hp : .shareQuantity ∉ ps) :
    a'.Fresh o s ↔ a.Fresh o s := by
  rw [Access.Fresh, Access.Fresh, h.pending _ hp, h.committed]

theorem Touches.pending_quantity {ps : List Pool} (h : Touches ps a a')
    (hp : .shareQuantity ∉ ps) : a'.pending.quantity = a.pending.quantity := by
  funext o s
  rw [View.quantity, View.quantity, h.pending _ hp]

theorem pending_quantity_poolPutN :
    (a.poolPutN .shareQuantity (ownerKey o s) q).pending.quantity =
      a.pending.quantity.set o s q := by
  funext o' s'
  rw [View.quantity, Access.poolPutN, pending_poolPut, Book.set_apply, View.quantity]
  simp only [true_and, ownerKey_inj, eq_comm (a := o), eq_comm (a := s)]
  split <;> simp

/-- Deleting a balance makes it zero. -/
theorem pending_quantity_setBalance :
    (setBalance a (ownerKey o s) q).pending.quantity = a.pending.quantity.set o s q := by
  unfold setBalance
  split
  next hq =>
    funext o' s'
    rw [View.quantity, pending_poolRemove, Book.set_apply, View.quantity, hq]
    simp only [true_and, ownerKey_inj, eq_comm (a := o), eq_comm (a := s)]
    split <;> simp
  next => exact pending_quantity_poolPutN

theorem fresh_poolPutN_iff : (a.poolPutN .shareQuantity (ownerKey o s) q).Fresh o' s' ↔
    o' = o ∧ s' = s ∨ a.Fresh o' s' := by
  rw [Access.Fresh, Access.Fresh, Access.poolPutN, pending_poolPut, committed_poolPut]
  simp only [true_and, ownerKey_inj, eq_comm (a := o), eq_comm (a := s)]
  split <;> simp_all

theorem fresh_setBalance_of_ne (h : ¬ (o' = o ∧ s' = s)) :
    (setBalance a (ownerKey o s) q).Fresh o' s' ↔ a.Fresh o' s' := by
  have h' : ¬ (o = o' ∧ s = s') := fun hc => h ⟨hc.1.symm, hc.2.symm⟩
  unfold setBalance
  split
  · rw [Access.Fresh, Access.Fresh, pending_poolRemove, committed_poolRemove]
    simp [h']
  · rw [fresh_poolPutN_iff]
    simp [h]

end Quantity

/-! ## Grants and swaps -/

section Updates

variable {env : Env} {K : Set Bytes} {a a' : Access}

theorem WellFormed.getN_quantity (h : WellFormed env K a.view) (o : Account) (s : Digest) :
    ∃ balance, a.view.getN .shareQuantity (ownerKey o s) = .ok balance ∧
      balance.getD 0 = a.view.quantity o s :=
  ⟨_, h.getN_shareQuantity _, rfl⟩

/-- **A grant** writes the balance of the owner, and then that of the recipient. -/
theorem updateShareGrant_eq (hwf : WellFormed env K a.view) {tx : ShareGrant}
    (h : updateShareGrant a tx = .ok a') :
    a' = (setBalance a (ownerKey tx.owner.account tx.shareId)
        (a.view.quantity tx.owner.account tx.shareId - tx.quantity)).poolPutN .shareQuantity
      (ownerKey tx.recipient.account tx.shareId)
      (a.view.quantity tx.recipient.account tx.shareId + tx.quantity) := by
  obtain ⟨ob, hob, hoq⟩ := hwf.getN_quantity tx.owner.account tx.shareId
  obtain ⟨rb, hrb, hrq⟩ := hwf.getN_quantity tx.recipient.account tx.shareId
  simp only [updateShareGrant, hob, hrb, bind, Except.bind] at h
  cases ob with
  | none => simp at h
  | some ob =>
    cases h
    rw [← hoq, ← hrq]
    rfl

/-- **A swap** writes four balances. -/
theorem updateShareSwap_eq (hwf : WellFormed env K a.view) {tx : ShareSwap}
    (h : updateShareSwap a tx = .ok a') :
    a' = (setBalance ((setBalance a (ownerKey tx.ownerOne.account tx.shareIdOne)
        (a.view.quantity tx.ownerOne.account tx.shareIdOne - tx.quantityOne)).poolPutN
          .shareQuantity (ownerKey tx.ownerTwo.account tx.shareIdOne)
          (a.view.quantity tx.ownerTwo.account tx.shareIdOne + tx.quantityOne))
        (ownerKey tx.ownerTwo.account tx.shareIdTwo)
        (a.view.quantity tx.ownerTwo.account tx.shareIdTwo - tx.quantityTwo)).poolPutN
          .shareQuantity (ownerKey tx.ownerOne.account tx.shareIdTwo)
          (a.view.quantity tx.ownerOne.account tx.shareIdTwo + tx.quantityTwo) := by
  obtain ⟨b₁, hb₁, hq₁⟩ := hwf.getN_quantity tx.ownerOne.account tx.shareIdOne
  obtain ⟨b₂, hb₂, hq₂⟩ := hwf.getN_quantity tx.ownerTwo.account tx.shareIdTwo
  obtain ⟨b₃, hb₃, hq₃⟩ := hwf.getN_quantity tx.ownerOne.account tx.shareIdTwo
  obtain ⟨b₄, hb₄, hq₄⟩ := hwf.getN_quantity tx.ownerTwo.account tx.shareIdOne
  simp only [updateShareSwap, hb₁, hb₂, hb₃, hb₄, bind, Except.bind] at h
  cases b₁ with
  | none => simp at h
  | some b₁ =>
    cases b₂ with
    | none => simp at h
    | some b₂ =>
      cases h
      rw [← hq₁, ← hq₂, ← hq₃, ← hq₄]
      rfl

/-- The book after a grant. -/
theorem updateShareGrant_quantity (hwf : WellFormed env K a.view) {tx : ShareGrant}
    (h : updateShareGrant a tx = .ok a') :
    a'.pending.quantity = (a.pending.quantity.set tx.owner.account tx.shareId
        (a.view.quantity tx.owner.account tx.shareId - tx.quantity)).set
      tx.recipient.account tx.shareId
      (a.view.quantity tx.recipient.account tx.shareId + tx.quantity) := by
  rw [updateShareGrant_eq hwf h, pending_quantity_poolPutN, pending_quantity_setBalance]

/-- The book after a swap. -/
theorem updateShareSwap_quantity (hwf : WellFormed env K a.view) {tx : ShareSwap}
    (h : updateShareSwap a tx = .ok a') :
    a'.pending.quantity = (((a.pending.quantity.set tx.ownerOne.account tx.shareIdOne
        (a.view.quantity tx.ownerOne.account tx.shareIdOne - tx.quantityOne)).set
      tx.ownerTwo.account tx.shareIdOne
        (a.view.quantity tx.ownerTwo.account tx.shareIdOne + tx.quantityOne)).set
      tx.ownerTwo.account tx.shareIdTwo
        (a.view.quantity tx.ownerTwo.account tx.shareIdTwo - tx.quantityTwo)).set
      tx.ownerOne.account tx.shareIdTwo
        (a.view.quantity tx.ownerOne.account tx.shareIdTwo + tx.quantityTwo) := by
  rw [updateShareSwap_eq hwf h, pending_quantity_poolPutN, pending_quantity_setBalance,
    pending_quantity_poolPutN, pending_quantity_setBalance]

end Updates

/-! ## Conversions -/

section Conversion

variable {env : Env} {K : Set Bytes} {n : UInt64} {a a' : Access} {item : Txn} {tx : BitmarkShare}

/-- What storing a share record does: the bitmark at its link becomes `quantity` shares of its
owner `o`, under the issue id of the bitmark. -/
structure Converted (env : Env) (a : Access) (item : Txn) (tx : BitmarkShare) (o : Account)
    (d : OwnerData) (a' : Access) : Prop where
  link : ∃ b r, LinkFound env a.committed tx.link o b r d
  asset : ∃ assetId, d.item = .asset assetId
  quantity_ne_zero : tx.quantity ≠ 0
  quantity : a'.pending.quantity = a.pending.quantity.set o d.issueTxId tx.quantity
  fresh : ∀ {o' s'}, a'.Fresh o' s' ↔ o' = o ∧ s' = d.issueTxId ∨ a.Fresh o' s'
  shares : ∀ k, a'.pending.get .shares k =
    if d.issueTxId.bytes = k then some (be64 tx.quantity ++ item.txId.bytes)
    else a.pending.get .shares k

/-- **A share record** converts the bitmark that validation found. -/
theorem Updating.converted (hu : Updating env K n a) (hn : 1 ≤ n)
    (hitem : Admitted env K a.committed item) (htx : item.unpacked = .bitmarkShare tx)
    (h : Applied env n a item a') : ∃ o d, Converted env a item tx o d a' := by
  obtain ⟨o, b, r, d, assetId, howner, hlink, hasset, hq, hd⟩ := hu.conversion hn hitem htx
  obtain ⟨o', howner', happlied⟩ := h.of_share htx
  obtain rfl := Option.some.inj (howner.symm.trans howner')
  obtain ⟨dCount, d', -, hd', ⟨hq', -⟩ | ⟨hq', -⟩ | ⟨-, s, -, hcreate⟩⟩ := transfer_eq_ok happlied
  · exact absurd hq' hq
  · exact absurd hq' hq
  obtain rfl := Except.ok.inj (hd.symm.trans hd')
  -- the writes before the two of the share touch neither of its pools
  have hbefore : Touches (.transactions :: ownershipPools) a
      (deleteOwner (a.storeRecord n item) o tx.link dCount) :=
    (Touches.poolPut _ _ (by decide)).trans
      ((deleteOwner_touches _ _ _ _).mono (List.subset_cons_self _ _))
  have hafter := create_touches hcreate
  have hshares (a : Access) (k c : Bytes) : Touches [.shares] a (a.poolPut .shares k c) :=
    .poolPut _ _ (by decide)
  refine ⟨o, d, ⟨b, r, hlink⟩, ⟨assetId, hasset⟩, hq, ?_, ?_, ?_⟩
  · rw [hafter.pending_quantity (by decide)]
    refine pending_quantity_poolPutN.trans ?_
    rw [(hshares _ _ _).pending_quantity (by decide), hbefore.pending_quantity (by decide)]
  · intro o' s'
    rw [hafter.fresh_iff (by decide)]
    refine fresh_poolPutN_iff.trans ?_
    rw [(hshares _ _ _).fresh_iff (by decide), hbefore.fresh_iff (by decide)]
  · intro k
    rw [hafter.pending _ (by decide), createShare, pending_poolPut, pending_poolPut,
      hbefore.pending _ (by decide)]
    simp

end Conversion

end Bitmarkd
