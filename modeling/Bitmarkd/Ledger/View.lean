import Bitmarkd.Lib.Provenance
import Bitmarkd.BlockRecord
import Bitmarkd.Ownership.Transfer

/-!
# The ledger in the database

Reads pools `Transactions`, `OwnerData` and `OwnerTxIndex` as a provenance ledger: the stored
records are its entries, the owner data its heads, the index its owners (`View.ledger`). The writes
of package `ownership` are the ledger operations of `Lib.Provenance`.
-/

namespace Bitmarkd

open Lib Lib.Provenance

/-! ## Records as ledger entries -/

namespace Transaction

/-- The tx id a record spends. -/
def link? : Transaction → Option Digest
  | .bitmarkTransferUnratified tx => some tx.link
  | .bitmarkTransferCountersigned tx => some tx.link
  | .blockOwnerTransfer tx => some tx.link
  | .bitmarkShare tx => some tx.link
  | .oldBaseData _ | .assetData _ | .bitmarkIssue _ | .blockFoundation _ | .shareGrant _
  | .shareSwap _ => none

/-- The account a record gives ownership to. -/
def holder? : Transaction → Option Account
  | .oldBaseData tx => some tx.owner
  | .bitmarkIssue tx => some tx.owner
  | .bitmarkTransferUnratified tx => some tx.owner
  | .bitmarkTransferCountersigned tx => some tx.owner
  | .blockFoundation tx => some tx.owner
  | .blockOwnerTransfer tx => some tx.owner
  | .assetData _ | .bitmarkShare _ | .shareGrant _ | .shareSwap _ => none

/-- A base or foundation record. -/
def IsFoundation : Transaction → Prop
  | .oldBaseData _ | .blockFoundation _ => True
  | _ => False

instance : DecidablePred IsFoundation := fun t => by
  cases t <;> simp only [IsFoundation] <;> infer_instance

/-- A record that owns a block when it is a head. -/
def IsBlockRecord : Transaction → Prop
  | .oldBaseData _ | .blockFoundation _ | .blockOwnerTransfer _ => True
  | _ => False

instance : DecidablePred IsBlockRecord := fun t => by
  cases t <;> simp only [IsBlockRecord] <;> infer_instance

/-- A record that is stored in `Transactions` under its own hash. -/
def IsStored : Transaction → Prop
  | .oldBaseData _ | .blockFoundation _ | .assetData _ => False
  | _ => True

/-- A record that moves shares between accounts. -/
def movesShares : Transaction → Bool
  | .shareGrant _ | .shareSwap _ => true
  | _ => false

theorem holder?_of_owner? {t : Transaction} {o : Account} (h : t.owner? = some o) :
    t.holder? = some o := by
  cases t <;> simp_all [owner?, holder?]

end Transaction

/-- The owner data belongs to a chain that starts with this record. -/
def OwnerData.Fits (d : OwnerData) (s : Digest) (b : ℕ) (r : Transaction) : Prop :=
  d.issueTxId = s ∧ d.issueBlockNumber.toNat = b ∧
    match r with
    | .bitmarkIssue tx => d.item = .asset tx.assetId ∨ d.item = .share tx.assetId
    | .oldBaseData _ | .blockFoundation _ => d.item = .block
    | _ => False

/-- The item is a share. -/
def OwnedItem.IsShare : OwnedItem → Prop
  | .share _ => True
  | .asset _ | .block => False

/-- The record converts a bitmark to shares. -/
def Transaction.IsShare : Transaction → Prop
  | .bitmarkShare _ => True
  | _ => False

/-- The ownership ledger: a record may spend a record with an owner, and a block owner transfer may
spend a block record only. -/
def ownershipScheme : Scheme Digest Transaction Account OwnerData where
  link := Transaction.link?
  holder := Transaction.holder?
  follows r r' := r'.owner? ≠ none ∧ (r.IsBlockRecord → r'.IsBlockRecord)
  fits := OwnerData.Fits
  suits d r := d.item.IsShare ↔ r.IsShare
  holder_of_follows := by
    rintro r r' ⟨h, -⟩
    obtain ⟨o, ho⟩ := Option.ne_none_iff_exists'.mp h
    simp [Transaction.holder?_of_owner? ho]
  holder_of_fits := by
    rintro d s b r ⟨-, -, h⟩
    cases r <;> simp_all [Transaction.holder?]

/-! ## Views as ledgers -/

namespace View

variable (env : Env) (v : View)

/-- The record stored under a tx id, with its block number. -/
def record (t : Digest) : Option (ℕ × Transaction) :=
  (v.get .transactions t.bytes).bind fun buffer =>
    match unpack env (buffer.drop 8) env.isTesting with
    | .ok (transaction, _) => some ((ofBE64 buffer).toNat, transaction)
    | .error _ => none

/-- The owner data of a tx id. -/
def head (t : Digest) : Option OwnerData := (getOwnerData v t).toOption

/-- The ledger in a view. -/
def ledger : Ledger Digest Transaction Account OwnerData where
  entry := v.record env
  head := v.head
  owns o t := currentlyOwns v o t = true

variable {env v}

theorem head_eq_some {t : Digest} {d : OwnerData} :
    v.head t = some d ↔ getOwnerData v t = .ok d := by
  rw [head]
  cases getOwnerData v t <;> simp [Except.toOption]

theorem ledger_congr {w : View}
    (htx : ∀ t : Digest, v.get .transactions t.bytes = w.get .transactions t.bytes)
    (hdata : ∀ t : Digest, v.get .ownerData t.bytes = w.get .ownerData t.bytes)
    (hidx : ∀ o t, v.get .ownerTxIndex (ownerKey o t) = w.get .ownerTxIndex (ownerKey o t)) :
    v.ledger env = w.ledger env := by
  have hrecord : v.record env = w.record env := by
    funext t
    rw [record, record, htx]
  have hhead : v.head = w.head := by
    funext t
    rw [head, head, getOwnerData, getOwnerData, hdata]
  have howns : (fun o t => currentlyOwns v o t = true) = fun o t => currentlyOwns w o t = true := by
    funext o t
    rw [currentlyOwns, currentlyOwns, has, has, hidx]
  rw [ledger, ledger, hrecord, hhead, howns]

end View

/-! ## Ledger operations in the code -/

section Operations

variable {env : Env} {a a' : Access} {t u : Digest} {d : OwnerData} {o : Account}

/-- A write to another pool leaves the ledger. -/
theorem ledger_poolPut {p : Pool} {k b : Bytes}
    (hp : p ≠ .transactions ∧ p ≠ .ownerData ∧ p ≠ .ownerTxIndex) :
    (a.poolPut p k b).pending.ledger env = a.pending.ledger env := by
  apply View.ledger_congr <;> simp [hp.1, hp.2.1, hp.2.2]

theorem ledger_poolRemove {p : Pool} {k : Bytes}
    (hp : p ≠ .transactions ∧ p ≠ .ownerData ∧ p ≠ .ownerTxIndex) :
    (a.poolRemove p k).pending.ledger env = a.pending.ledger env := by
  apply View.ledger_congr <;> simp [hp.1, hp.2.1, hp.2.2]

/-- Storing a record adds an entry. -/
theorem ledger_storeRecord {n : UInt64} {packed : Bytes} {r : Transaction} {len : Nat}
    (h : unpack env packed env.isTesting = .ok (r, len)) :
    (a.poolPutNB .transactions t.bytes n packed).pending.ledger env =
      (a.pending.ledger env).addEntry t n.toNat r := by
  apply Ledger.ext
  · funext x
    have hdrop : (be64 n ++ packed).drop 8 = packed := List.drop_left' (length_be64 n)
    rw [Ledger.entry_addEntry]
    simp only [View.ledger, View.record, Access.poolPutNB, pending_poolPut, true_and,
      FixedBytes.bytes_inj]
    by_cases hx : x = t
    · subst hx
      simp [hdrop, h]
    · have hx' : t ≠ x := fun hc => hx hc.symm
      simp [hx, hx']
  · funext x
    simp [View.ledger, View.head, getOwnerData, Access.poolPutNB, Ledger.addEntry]
  · funext w x
    simp [View.ledger, currentlyOwns, View.has, Access.poolPutNB, Ledger.addEntry]

/-- Deleting a record removes its entry. -/
theorem ledger_removeRecord :
    (a.poolRemove .transactions t.bytes).pending.ledger env =
      (a.pending.ledger env).removeEntry t := by
  apply Ledger.ext
  · funext x
    rw [Ledger.entry_removeEntry]
    simp only [View.ledger, View.record, pending_poolRemove, true_and, FixedBytes.bytes_inj]
    by_cases hx : x = t
    · subst hx
      simp
    · have hx' : t ≠ x := fun hc => hx hc.symm
      simp [hx, hx']
  · funext x
    simp [View.ledger, View.head, getOwnerData, Ledger.removeEntry]
  · funext w x
    simp [View.ledger, currentlyOwns, View.has, Ledger.removeEntry]

/-- `create` adds a head. -/
theorem ledger_create (h : create a t d o = .ok a') :
    a'.pending.ledger env = (a.pending.ledger env).addHead t d o := by
  obtain ⟨count, -, -, rfl⟩ := create_eq_ok h
  apply Ledger.ext
  · funext x
    simp [View.ledger, View.record, Ledger.addHead]
  · funext x
    simp only [View.ledger, View.head, getOwnerData, pending_poolPut, true_and,
      FixedBytes.bytes_inj, Ledger.addHead, Function.update_apply]
    by_cases hx : x = t
    · subst hx
      simp [Except.toOption]
    · have hx' : t ≠ x := fun hc => hx hc.symm
      simp [hx, hx']
  · funext w x
    simp only [View.ledger, currentlyOwns, View.has, pending_poolPut, reduceCtorEq, false_and,
      if_false, true_and, ownerKey_inj, Ledger.addHead, eq_iff_iff]
    by_cases hx : o = w ∧ t = x
    · simp [hx]
    · have hx' : ¬ (w = o ∧ x = t) := fun hc => hx ⟨hc.1.symm, hc.2.symm⟩
      simp [hx, hx']

/-- `deleteOwner` removes a head. -/
theorem ledger_deleteOwner {dCount : Bytes} :
    (deleteOwner a o u dCount).pending.ledger env = (a.pending.ledger env).removeHead u o := by
  apply Ledger.ext
  · funext x
    simp [deleteOwner, View.ledger, View.record, Ledger.removeHead]
  · funext x
    simp only [deleteOwner, View.ledger, View.head, getOwnerData, pending_poolRemove, true_and,
      FixedBytes.bytes_inj, Ledger.removeHead, Function.update_apply]
    by_cases hx : x = u
    · subst hx
      simp [Except.toOption, fault]
    · have hx' : u ≠ x := fun hc => hx hc.symm
      simp [hx, hx']
  · funext w x
    simp only [deleteOwner, View.ledger, currentlyOwns, View.has, pending_poolRemove, reduceCtorEq,
      false_and, if_false, true_and, ownerKey_inj, Ledger.removeHead, eq_iff_iff]
    by_cases hx : o = w ∧ u = x
    · simp [hx]
    · have hx' : ¬ (w = o ∧ x = u) := fun hc => hx ⟨hc.1.symm, hc.2.symm⟩
      simp [hx, hx']

/-- A share leaves the ledger to its owner. -/
theorem ledger_createShare {q : UInt64} {s : Digest} :
    (createShare a s t o q).pending.ledger env = a.pending.ledger env := by
  rw [createShare, ledger_poolPut (by decide), ledger_poolPut (by decide)]

/-- A transfer moves the head, with its data. -/
theorem ledger_transferOwnership {n : UInt64} {o' : Account} (hd : getOwnerData a.view u = .ok d)
    (hitem : ¬ d.item.IsShare) (h : transferOwnership a u t n o (some o') = .ok a') :
    a'.pending.ledger env = ((a.pending.ledger env).removeHead u o).addHead t
      { d with transferBlockNumber := n } o' := by
  obtain ⟨dCount, d', -, hd', hcases⟩ := transfer_eq_ok h
  obtain rfl := Except.ok.inj (hd.symm.trans hd')
  rcases hcases with ⟨-, hnone, -⟩ | ⟨-, o'', item, -, hnew, hcreate⟩ | ⟨hq, -⟩
  · cases hnone
  · rcases hnew with ⟨rfl, hsome, -⟩ | ⟨s, hs, -⟩
    · cases hsome
      rw [ledger_create hcreate, ledger_deleteOwner]
    · exact absurd (by rw [hs]; trivial) hitem
  · exact absurd rfl hq

/-- A transfer of a share, which only happens on deletion, gives the bitmark back to its owner. -/
theorem ledger_transferOwnership_share {n : UInt64} {o' : Account} {s : AssetIdentifier}
    (hd : getOwnerData a.view u = .ok d) (hitem : d.item = .share s)
    (h : transferOwnership a u t n o (some o') = .ok a') :
    a'.pending.ledger env = ((a.pending.ledger env).removeHead u o).addHead t
      { d with transferBlockNumber := n, item := .asset s } o := by
  obtain ⟨dCount, d', -, hd', hcases⟩ := transfer_eq_ok h
  obtain rfl := Except.ok.inj (hd.symm.trans hd')
  rcases hcases with ⟨-, hnone, -⟩ | ⟨-, o'', item, -, hnew, hcreate⟩ | ⟨hq, -⟩
  · cases hnone
  · rcases hnew with ⟨-, -, hno⟩ | ⟨s', hs', rfl, rfl⟩
    · exact absurd hitem (hno s)
    · rw [hitem] at hs'
      cases hs'
      rw [ledger_create hcreate, ledger_deleteOwner]
  · exact absurd rfl hq

/-- A transfer to nobody removes the head. -/
theorem ledger_transferOwnership_none {n : UInt64}
    (h : transferOwnership a u t n o none = .ok a') :
    a'.pending.ledger env = (a.pending.ledger env).removeHead u o := by
  obtain ⟨dCount, d', -, -, ⟨-, -, rfl⟩ | ⟨-, o'', item, hsome, -⟩ | ⟨hq, -⟩⟩ := transfer_eq_ok h
  · rw [ledger_deleteOwner]
  · cases hsome
  · exact absurd rfl hq

/-- A share moves the head to the record, and stays with the owner. -/
theorem ledger_share {n q : UInt64} {s : AssetIdentifier} (hq : q ≠ 0)
    (hd : getOwnerData a.view u = .ok d) (hitem : d.item = .asset s)
    (h : share a u t n o q = .ok a') :
    a'.pending.ledger env = ((a.pending.ledger env).removeHead u o).addHead t
      { d with transferBlockNumber := n, item := .share s } o := by
  obtain ⟨dCount, d', -, hd', ⟨hq', -⟩ | ⟨hq', -⟩ | ⟨-, s', hs', hcreate⟩⟩ := transfer_eq_ok h
  · exact absurd hq' hq
  · exact absurd hq' hq
  · obtain rfl := Except.ok.inj (hd.symm.trans hd')
    rw [hitem] at hs'
    cases hs'
    rw [ledger_create hcreate, ledger_createShare, ledger_deleteOwner]

end Operations

end Bitmarkd
