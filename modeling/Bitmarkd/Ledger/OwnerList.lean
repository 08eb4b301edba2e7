import Bitmarkd.Ownership.Lists
import Bitmarkd.Chain.Shape

/-!
# The format of the owner lists

Only `create` puts something in pool `OwnerList`: a tx id, under an account and a position. So
whatever blocks are stored and deleted, every key of the pool is of that form
(`NodeRun.ownerList_entries`).
-/

namespace Bitmarkd

open Lib

/-- A key of pool `OwnerList` with its value. -/
def IsListEntry (k b : Bytes) : Prop :=
  ∃ (o : Account) (n : UInt64) (t : Digest), k = listKey o n ∧ b = t.bytes

/-- What the second access has in pool `OwnerList` and the first does not are entries. -/
def ListsMore (a a' : Access) : Prop :=
  ∀ ⦃k b⦄, a'.pending.get .ownerList k = some b →
    a.pending.get .ownerList k = some b ∨ IsListEntry k b

namespace ListsMore

variable {env : Env} {a a' a'' : Access} {t u txId : Digest} {d : OwnerData} {o : Account}
  {n q : UInt64} {new : Option Account}

theorem refl (a : Access) : ListsMore a a := fun _ _ h => Or.inl h

theorem trans (h : ListsMore a a') (h' : ListsMore a' a'') : ListsMore a a'' := by
  intro k b hb
  rcases h' hb with hb | hentry
  · exact h hb
  · exact Or.inr hentry

theorem of_touches {ps : List Pool} (h : Touches ps a a') (hp : .ownerList ∉ ps) :
    ListsMore a a' := by
  intro k b hb
  rw [h.pending k hp] at hb
  exact Or.inl hb

theorem poolPut {p : Pool} {k b : Bytes} (hp : p ≠ .ownerList) : ListsMore a (a.poolPut p k b) :=
  of_touches (Touches.poolPut k b (List.mem_singleton_self p)) (by simpa using hp.symm)

theorem poolRemove (p : Pool) (k : Bytes) : ListsMore a (a.poolRemove p k) := by
  intro l b hb
  rw [pending_poolRemove] at hb
  split at hb
  · cases hb
  · exact Or.inl hb

theorem create (h : Bitmarkd.create a t d o = .ok a') : ListsMore a a' := by
  obtain ⟨count, -, hlen, rfl⟩ := create_eq_ok h
  have hentry (b : Access) : ListsMore b (b.poolPut .ownerList (o.bytes ++ count) t.bytes) := by
    intro k b hb
    rw [pending_poolPut] at hb
    split at hb
    next hk =>
      cases hb
      refine Or.inr ⟨o, ofBE64 count, t, ?_, rfl⟩
      rw [listKey, be64_ofBE64 hlen]
      exact hk.2.symm
    next => exact Or.inl hb
  exact (((poolPut (by decide)).trans (hentry _)).trans (poolPut (by decide))).trans
    (poolPut (by decide))

theorem deleteOwner (dCount : Bytes) : ListsMore a (deleteOwner a o u dCount) :=
  ((poolRemove _ _).trans (poolRemove _ _)).trans (poolRemove _ _)

theorem createShare : ListsMore a (createShare a u t o q) :=
  (poolPut (by decide)).trans (poolPut (by decide))

theorem transfer (h : Bitmarkd.transfer a u t n o new q = .ok a') : ListsMore a a' := by
  obtain ⟨dCount, d, -, -, ⟨-, -, rfl⟩ | ⟨-, o', item, -, -, hcreate⟩ | ⟨-, s, -, hcreate⟩⟩ :=
    transfer_eq_ok h
  · exact deleteOwner dCount
  · exact (deleteOwner dCount).trans (create hcreate)
  · exact ((deleteOwner dCount).trans createShare).trans (create hcreate)

theorem storeRecord (number : UInt64) (item : Txn) : ListsMore a (a.storeRecord number item) :=
  poolPut (by decide)

/-! ## Blocks -/

theorem applied {item : Txn} (h : Applied env n a item a') : ListsMore a a' := by
  cases h with
  | assetKnown | issueKnown => exact refl _
  | asset => exact poolPut (by decide)
  | issue _ _ hcreate => exact (storeRecord n item).trans (create hcreate)
  | transfer _ _ htransfer => exact (storeRecord n item).trans (transfer htransfer)
  | blockOwner _ _ _ htransfer =>
    exact ((((storeRecord n item).trans (poolPut (by decide))).trans (poolPut (by decide))).trans
      (poolRemove _ _)).trans (transfer htransfer)
  | share _ _ hshare => exact (storeRecord n item).trans (transfer hshare)
  | grant _ hgrant =>
    exact (of_touches (updateShareGrant_touches hgrant) (by decide)).trans (storeRecord n item)
  | swap _ hswap =>
    exact (of_touches (updateShareSwap_touches hswap) (by decide)).trans (storeRecord n item)

theorem appliedAll {items : List Txn} (h : AppliedAll env n a items a') : ListsMore a a' := by
  induction h with
  | nil a => exact refl a
  | cons happlied _ ih => exact (applied happlied).trans ih

theorem updateBlock {height : UInt64} {rebuild : Bool} {packedBlock : Bytes} {header : Header}
    {digest : BlockDigest} {txs : List Txn} {foundation : Foundation}
    (h : Bitmarkd.updateBlock env height rebuild packedBlock header digest txs foundation a =
      .ok a') : ListsMore a a' := by
  obtain ⟨a₁, a₂, hall, hfoundation, -, rfl⟩ := updateBlock_eq_ok h
  have hblock : ListsMore a a₂ := (appliedAll hall).trans
    ((((poolPut (by decide)).trans (poolPut (by decide))).trans (poolPut (by decide))).trans
      (create hfoundation))
  split
  · exact hblock
  · exact hblock.trans ((poolPut (by decide)).trans (poolPut (by decide)))

theorem unapplied {tx : Transaction} (h : Unapplied env a txId tx a') : ListsMore a a' := by
  cases h with
  | foundation | issueUnknown => exact refl _
  | asset => exact poolRemove _ _
  | issue _ _ htransfer => exact (poolRemove _ _).trans (transfer htransfer)
  | transfer _ _ htransfer => exact (poolRemove _ _).trans (transfer htransfer)
  | blockOwner _ _ _ _ htransfer _ =>
    exact (((poolRemove _ _).trans (transfer htransfer)).trans
      ((poolPut (by decide)).trans (poolPut (by decide)))).trans (poolRemove _ _)
  | share _ _ _ _ htransfer =>
    exact (((poolRemove _ _).trans (poolRemove _ _)).trans (poolRemove _ _)).trans
      (transfer htransfer)
  | grant _ hundo =>
    exact of_touches (touches_of_removeRecord (undoShareGrant_frame hundo)) (by decide)
  | swap _ hundo =>
    exact of_touches (touches_of_removeRecord (undoShareSwap_frame hundo)) (by decide)

end ListsMore

/-- Every key of pool `OwnerList` is that of an entry. -/
def ListEntries (v : View) : Prop := ∀ ⦃k b⦄, v.get .ownerList k = some b → IsListEntry k b

section

variable {env : Env} {a a' : Access}

theorem ListEntries.more (h : ListEntries a.pending) (hmore : ListsMore a a') :
    ListEntries a'.pending := by
  intro k b hb
  rcases hmore hb with hb | hentry
  · exact h hb
  · exact hentry

theorem ListEntries.undone {rs : List (Bytes × Transaction)} (h : Undone env a rs a')
    (hclean : a.Clean) (ha : ListEntries a.committed) : ListEntries a'.committed := by
  induction h with
  | nil a => exact ha
  | @cons a trx a' packed tx rs huse hundo _ ih =>
    refine ih (Overlay.clean_commit _) ?_
    rw [committed_commit]
    refine ListEntries.more ?_ (ListsMore.unapplied (unapplied_of_undoTransaction hundo))
    rwa [pending_begin, Access.pending_of_clean hclean]

theorem ListEntries.deleteBlock {header : Header} {digest : BlockDigest} {data : Bytes}
    {previous : Option Bytes} (hclean : a.Clean) (ha : ListEntries a.committed)
    (h : Bitmarkd.deleteBlock env a header digest data = (.ok previous, a')) :
    ListEntries a'.committed := by
  obtain ⟨rs, a₁, trx, -, -, hundone, -, hfoundation, -, rfl⟩ := deleteBlock_eq_ok h
  obtain ⟨trx₁, hrelease, rfl⟩ := deleteFoundation_eq_ok hfoundation
  have hclean₁ := (hundone.frame hclean).1
  have h₁ := ListEntries.undone hundone hclean ha
  have hbegin : ListEntries (Access.pending a₁.begin) := by
    rwa [pending_begin, Access.pending_of_clean hclean₁]
  have hreleased : ListEntries trx₁.pending := by
    cases howner : blockOwnerOf none rs with
    | none =>
      rw [howner] at hrelease
      cases hrelease
      have habort : Access.pending (Overlay.ofDb a₁.db) = a₁.committed :=
        Access.pending_of_clean (Overlay.clean_ofDb a₁.db)
      exact fun k b hb => h₁ (habort ▸ hb)
    | some owner =>
      rw [howner] at hrelease
      have htransfer : Bitmarkd.transfer _ _ _ 0 owner none 0 = .ok trx₁ := hrelease
      exact hbegin.more ((ListsMore.poolRemove _ _).trans (ListsMore.transfer htransfer))
  rw [committed_commit]
  exact hreleased.more (((ListsMore.poolRemove _ _).trans (ListsMore.poolRemove _ _)).trans
    ((ListsMore.poolRemove _ _).trans (ListsMore.poolRemove _ _)))

/-- **Every call** keeps the format of the owner lists. -/
theorem ListEntries.step {node node' : Node} {op : Op} (hn : node.OnChain env)
    (h : ListEntries node.access.committed) (hstep : Step env node op node') :
    ListEntries node'.access.committed := by
  cases op with
  | storeIncoming now packedBlock packedNextBlock =>
    obtain ⟨i, a, hacc, -, hupdate, rfl⟩ := storeIncoming_eq_ok.mp hstep
    rw [show (node.stored i a).access.committed = a.pending from committed_commit a]
    refine ListEntries.more ?_ (ListsMore.updateBlock hupdate)
    rwa [pending_begin, Access.pending_of_clean hn.clean]
  | deleteDownToBlock now finalBlockNumber =>
    exact (hn.delete (P := fun a _ => ListEntries a.committed) hstep
      (fun hclean _ _ _ _ _ _ hdelete _ hP => hP.deleteBlock hclean hdelete) h).1

/-- **Every reachable node** has entries in its owner lists only. -/
theorem NodeRun.ownerList_entries {trace : List (Node × Op)} {node : Node}
    (hr : NodeRun env trace node) : ListEntries node.access.committed := by
  have hboth : node.OnChain env ∧ ListEntries node.access.committed := by
    refine hr.invariant (P := fun node => node.OnChain env ∧ ListEntries node.access.committed)
      (guarded_true trace) ⟨onChain_fresh env, fun _ _ hb => nomatch hb⟩ ?_
    intro node op node' hn _ hstep
    exact ⟨hn.1.step hstep, hn.2.step hn.1 hstep⟩
  exact hboth.2

end

end Bitmarkd
