import Bitmarkd.Ledger.Reachable
import Bitmarkd.Sample

/-!
# Double spends

A bitmark or a block foundation should have one head, and the head one owner. `StoreIncoming`
checks each transaction of a block against the database before the block, so two transactions of
one block can spend the same link and leave two heads. This is the only way: if the links of the
transactions of every block are different, no link is ever spent twice (`spentOnce_of_blocks`) and
every head is unique (`one_head_each`).
-/

namespace Bitmarkd

open Lib Lib.Provenance

/-- The records do not spend the same link. -/
def LinksApart (x y : Bytes × Transaction) : Prop := x.2.link? = none ∨ x.2.link? ≠ y.2.link?

instance : DecidableRel LinksApart := fun _ _ => inferInstanceAs (Decidable (_ ∨ _))

instance : Std.Symm LinksApart where
  symm x y h := by
    unfold LinksApart at *
    grind

/-- No two records of a block spend the same link, be they different records or one that comes
twice. -/
def DistinctLinks (rs : List (Bytes × Transaction)) : Prop := rs.Pairwise LinksApart

instance (rs : List (Bytes × Transaction)) : Decidable (DistinctLinks rs) :=
  inferInstanceAs (Decidable (List.Pairwise _ _))

theorem DistinctLinks.eq_of_link {rs : List (Bytes × Transaction)} (h : DistinctLinks rs)
    {x y : Bytes × Transaction} (hx : x ∈ rs) (hy : y ∈ rs) {l : Digest}
    (hlx : x.2.link? = some l) (hly : y.2.link? = some l) : x = y := by
  by_contra hne
  have hapart := List.Pairwise.forall h hx hy hne
  simp [LinksApart, hlx, hly] at hapart

section OneHead

variable {env : Env} {K : Set Bytes} {node : Node} {trace : List (Node × Op)}

/-- All spenders of a link came in one block, so different links in each block are enough. -/
theorem spentOnce_of_blocks (hn : node.Consistent env K) (hK : Set.InjOn env.newDigest K)
    (hblocks : ∀ {n d rs}, BlockAt env node.access.committed n d rs → DistinctLinks rs) :
    ownershipScheme.SpentOnce (node.access.committed.ledger env) := by
  intro t t' l b b' r r' hr hr' hl hl'
  obtain rfl := hn.sound.inv.same_link hr hr' hl hl'
  have hlink : r.link? ≠ none := by simp [show r.link? = some l from hl]
  have hlink' : r'.link? ≠ none := by simp [show r'.link? = some l from hl']
  obtain ⟨n, d, rs, packed, rfl, hat, hx, rfl⟩ :=
    hn.listed_of_record hK hr (Transaction.not_isFoundation_of_link? hlink)
  obtain ⟨n', d', rs', packed', hnum, hat', hx', rfl⟩ :=
    hn.listed_of_record hK hr' (Transaction.not_isFoundation_of_link? hlink')
  obtain rfl := UInt64.toNat_inj.mp hnum
  obtain ⟨rfl, rfl⟩ := hat.unique hat'
  rw [(Prod.mk.inj ((hblocks hat).eq_of_link hx hx' hl hl')).1]

/-- **One head each.** If no block with two transactions of one link is stored, the owner data with
one issue tx id is under one tx id, which has exactly one owner, and no block of the database has
two transactions with the same link. -/
theorem one_head_each (hr : NodeRun env trace node) (hfree : CollisionFree env trace)
    (hlinks : Guarded (fun node op => DistinctLinks (op.listed env node)) trace) :
    (∀ t t' data data', getOwnerData node.access.committed t = .ok data →
      getOwnerData node.access.committed t' = .ok data' → data.issueTxId = data'.issueTxId →
      t = t') ∧
    (∀ t data, getOwnerData node.access.committed t = .ok data →
      ∃! o, currentlyOwns node.access.committed o t = true) ∧
    ∀ n d rs, BlockAt env node.access.committed n d rs → DistinctLinks rs := by
  have hn := hr.consistent_of_collisionFree hfree
  have hinv := hn.sound.inv
  have hbound {t : Digest} {b : ℕ} {r : Transaction}
      (he : (node.access.committed.ledger env).entry t = some (b, r)) :
      b < node.header.height.toNat + 1 := Nat.lt_succ_of_le (hn.sound.bound he)
  refine ⟨?_, ?_, fun n d rs hat => hr.blocks hlinks hat⟩
  · intro t t' data data' hd hd' hid
    rw [← View.head_eq_some] at hd hd'
    obtain ⟨b, r, he, -⟩ := hinv.head_entry hd
    obtain ⟨b', r', he', -⟩ := hinv.head_entry hd'
    obtain ⟨s, bs, rs, hroot, -, hfits⟩ := hinv.origin hd he (hbound he)
    obtain ⟨s', bs', rs', hroot', -, hfits'⟩ := hinv.origin hd' he' (hbound he')
    obtain rfl : s = s' := hfits.1.symm.trans (hid.trans hfits'.1)
    refine hinv.head_unique hbound ?_ hd hd' hroot hroot'
    exact spentOnce_of_blocks hn hfree.injOn fun hat => hr.blocks hlinks hat
  · intro t data hd
    rw [← View.head_eq_some] at hd
    obtain ⟨b, r, he, -⟩ := hinv.head_entry hd
    obtain ⟨o, -, hown⟩ := hinv.head_owned hd he (hbound he)
    exact ⟨o, hown, fun o' hown' => hinv.owner_unique hown' hown⟩

end OneHead

/-! ## Two transfers of one bitmark -/

namespace Sample

/-- An asset is issued; one block transfers the bitmark to the second and to the third account. -/
def doubleSpendOps : List Op :=
  storeAll 2 [[asset 1, issue 1 0x11 1],
    [transfer (id 0x11) 0x12 2, transfer (id 0x11) 0x13 3]]

theorem doubleSpendOps_facts : CollisionFree env (traceOps env doubleSpendOps (Node.fresh env)) ∧
    (runOps env doubleSpendOps (Node.fresh env)).any (fun node =>
      decide ((getOwnerData node.access.committed (id 0x12)).toOption.map OwnerData.issueTxId =
          some (id 0x11) ∧
        (getOwnerData node.access.committed (id 0x13)).toOption.map OwnerData.issueTxId =
          some (id 0x11) ∧
        currentlyOwns node.access.committed (account 2) (id 0x12) = true ∧
        currentlyOwns node.access.committed (account 3) (id 0x13) = true)) = true := by
  decide +kernel

/-- The bitmark has two heads, with two owners. -/
theorem doubleSpend_accepted : ∃ trace node, NodeRun env trace node ∧ CollisionFree env trace ∧
    (getOwnerData node.access.committed (id 0x12)).toOption.map OwnerData.issueTxId =
      some (id 0x11) ∧
    (getOwnerData node.access.committed (id 0x13)).toOption.map OwnerData.issueTxId =
      some (id 0x11) ∧
    currentlyOwns node.access.committed (account 2) (id 0x12) = true ∧
    currentlyOwns node.access.committed (account 3) (id 0x13) = true := by
  obtain ⟨hfree, hany⟩ := doubleSpendOps_facts
  obtain ⟨node, hrun, hP⟩ := exists_nodeRun env doubleSpendOps hany
  exact ⟨_, node, hrun, hfree, of_decide_eq_true hP⟩

/-- The bitmark is transferred twice, in two blocks. -/
def transferOps : List Op :=
  storeAll 2 [[asset 1, issue 1 0x11 1], [transfer (id 0x11) 0x12 2], [transfer (id 0x12) 0x13 3]]

theorem transferOps_facts : CollisionFree env (traceOps env transferOps (Node.fresh env)) ∧
    (∀ x ∈ traceOps env transferOps (Node.fresh env), DistinctLinks (x.2.listed env x.1)) ∧
    (runOps env transferOps (Node.fresh env)).any (fun node =>
      decide ((getOwnerData node.access.committed (id 0x13)).toOption.isSome = true)) = true := by
  decide +kernel

/-- The third account is the only owner. -/
theorem one_head_transferOps : ∃ trace node data, NodeRun env trace node ∧
    getOwnerData node.access.committed (id 0x13) = .ok data ∧
    (∀ t data', getOwnerData node.access.committed t = .ok data' →
      data'.issueTxId = data.issueTxId → t = id 0x13) ∧
    ∃! o, currentlyOwns node.access.committed o (id 0x13) = true := by
  obtain ⟨hfree, hlinks, hany⟩ := transferOps_facts
  obtain ⟨node, hrun, hP⟩ := exists_nodeRun env transferOps hany
  have hone := one_head_each hrun hfree hlinks
  rcases hd : getOwnerData node.access.committed (id 0x13) with _ | data
  · simp [hd, Except.toOption] at hP
  · exact ⟨_, node, data, hrun, hd, fun t data' hd' => hone.1 t _ data' data hd' hd,
      hone.2.1 _ data hd⟩

end Sample

end Bitmarkd
