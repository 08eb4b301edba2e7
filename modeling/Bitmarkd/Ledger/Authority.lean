import Bitmarkd.Ledger.Owner
import Bitmarkd.Sample
import Bitmarkd.Share.Balance

/-!
# Only the owner moves property

A head changes its owner only by a record that links to it, and that record is signed by the owner
it had (`Node.Consistent.owner_signed`). Balances are not as safe. A grant or a swap is signed by
the accounts that give, but storing a block adds what an account receives to its balance modulo
2^64, and a share record sets the balance of the link owner anew. `KeepsShares` says of the records
of a block when neither lowers the balance of an account that gives nothing; `only_owner_moves_iff`
says that the block takes nothing from anyone without a signature exactly then.
-/

namespace Bitmarkd

open Lib Lib.Provenance

/-! ## Signatures -/

namespace Transaction

/-- The first signature of the record is by the account. -/
def SignedBy (env : Env) (o : Account) (tx : Transaction) : Prop :=
  ∃ s, tx.signatures.head? = some s ∧ o.checkSignature env tx.message s = .ok ()

/-- The second signature of the record, which is also over the first, is by the account. -/
def CountersignedBy (env : Env) (o : Account) (tx : Transaction) : Prop :=
  ∃ s s', tx.signatures = [s, s'] ∧
    o.checkSignature env (tx.message ++ packBytes s) s' = .ok ()

/-- The record gives away shares of the account. -/
def Gives (o : Account) (s : Digest) : Transaction → Prop
  | .shareGrant tx => tx.owner.account = o ∧ tx.shareId = s
  | .shareSwap tx => tx.ownerOne.account = o ∧ tx.shareIdOne = s ∨
      tx.ownerTwo.account = o ∧ tx.shareIdTwo = s
  | _ => False

instance (o : Account) (s : Digest) : (tx : Transaction) → Decidable (tx.Gives o s)
  | .shareGrant _ => inferInstanceAs (Decidable (_ ∧ _))
  | .shareSwap _ => inferInstanceAs (Decidable (_ ∨ _))
  | .oldBaseData _ | .assetData _ | .bitmarkIssue _ | .bitmarkTransferUnratified _
  | .bitmarkTransferCountersigned _ | .blockFoundation _ | .blockOwnerTransfer _
  | .bitmarkShare _ => inferInstanceAs (Decidable False)

/-- The record gives away shares of the account, which has signed it. -/
def GivesSigned (env : Env) (o : Account) (s : Digest) (tx : Transaction) : Prop :=
  match tx with
  | .shareGrant grant => grant.owner.account = o ∧ grant.shareId = s ∧ tx.SignedBy env o
  | .shareSwap swap => swap.ownerOne.account = o ∧ swap.shareIdOne = s ∧ tx.SignedBy env o ∨
      swap.ownerTwo.account = o ∧ swap.shareIdTwo = s ∧ tx.CountersignedBy env o
  | _ => False

theorem GivesSigned.gives {env : Env} {o : Account} {s : Digest} {tx : Transaction}
    (h : tx.GivesSigned env o s) : tx.Gives o s := by
  cases tx with
  | shareGrant tx => exact ⟨h.1, h.2.1⟩
  | shareSwap tx => exact h.imp (fun h => ⟨h.1, h.2.1⟩) fun h => ⟨h.1, h.2.1⟩
  | _ => exact h

end Transaction

theorem ShareSwap.countersigned_of_pack {env : Env} {tx : ShareSwap} {address : AccountPtr}
    {packed : Bytes} (h : tx.pack env address = .ok packed) :
    (Transaction.shareSwap tx).CountersignedBy env tx.ownerTwo.account := by
  obtain ⟨_, -, h⟩ := bind_eq_ok.mp h
  obtain ⟨⟨⟩, -, h⟩ := bind_eq_ok.mp h
  obtain ⟨⟨⟩, -, h⟩ := bind_eq_ok.mp h
  obtain ⟨⟨⟩, -, h⟩ := bind_eq_ok.mp h
  obtain ⟨⟨⟩, hcheck, -⟩ := bind_eq_ok.mp h
  refine ⟨tx.signature, tx.countersignature, rfl, ?_⟩
  simpa [Transaction.message, Transaction.tag, Transaction.fields] using hcheck

section Valid

variable {env : Env} {v : View} {suppress : Bool} {la : List AssetIdentifier} {item : Txn}
  {o : Account} {s : Digest}

/-- **Validation** checks the signature of an account that gives. -/
theorem ValidItem.givesSigned (hv : ValidItem env v suppress la item)
    (h : item.unpacked.Gives o s) : item.unpacked.GivesSigned env o s := by
  have hvalid := hv.valid
  cases htx : item.unpacked with
  | shareGrant tx =>
    rw [htx] at hvalid h
    obtain ⟨packed, hpack, -⟩ := bind_eq_ok.mp hvalid
    have hpacked : (Transaction.shareGrant tx).pack env tx.owner = .ok packed := hpack
    have hsigned := (Transaction.pack_eq_ok hpacked).signed
    obtain ⟨rfl, rfl⟩ := h
    exact ⟨rfl, rfl, hsigned⟩
  | shareSwap tx =>
    rw [htx] at hvalid h
    obtain ⟨packed, hpack, -⟩ := bind_eq_ok.mp hvalid
    have hpacked : (Transaction.shareSwap tx).pack env tx.ownerOne = .ok packed := hpack
    have hsigned := (Transaction.pack_eq_ok hpacked).signed
    rcases h with ⟨rfl, rfl⟩ | ⟨rfl, rfl⟩
    · exact Or.inl ⟨rfl, rfl, hsigned⟩
    · exact Or.inr ⟨rfl, rfl, ShareSwap.countersigned_of_pack hpack⟩
  | _ =>
    rw [htx] at h
    exact h.elim

end Valid

/-! ## Heads -/

section Heads

variable {env : Env} {K : Set Bytes} {now : UInt64} {packedBlock : Bytes}
  {packedNextBlock : Option Bytes} {node : Node} {i : Incoming} {a : Access} {t : Digest}
  {o : Account}

/-- A record under the id of a head is an issue. -/
theorem Sound.issue_of_head {v : View} {h : ℕ} (hs : Sound env K v h)
    (hK : Set.InjOn env.newDigest K) {item : Txn} (hitem : Admitted env K v item)
    (hf : ¬ item.unpacked.IsFoundation) {d : OwnerData} (hhead : v.head item.txId = some d) :
    ∃ tx, item.unpacked = .bitmarkIssue tx := by
  obtain ⟨b, r, hentry, hcan⟩ := hs.inv.head_entry hhead
  obtain rfl := hitem.same hK hs.wf hentry
  have hnew := hs.record_eq_none hK hitem
  have hlink : item.unpacked.link? = none := by
    by_contra hl
    exact absurd ((hnew hl).symm.trans hentry) (by simp)
  have hholder := hcan.resolve_right fun hl => hl hlink
  cases htx : item.unpacked with
  | bitmarkIssue tx => exact ⟨tx, rfl⟩
  | _ => simp_all [Transaction.IsFoundation, Transaction.link?, ownershipScheme,
      Transaction.holder?]

/-- **A head that an account loses** is the link of a record that the account has signed. -/
theorem StoresBlock.owner_signed (h : StoresBlock env K now packedBlock packedNextBlock node i a)
    (howns : currentlyOwns node.access.committed o t = true)
    (hlost : currentlyOwns (node.stored i a).access.committed o t = false) :
    ∃ item ∈ i.items, item.unpacked.link? = some t ∧ item.unpacked.SignedBy env o := by
  obtain ⟨d, hhead⟩ := h.sound.inv.owns_head howns
  obtain ⟨b, r, hentry, -⟩ := h.sound.inv.head_entry hhead
  by_contra hno
  have hl : ∀ item ∈ i.items, item.unpacked.link? ≠ some t := by
    intro item hitem hl
    obtain ⟨suppress, la, hv⟩ := (h.admitted_items item hitem).valid
    obtain ⟨o₁, b₁, r₁, d₁, howner, hlink, -⟩ := h.sound.linkFound hv hl
    obtain ⟨o₂, bn, packed, howner', -, hpack⟩ := hv.pack_eq_ok hl
    obtain rfl := Option.some.inj (howner.symm.trans howner')
    obtain rfl := h.sound.inv.owner_unique howns hlink.owns
    have hsigned := (Transaction.pack_eq_ok hpack).signed
    refine hno ⟨item, hitem, hl, ?_⟩
    cases htx : item.unpacked with
    | shareGrant tx | shareSwap tx =>
      rw [htx] at hl
      cases hl
    | _ =>
      rw [htx] at hsigned
      exact hsigned
  obtain ⟨a₁, a₂, happlied, -⟩ := updateBlock_eq_ok h.update
  have hsame := h.sameHead hentry hl fun item hitem hid => by
    subst hid
    exact h.sound.issue_of_head h.injOn (h.admitted_items item hitem)
      (happlied.not_foundation item hitem) hhead
  rw [currentlyOwns, View.has, hsame.index, ← View.has, ← currentlyOwns, howns] at hlost
  cases hlost

end Heads

/-! ## Balances -/

/-- The account can convert the link to shares with this id. -/
def View.Converts (v : View) (o : Account) (s link : Digest) : Prop :=
  currentlyOwns v o link = true ∧ (v.head link).map OwnerData.issueTxId = some s

instance (v : View) (o : Account) (s link : Digest) : Decidable (v.Converts o s link) :=
  inferInstanceAs (Decidable (_ ∧ _))

/-- The record converts a bitmark of the account to shares with this id. -/
def Transaction.Converts (v : View) (o : Account) (s : Digest) (tx : Transaction) : Prop :=
  ∃ share, tx = .bitmarkShare share ∧ v.Converts o s share.link

/-- What the account gets of a share by the record. -/
def Transaction.received (o : Account) (s : Digest) : Transaction → ℕ
  | .shareGrant tx =>
    if tx.recipient.account = o ∧ tx.shareId = s then tx.quantity.toNat else 0
  | .shareSwap tx =>
    if tx.ownerTwo.account = o ∧ tx.shareIdOne = s then tx.quantityOne.toNat
    else if tx.ownerOne.account = o ∧ tx.shareIdTwo = s then tx.quantityTwo.toNat
    else 0
  | _ => 0

/-- What the account gets of a share by some records. -/
def totalReceived (o : Account) (s : Digest) (txs : List Transaction) : ℕ :=
  (txs.map (·.received o s)).sum

/-- **The records do not lower the balance** of an account that gives nothing. If none of them
converts a bitmark, what the account gets does not overflow its balance. Otherwise the quantity of
the last conversion, and what the account gets after it, is no less than the balance: so it is if
the account has no share of the issue. -/
structure KeepsShares (v : View) (o : Account) (s : Digest) (txs : List Transaction) : Prop where
  received : (∀ tx ∈ txs, ¬ tx.Converts v o s) →
    (v.quantity o s).toNat + totalReceived o s txs % 2 ^ 64 < 2 ^ 64
  converted : ∀ before share after, txs = before ++ .bitmarkShare share :: after →
    v.Converts o s share.link → (∀ tx ∈ after, ¬ tx.Converts v o s) →
    (v.quantity o s).toNat ≤ (share.quantity.toNat + totalReceived o s after) % 2 ^ 64

/-- What a record makes of the balance of an account from which it takes nothing. -/
def receive (v : View) (o : Account) (s : Digest) (q : UInt64) : Transaction → UInt64
  | .bitmarkShare tx => if v.Converts o s tx.link then tx.quantity else q
  | .shareGrant tx =>
    if tx.recipient.account = o ∧ tx.shareId = s then q + tx.quantity else q
  | .shareSwap tx =>
    if tx.ownerTwo.account = o ∧ tx.shareIdOne = s then q + tx.quantityOne
    else if tx.ownerOne.account = o ∧ tx.shareIdTwo = s then q + tx.quantityTwo
    else q
  | _ => q

section Receive

variable {v : View} {o : Account} {s : Digest} {q : UInt64} {txs : List Transaction}

theorem toNat_receive {tx : Transaction} (h : ¬ tx.Converts v o s) :
    (receive v o s q tx).toNat = (q.toNat + tx.received o s) % 2 ^ 64 := by
  have hlt := q.toNat_lt
  cases tx with
  | bitmarkShare share =>
    have hno : ¬ v.Converts o s share.link := fun hc => h ⟨share, rfl, hc⟩
    simp [receive, hno, Transaction.received, Nat.mod_eq_of_lt hlt]
  | shareGrant tx =>
    simp only [receive, Transaction.received]
    split_ifs
    · exact UInt64.toNat_add ..
    · exact (Nat.mod_eq_of_lt hlt).symm
  | shareSwap tx =>
    simp only [receive, Transaction.received]
    split_ifs
    · exact UInt64.toNat_add ..
    · exact UInt64.toNat_add ..
    · exact (Nat.mod_eq_of_lt hlt).symm
  | _ => exact (Nat.mod_eq_of_lt hlt).symm

/-- Records without a conversion add up what the account gets. -/
theorem toNat_foldl_receive (h : ∀ tx ∈ txs, ¬ tx.Converts v o s) :
    (txs.foldl (receive v o s) q).toNat = (q.toNat + totalReceived o s txs) % 2 ^ 64 := by
  induction txs generalizing q with
  | nil => exact (Nat.mod_eq_of_lt q.toNat_lt).symm
  | cons tx rest ih =>
    rw [List.forall_mem_cons] at h
    rw [List.foldl_cons, ih h.2, toNat_receive h.1, Nat.mod_add_mod, Nat.add_assoc]
    rfl

/-- Only the last conversion and what comes after it count. -/
theorem toNat_foldl_receive_append {before after : List Transaction} {share : BitmarkShare}
    (hshare : v.Converts o s share.link) (h : ∀ tx ∈ after, ¬ tx.Converts v o s) :
    ((before ++ .bitmarkShare share :: after).foldl (receive v o s) q).toNat =
      (share.quantity.toNat + totalReceived o s after) % 2 ^ 64 := by
  rw [List.foldl_append, List.foldl_cons, receive, if_pos hshare, toNat_foldl_receive h]

theorem exists_last_conversion (h : ∃ tx ∈ txs, tx.Converts v o s) :
    ∃ before share after, txs = before ++ .bitmarkShare share :: after ∧
      v.Converts o s share.link ∧ ∀ tx ∈ after, ¬ tx.Converts v o s := by
  induction txs with
  | nil =>
    obtain ⟨tx, htx, -⟩ := h
    cases htx
  | cons tx rest ih =>
    by_cases hrest : ∃ tx ∈ rest, tx.Converts v o s
    · obtain ⟨before, share, after, rfl, hlast⟩ := ih hrest
      exact ⟨tx :: before, share, after, rfl, hlast⟩
    · obtain ⟨tx', htx', hconverts⟩ := h
      rcases List.mem_cons.mp htx' with rfl | htx'
      · obtain ⟨share, rfl, hshare⟩ := hconverts
        exact ⟨[], share, rest, rfl, hshare, fun tx htx hc => hrest ⟨tx, htx, hc⟩⟩
      · exact absurd ⟨tx', htx', hconverts⟩ hrest

/-- **What the update loop makes of a balance** is not less exactly if the records keep it. -/
theorem le_foldl_receive_iff :
    v.quantity o s ≤ txs.foldl (receive v o s) (v.quantity o s) ↔ KeepsShares v o s txs := by
  have hq := (v.quantity o s).toNat_lt
  rw [UInt64.le_iff_toNat_le]
  by_cases hsome : ∃ tx ∈ txs, tx.Converts v o s
  · constructor
    · intro hle
      refine ⟨fun hnone => ?_, ?_⟩
      · obtain ⟨tx, htx, hc⟩ := hsome
        exact absurd hc (hnone tx htx)
      · rintro before share after rfl hshare hafter
        rwa [toNat_foldl_receive_append hshare hafter] at hle
    · intro hkeeps
      obtain ⟨before, share, after, rfl, hshare, hafter⟩ := exists_last_conversion hsome
      rw [toNat_foldl_receive_append hshare hafter]
      exact hkeeps.converted before share after rfl hshare hafter
  · have hnone : ∀ tx ∈ txs, ¬ tx.Converts v o s := fun tx htx hc => hsome ⟨tx, htx, hc⟩
    -- a sum that overflows ends below the balance
    have hwrap : (v.quantity o s).toNat ≤
        ((v.quantity o s).toNat + totalReceived o s txs) % 2 ^ 64 ↔
        (v.quantity o s).toNat + totalReceived o s txs % 2 ^ 64 < 2 ^ 64 := by
      rw [← Nat.add_mod_mod]
      have hlt := Nat.mod_lt (totalReceived o s txs) (Nat.two_pow_pos 64)
      omega
    rw [toNat_foldl_receive hnone, hwrap]
    constructor
    · intro hlt
      refine ⟨fun _ => hlt, ?_⟩
      rintro before share after rfl hshare -
      exact absurd ⟨share, rfl, hshare⟩ (hnone _ (by simp))
    · exact fun hkeeps => hkeeps.received hnone

end Receive

section Balances

variable {env : Env} {K : Set Bytes} {n : UInt64} {a a' : Access} {item : Txn} {items : List Txn}
  {o : Account} {s : Digest}

/-- **One record** that takes nothing from the account. -/
theorem Updating.receives (hu : Updating env K n a) (hn : 1 ≤ n)
    (hitem : Admitted env K a.committed item) (h : Applied env n a item a')
    (hno : ¬ item.unpacked.Gives o s) (hfresh : a.Fresh o s) :
    a'.pending.quantity o s = receive a.committed o s (a.pending.quantity o s) item.unpacked ∧
      a'.Fresh o s := by
  have hview := hu.wf.view hu.wf₀
  have ht := h.touches
  have hother (hp : .shareQuantity ∉ item.unpacked.pools)
      (hsame : receive a.committed o s (a.pending.quantity o s) item.unpacked =
        a.pending.quantity o s) :
      a'.pending.quantity o s = receive a.committed o s (a.pending.quantity o s) item.unpacked ∧
        a'.Fresh o s := by
    rw [hsame, ht.pending_quantity hp, ht.fresh_iff hp]
    exact ⟨rfl, hfresh⟩
  cases htx : item.unpacked with
  | bitmarkShare tx =>
    obtain ⟨o', d, hconv⟩ := hu.converted hn hitem htx h
    obtain ⟨b, r, hlink⟩ := hconv.link
    have hiff : a.committed.Converts o s tx.link ↔ o = o' ∧ s = d.issueTxId := by
      rw [View.Converts, hlink.head]
      constructor
      · rintro ⟨howns, hid⟩
        exact ⟨hu.storing.inv₀.owner_unique howns hlink.owns, (Option.some.inj hid).symm⟩
      · rintro ⟨rfl, rfl⟩
        exact ⟨hlink.owns, rfl⟩
    simp only [receive, hiff, hconv.quantity, Book.set_apply, true_and]
    exact hconv.fresh.mpr (Or.inr hfresh)
  | shareGrant tx =>
    obtain ⟨a₁, hupdate, rfl⟩ := h.of_grant htx
    rw [htx] at hno
    have hgiver : ¬ (o = tx.owner.account ∧ s = tx.shareId) := fun hc => hno ⟨hc.1.symm, hc.2.symm⟩
    have hstore := storeRecord_touches a₁ n item
    rw [hstore.pending_quantity (by decide), hstore.fresh_iff (by decide),
      updateShareGrant_quantity hview hupdate, updateShareGrant_eq hview hupdate,
      fresh_poolPutN_iff, fresh_setBalance_of_ne hgiver]
    refine ⟨?_, Or.inr hfresh⟩
    rw [Book.set_apply, Book.set_of_ne hgiver, receive]
    by_cases htaker : o = tx.recipient.account ∧ s = tx.shareId
    · obtain ⟨rfl, rfl⟩ := htaker
      simp [hfresh.quantity_eq]
    · have htaker' : ¬ (tx.recipient.account = o ∧ tx.shareId = s) :=
        fun hc => htaker ⟨hc.1.symm, hc.2.symm⟩
      simp [htaker, htaker']
  | shareSwap tx =>
    obtain ⟨a₁, hupdate, rfl⟩ := h.of_swap htx
    rw [htx] at hno
    have hone : ¬ (o = tx.ownerOne.account ∧ s = tx.shareIdOne) :=
      fun hc => hno (Or.inl ⟨hc.1.symm, hc.2.symm⟩)
    have htwo : ¬ (o = tx.ownerTwo.account ∧ s = tx.shareIdTwo) :=
      fun hc => hno (Or.inr ⟨hc.1.symm, hc.2.symm⟩)
    have hstore := storeRecord_touches a₁ n item
    rw [hstore.pending_quantity (by decide), hstore.fresh_iff (by decide),
      updateShareSwap_quantity hview hupdate, updateShareSwap_eq hview hupdate,
      fresh_poolPutN_iff, fresh_setBalance_of_ne htwo, fresh_poolPutN_iff,
      fresh_setBalance_of_ne hone]
    refine ⟨?_, Or.inr (Or.inr hfresh)⟩
    rw [Book.set_apply, Book.set_of_ne htwo, Book.set_apply, Book.set_of_ne hone, receive]
    -- at most one of the two sides of the swap is for this balance
    by_cases htakes₁ : o = tx.ownerOne.account ∧ s = tx.shareIdTwo
    · obtain ⟨rfl, rfl⟩ := htakes₁
      have hne : ¬ (tx.ownerTwo.account = tx.ownerOne.account ∧ tx.shareIdOne = tx.shareIdTwo) :=
        fun hc => hone ⟨rfl, hc.2.symm⟩
      simp [hfresh.quantity_eq, hne]
    · have htakes₁' : ¬ (tx.ownerOne.account = o ∧ tx.shareIdTwo = s) :=
        fun hc => htakes₁ ⟨hc.1.symm, hc.2.symm⟩
      by_cases htakes₂ : o = tx.ownerTwo.account ∧ s = tx.shareIdOne
      · obtain ⟨rfl, rfl⟩ := htakes₂
        simp [hfresh.quantity_eq, htakes₁]
      · have htakes₂' : ¬ (tx.ownerTwo.account = o ∧ tx.shareIdOne = s) :=
          fun hc => htakes₂ ⟨hc.1.symm, hc.2.symm⟩
        simp [htakes₁, htakes₁', htakes₂, htakes₂']
  | _ =>
    rw [← htx]
    exact hother (by rw [htx]; simp [Transaction.pools, ownershipPools]) (by rw [htx]; rfl)

/-- **The update loop**, when no record takes from the account. -/
theorem Updating.receivesAll (hu : Updating env K n a) (hK : Set.InjOn env.newDigest K)
    (hn : 1 ≤ n) (hitems : ∀ item ∈ items, Admitted env K a.committed item)
    (h : AppliedAll env n a items a') (hno : ∀ item ∈ items, ¬ item.unpacked.Gives o s)
    (hfresh : a.Fresh o s) : a'.pending.quantity o s =
      (items.map Txn.unpacked).foldl (receive a.committed o s) (a.pending.quantity o s) := by
  induction h with
  | nil a => rfl
  | cons h _ ih =>
    rw [List.forall_mem_cons] at hitems hno
    obtain ⟨hquantity, hfresh'⟩ := hu.receives hn hitems.1 h hno.1 hfresh
    have hcommitted := h.touches.committed
    have hrest := ih (hu.applied hK hn hitems.1 h) (by rw [hcommitted]; exact hitems.2) hno.2
      hfresh'
    rw [hrest, hcommitted, hquantity]
    rfl

end Balances

/-! ## Accepted blocks -/

section Store

variable {env : Env} {K : Set Bytes} {now : UInt64} {packedBlock : Bytes}
  {packedNextBlock : Option Bytes} {node node' : Node} {i : Incoming} {a : Access}

/-- The balance of an account from which no record of the block takes. -/
theorem StoresBlock.received (h : StoresBlock env K now packedBlock packedNextBlock node i a)
    {o : Account} {s : Digest} (hno : ∀ item ∈ i.items, ¬ item.unpacked.Gives o s) :
    (node.stored i a).access.committed.quantity o s =
      (i.items.map Txn.unpacked).foldl (receive node.access.committed o s)
        (node.access.committed.quantity o s) := by
  obtain ⟨a₁, a₂, happlied, hfoundation, -, ha⟩ := updateBlock_eq_ok h.update
  have hclean := h.onChain.clean
  have hloop := h.begin.receivesAll h.injOn h.one_le h.admitted_items happlied hno
    (fresh_of_clean hclean o s)
  rw [pending_begin, Access.pending_of_clean hclean] at hloop
  rw [show (node.stored i a).access.committed = a.pending from committed_commit a, ha,
    h.onChain.rebuild]
  refine Eq.trans ?_ hloop
  simp only [Bool.false_eq_true, if_false]
  rw [(storeBlock_touches ..).pending_quantity (by decide),
    (updateFoundation_touches hfoundation).pending_quantity (by decide)]

/-- The block takes nothing from anyone who has not signed for it: neither a head nor shares. -/
structure OnlyOwnersMove (env : Env) (items : List Txn) (v v' : View) : Prop where
  heads : ∀ {o t}, currentlyOwns v o t = true → currentlyOwns v' o t = false →
    ∃ item ∈ items, item.unpacked.link? = some t ∧ item.unpacked.SignedBy env o
  shares : ∀ {o s}, v'.quantity o s < v.quantity o s →
    ∃ item ∈ items, item.unpacked.GivesSigned env o s

/-- **Every block that a reachable node accepts** moves property by its owners only, exactly if its
records keep the balances of the accounts that give nothing. -/
theorem only_owner_moves_iff {trace : List (Node × Op)} (hr : NodeRun env trace node)
    (hstep : Step env node (.storeIncoming now packedBlock packedNextBlock) node')
    (hfree : CollisionFree env
      (trace ++ [(node, .storeIncoming now packedBlock packedNextBlock)])) :
    OnlyOwnersMove env ((Op.storeIncoming now packedBlock packedNextBlock).items env node)
        node.access.committed node'.access.committed ↔
      ∀ o s, (∀ item ∈ (Op.storeIncoming now packedBlock packedNextBlock).items env node,
          ¬ item.unpacked.Gives o s) →
        KeepsShares node.access.committed o s
          (((Op.storeIncoming now packedBlock packedNextBlock).items env node).map
            Txn.unpacked) := by
  obtain ⟨i, a, hacc, -, hupdate, rfl⟩ := storeIncoming_eq_ok.mp hstep
  obtain ⟨hn, hmem⟩ := hr.consistent_snoc hfree
  have hstores := hn.stores hfree.injOn hmem hacc hupdate
  rw [hacc.items_eq]
  constructor
  · intro honly o s hno
    rw [← le_foldl_receive_iff, ← hstores.received hno]
    by_contra hlt
    obtain ⟨item, hitem, hgives⟩ := honly.shares (UInt64.not_le.mp hlt)
    exact hno item hitem hgives.gives
  · intro hall
    refine ⟨fun howns hlost => hstores.owner_signed howns hlost, ?_⟩
    intro o s hlt
    by_contra hno
    have hgives : ∀ item ∈ i.items, ¬ item.unpacked.Gives o s := by
      intro item hitem hg
      obtain ⟨la, hv⟩ := hacc.validItem (Incoming.mem_txs hitem)
      exact hno ⟨item, hitem, hv.givesSigned hg⟩
    have hle := le_foldl_receive_iff.mpr (hall o s hgives)
    rw [← hstores.received hgives] at hle
    exact absurd hlt (UInt64.not_lt.mpr hle)

end Store

/-! ## A balance that wraps around -/

namespace Sample

/-- The first account converts a bitmark to 2^63 + 1 shares, gives one of them to the second, and
grants itself so many that it has 2^64 - 1. -/
def inflateOps : List Op :=
  storeAll 2 [[asset 1, issue 1 0x11 1], [share (id 0x11) 0x12 0x8000000000000001],
    [grant (id 0x11) 0x13 1 2 1], [grant (id 0x11) 0x14 1 1 0x7fffffffffffffff]]

/-- Then it gives all of them to the second account. -/
def overflowOp : Op :=
  fastSync (block 2 6 testGenesisDigest 10
    [foundation, grant (id 0x11) 0x15 1 2 0xffffffffffffffff]) 6 (id 6)

theorem overflowOp_facts : (runOps env inflateOps (Node.fresh env)).isSome = true ∧
    (overflowOp.run env (after inflateOps)).1.isOk = true ∧
    CollisionFree env
      (traceOps env inflateOps (Node.fresh env) ++ [(after inflateOps, overflowOp)]) ∧
    (∀ item ∈ overflowOp.items env (after inflateOps),
      ¬ item.unpacked.Gives (account 2) (id 0x11)) ∧
    (overflowOp.run env (after inflateOps)).2.access.committed.quantity (account 2) (id 0x11) <
      (after inflateOps).access.committed.quantity (account 2) (id 0x11) := by
  decide +kernel

theorem overflowOp_takes : ¬ OnlyOwnersMove env (overflowOp.items env (after inflateOps))
    (after inflateOps).access.committed
    (overflowOp.run env (after inflateOps)).2.access.committed := by
  intro h
  obtain ⟨-, -, -, hnone, hquantity⟩ := overflowOp_facts
  obtain ⟨item, hitem, hgives⟩ := h.shares hquantity
  exact hnone item hitem hgives.gives

/-- The second account has given nothing, and loses its share. -/
theorem overflow_accepted : ∃ trace node node', NodeRun env trace node ∧
    Step env node overflowOp node' ∧ CollisionFree env (trace ++ [(node, overflowOp)]) ∧
    ¬ OnlyOwnersMove env (overflowOp.items env node) node.access.committed
      node'.access.committed := by
  obtain ⟨hrun, hok, hfree, -⟩ := overflowOp_facts
  exact ⟨_, _, _, nodeRun_after hrun, step_of_isOk hok, hfree, overflowOp_takes⟩

/-- The first account converts a bitmark to five shares. -/
def convertOps : List Op :=
  storeAll 2 [[asset 1, issue 1 0x11 1], [share (id 0x11) 0x12 5]]

/-- Then it gives three of them to the second account. -/
def grantOp : Op :=
  fastSync (block 2 4 testGenesisDigest 10 [foundation, grant (id 0x11) 0x13 1 2 3]) 4 (id 4)

/-- A grant is signed by the account that gives. -/
theorem only_owner_moves_grant : OnlyOwnersMove env (grantOp.items env (after convertOps))
    (after convertOps).access.committed
    (grantOp.run env (after convertOps)).2.access.committed := by
  have hfacts : (runOps env convertOps (Node.fresh env)).isSome = true ∧
      (grantOp.run env (after convertOps)).1.isOk = true ∧
      CollisionFree env
        (traceOps env convertOps (Node.fresh env) ++ [(after convertOps, grantOp)]) ∧
      (grantOp.items env (after convertOps)).map Txn.unpacked = [grant (id 0x11) 0x13 1 2 3] ∧
      (after convertOps).access.committed.quantity (account 2) (id 0x11) = 0 := by
    decide +kernel
  obtain ⟨hrun, hok, hfree, hitems, hzero⟩ := hfacts
  have hstep := step_of_isOk hok
  have hkeeps : ∀ o s, KeepsShares (after convertOps).access.committed o s
      ((grantOp.items env (after convertOps)).map Txn.unpacked) := by
    intro o s
    rw [hitems]
    refine ⟨fun _ => ?_, ?_⟩
    · by_cases htaker : account 2 = o ∧ id 0x11 = s
      · have hthree : totalReceived (account 2) (id 0x11) [grant (id 0x11) 0x13 1 2 3] = 3 := by
          decide +kernel
        rw [← htaker.1, ← htaker.2, hzero, hthree]
        decide
      · have hnone : totalReceived o s [grant (id 0x11) 0x13 1 2 3] = 0 := by
          simp [totalReceived, grant, Transaction.received, htaker]
        rw [hnone, Nat.zero_mod, Nat.add_zero]
        exact UInt64.toNat_lt _
    · intro before share after heq
      have hmem : Transaction.bitmarkShare share ∈ [grant (id 0x11) 0x13 1 2 3] := by
        rw [heq]
        exact List.mem_append_right _ List.mem_cons_self
      cases List.mem_singleton.mp hmem
  obtain ⟨now, packedBlock, packedNextBlock, hop⟩ :
    ∃ now b nb, grantOp = .storeIncoming now b nb := ⟨_, _, _, rfl⟩
  rw [hop] at hstep hfree hkeeps ⊢
  exact (only_owner_moves_iff (nodeRun_after hrun) hstep hfree).mpr fun o s _ => hkeeps o s

end Sample

end Bitmarkd
