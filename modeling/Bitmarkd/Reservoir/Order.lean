import Bitmarkd.Reservoir.Structure

/-!
# Payments before and after their records

A payment may come before the record it is for: it is then kept as an orphan, and the record is
verified when it is stored. `either_order` compares this with the record coming first.

**One payment.** Both orders lead to the same reservoir, whether the payment is enough or not.

**Two payments.** If a payment with the same pay id is kept already, the orders may differ: a record
that comes first uses the payment that is there, and if that is not enough it is left behind when
the second one is (`Sample.orphan_left`). Both orders agree then only if neither payment is enough.
-/

namespace Bitmarkd

open Lib

/-! ## Comparing reservoirs -/

def TransactionPaymentData.ageless (e : TransactionPaymentData) : TransactionPaymentData :=
  { e with expiresAt := 0 }

def IssuePaymentData.ageless (e : IssuePaymentData) : IssuePaymentData := { e with expiresAt := 0 }

def IssueFreeData.ageless (e : IssueFreeData) : IssueFreeData := { e with expiresAt := 0 }

namespace Reservoir

variable {r r' : Reservoir} {p : PayId} {detail : PaymentDetail}

/-- The same pools, indexes, links, counts, orphans and spend table, up to the expiry times. -/
structure SameButExpiry (r r' : Reservoir) : Prop where
  verifiedTransactions : r.verifiedTransactions = r'.verifiedTransactions
  verifiedFreeIssues : Table.Alike IssueFreeData.ageless r.verifiedFreeIssues r'.verifiedFreeIssues
  verifiedPaidIssues :
    Table.Alike IssuePaymentData.ageless r.verifiedPaidIssues r'.verifiedPaidIssues
  verifiedIndex : r.verifiedIndex = r'.verifiedIndex
  inProgressLinks : r.inProgressLinks = r'.inProgressLinks
  pendingTransactions :
    Table.Alike TransactionPaymentData.ageless r.pendingTransactions r'.pendingTransactions
  pendingFreeIssues : Table.Alike IssueFreeData.ageless r.pendingFreeIssues r'.pendingFreeIssues
  pendingPaidIssues : Table.Alike IssuePaymentData.ageless r.pendingPaidIssues r'.pendingPaidIssues
  pendingIndex : r.pendingIndex = r'.pendingIndex
  pendingFreeCount : r.pendingFreeCount = r'.pendingFreeCount
  pendingPaidCount : r.pendingPaidCount = r'.pendingPaidCount
  orphanPayments : r.orphanPayments = r'.orphanPayments
  spend : r.spend = r'.spend

/-- No record with the pay id is waiting for a payment. -/
structure NotWaiting (r : Reservoir) (p : PayId) : Prop where
  transaction : r.pendingTransactions.lookup p = none
  paid : r.pendingPaidIssues.lookup p = none

/-- A payment that is kept for the pay id, if there is one, is not enough, nor is the new one. -/
def NoneOrNotEnough (r : Reservoir) (p : PayId) (detail : PaymentDetail)
    (payments : List PaymentAlternative) : Prop :=
  ∀ kept, r.orphanPayments.lookup p = some kept →
    kept.paysOne payments = false ∧ detail.paysOne payments = false

theorem NotWaiting.setTransferVerified (h : r.NotWaiting p) (detail : PaymentDetail) :
    r.setTransferVerified p detail = r.addOrphan p detail :=
  setTransferVerified_of_none h.transaction h.paid detail

/-! ## Records that arrive

What arrives with a pay id goes to a pending pool or, if its payment is there, to a verified one.
The two ways into the reservoir are compared for single records and for issues alike. -/

/-- How something that needs the payments gets into a reservoir, by its expiry time: it is made to
wait (`pend`), it is verified at once (`verify`), or it is verified by a payment after it was made
to wait (`move`). -/
structure Arrival (r : Reservoir) (p : PayId) (payments : List PaymentAlternative)
    (pend verify move : Time → Reservoir → Reservoir) : Prop where
  waits (detail : PaymentDetail) (t : Time) : (pend t r).setTransferVerified p detail =
    if detail.paysOne payments then move t r else (pend t r).addOrphan p detail
  verified (t : Time) : (verify t r).NotWaiting p
  pend_alike (detail : PaymentDetail) (t t' : Time) :
    SameButExpiry (pend t (r.addOrphan p detail)) ((pend t' r).addOrphan p detail)
  move_alike (detail : PaymentDetail) (t t' : Time) :
    SameButExpiry (verify t (r.addOrphan p detail))
      { move t' r with orphanPayments := r.orphanPayments.erase p }
  orphans_verify (t : Time) (r : Reservoir) :
    (verify t r).orphanPayments = r.orphanPayments.erase p
  orphans_move (t : Time) : (move t r).orphanPayments = r.orphanPayments
  apart (detail : PaymentDetail) (t t' : Time) :
    ¬ SameButExpiry (pend t (r.addOrphan p detail)) ((verify t' r).addOrphan p detail)

/-- What is there when something arrives: it is verified if the payment kept for it is enough. -/
def arrive (p : PayId) (payments : List PaymentAlternative)
    (pend verify : Time → Reservoir → Reservoir) (t : Time) (r : Reservoir) : Reservoir :=
  if (r.orphanPayments.lookup p).any (·.paysOne payments) then verify t r else pend t r

theorem arrive_addOrphan (p : PayId) (payments : List PaymentAlternative)
    (pend verify : Time → Reservoir → Reservoir) (t : Time) (r : Reservoir)
    (detail : PaymentDetail) :
    arrive p payments pend verify t (r.addOrphan p detail) =
      if detail.paysOne payments then verify t (r.addOrphan p detail)
      else pend t (r.addOrphan p detail) := by
  rw [arrive, addOrphan, Finmap.lookup_insert, Option.any_some]

/-- The orders of a payment and of what it is for. -/
theorem Arrival.equal_results_iff {payments : List PaymentAlternative}
    {pend verify move : Time → Reservoir → Reservoir} (h : Arrival r p payments pend verify move)
    (detail : PaymentDetail) (t t' : Time) :
    SameButExpiry (arrive p payments pend verify t (r.addOrphan p detail))
        ((arrive p payments pend verify t' r).setTransferVerified p detail) ↔
      r.NoneOrNotEnough p detail payments := by
  rw [arrive_addOrphan]
  rcases hkept : r.orphanPayments.lookup p with _ | kept
  · -- no payment is kept: the orders agree
    have harrive : arrive p payments pend verify t' r = pend t' r := by
      rw [arrive, hkept]
      rfl
    have hright : r.NoneOrNotEnough p detail payments := by
      intro kept h
      rw [hkept] at h
      cases h
    rw [harrive, h.waits]
    refine iff_of_true ?_ hright
    by_cases hpays : detail.paysOne payments = true
    · rw [if_pos hpays, if_pos hpays]
      have hmove := h.move_alike detail t t'
      rwa [Table.erase_of_lookup_eq_none hkept, ← h.orphans_move t'] at hmove
    · rw [if_neg hpays, if_neg hpays]
      exact h.pend_alike detail t t'
  · have hgone : (verify t (r.addOrphan p detail)).orphanPayments.lookup p = none := by
      rw [h.orphans_verify, Finmap.lookup_erase]
    have hiff : r.NoneOrNotEnough p detail payments ↔
        kept.paysOne payments = false ∧ detail.paysOne payments = false := by
      simp [NoneOrNotEnough, hkept]
    by_cases hkeptPays : kept.paysOne payments = true
    · -- the payment that is kept verifies a record that comes first, and the new one is kept
      have harrive : arrive p payments pend verify t' r = verify t' r := by
        rw [arrive, hkept, Option.any_some, if_pos hkeptPays]
      rw [harrive, (h.verified t').setTransferVerified]
      refine iff_of_false ?_ ?_
      · split_ifs
        · intro hsame
          rw [hsame.orphanPayments, addOrphan, Finmap.lookup_insert] at hgone
          cases hgone
        · exact h.apart detail t t'
      · rw [hiff, hkeptPays]
        exact fun h => Bool.noConfusion h.1
    · have harrive : arrive p payments pend verify t' r = pend t' r := by
        rw [arrive, hkept, Option.any_some, if_neg hkeptPays]
      rw [harrive, h.waits, hiff]
      by_cases hpays : detail.paysOne payments = true
      · -- the new payment verifies, but only one that comes first replaces the one that is kept
        rw [if_pos hpays, if_pos hpays]
        refine iff_of_false ?_ ?_
        · intro hsame
          rw [hsame.orphanPayments, h.orphans_move, hkept] at hgone
          cases hgone
        · rw [hpays]
          exact fun h => Bool.noConfusion h.2
      · rw [if_neg hpays, if_neg hpays]
        exact iff_of_true (h.pend_alike detail t t')
          ⟨Bool.eq_false_of_not_eq_true hkeptPays, Bool.eq_false_of_not_eq_true hpays⟩

/-! ## Single records -/

/-- Only links and the spend table change, each by itself. -/
def Framed (claim : Reservoir → Reservoir) : Prop :=
  ∃ (links : Table Digest Digest → Table Digest Digest)
    (spend : Table SpendKey UInt64 → Table SpendKey UInt64), ∀ r, claim r =
      { r with inProgressLinks := links r.inProgressLinks, spend := spend r.spend }

theorem framed_claimLink (link txId : Digest) : Framed (claimLink link txId) :=
  ⟨fun links => links.insert link txId, fun spend => spend, fun _ => rfl⟩

theorem framed_spendGrant (grant : ShareGrant) : Framed (spendGrant grant) := by
  let k := makeSpendKey grant.owner.account grant.shareId
  exact ⟨fun links => links,
    fun spend => spend.insert k ((spend.lookup k).getD 0 + grant.quantity), fun _ => rfl⟩

theorem framed_spendSwap (swap : ShareSwap) : Framed (spendSwap swap) := by
  let one := makeSpendKey swap.ownerOne.account swap.shareIdOne
  let two := makeSpendKey swap.ownerTwo.account swap.shareIdTwo
  let add (k : SpendKey) (q : UInt64) (spend : Table SpendKey UInt64) : Table SpendKey UInt64 :=
    spend.insert k ((spend.lookup k).getD 0 + q)
  exact ⟨fun links => links, fun spend => add two swap.quantityTwo (add one swap.quantityOne spend),
    fun _ => rfl⟩

variable {claim : Reservoir → Reservoir} {a : Admission}

/-- A record that is made to wait. -/
def pendItem (claim : Reservoir → Reservoir) (a : Admission) (t : Time) (r : Reservoir) :
    Reservoir :=
  claim (r.addPending ⟨a.item, a.payId, a.payments, t⟩)

/-- A record that is verified at once. -/
def verifyItem (claim : Reservoir → Reservoir) (a : Admission) (_ : Time) (r : Reservoir) :
    Reservoir :=
  claim (r.addVerified a.payId a.item)

/-- A record that is verified after it was made to wait. -/
def moveItem (claim : Reservoir → Reservoir) (a : Admission) (t : Time) (r : Reservoir) :
    Reservoir :=
  (r.pendItem claim a t).verifyTransaction a.payId ⟨a.item, a.payId, a.payments, t⟩

theorem arrival_item (hclaim : Framed claim) (hnew : r.NotWaiting a.payId)
    (hauto : r.autoVerify = false) :
    Arrival r a.payId a.payments (pendItem claim a) (verifyItem claim a) (moveItem claim a) := by
  obtain ⟨links, spend, hclaim⟩ := hclaim
  refine ⟨?_, ?_, ?_, ?_, ?_, ?_, ?_⟩
  · intro detail t
    have hpending : (r.pendItem claim a t).pendingTransactions.lookup a.payId =
        some ⟨a.item, a.payId, a.payments, t⟩ := by
      rw [pendItem, hclaim]
      exact Finmap.lookup_insert _
    have hmanual : (r.pendItem claim a t).autoVerify = false := by
      rw [pendItem, hclaim]
      exact hauto
    rw [setTransferVerified_of_transaction hpending, acceptablePayment, hmanual]
    rfl
  · intro t
    rw [verifyItem, hclaim]
    exact ⟨Finmap.lookup_erase _ _, hnew.paid⟩
  · intro detail t t'
    rw [pendItem, pendItem, hclaim, hclaim]
    exact ⟨rfl, .refl _ _, .refl _ _, rfl, rfl, (Table.Alike.refl _ _).insert _ rfl, .refl _ _,
      .refl _ _, rfl, rfl, rfl, rfl, rfl⟩
  · intro detail t t'
    rw [verifyItem, moveItem, pendItem, hclaim, hclaim]
    refine ⟨rfl, .refl _ _, .refl _ _, rfl, rfl, ?_, .refl _ _, .refl _ _, ?_, rfl, rfl, ?_, rfl⟩
    · simp only [addVerified, verifyTransaction, addPending, addOrphan, Table.erase_insert]
      exact .refl _ _
    · exact (Table.erase_insert _ _ _).symm
    · exact Table.erase_insert _ _ _
  · intro t r
    rw [verifyItem, hclaim]
    rfl
  · intro t
    rw [moveItem, pendItem, hclaim]
    rfl
  · intro detail t t' hsame
    have halike := hsame.pendingTransactions a.payId
    rw [pendItem, verifyItem, hclaim, hclaim] at halike
    simp [addPending, addVerified, addOrphan] at halike

/-- Storing a new record. -/
theorem storeItem_of_new {limited : Bool} (now : Time) (hnew : r.NotWaiting a.payId)
    (hdup : a.duplicate = false) (hauto : r.autoVerify = false)
    (hroom : limited = true → r.pendingTransactions.keys.card < maximumPendingTransactions) :
    r.storeItem now limited claim a = .ok ((a.payments, false),
      arrive a.payId a.payments (pendItem claim a) (verifyItem claim a) (now + reservoirTimeout)
        r) := by
  have hnotFull : ¬ (limited = true ∧
      maximumPendingTransactions ≤ r.pendingTransactions.keys.card) :=
    fun h => absurd (hroom h.1) (not_lt.mpr h.2)
  simp only [storeItem, hnew.transaction, hdup, acceptablePayment, hauto, arrive, pendItem,
    verifyItem, if_neg hnotFull, Bool.false_eq_true, if_false, Bool.or_false, Bool.false_or]
  rcases hkept : r.orphanPayments.lookup a.payId with _ | kept
  · rfl
  · simp only [Option.isSome_some, Bool.true_and]
    split_ifs <;> rfl

/-! ## Paid issues -/

variable {q : PreparedIssues}

def pendIssues (q : PreparedIssues) (t : Time) (r : Reservoir) : Reservoir :=
  r.addPaidIssues ⟨q.txs, q.payId, q.payments, t⟩

def verifyIssues (q : PreparedIssues) (t : Time) (r : Reservoir) : Reservoir :=
  r.addVerifiedIssues ⟨q.txs, q.payId, q.payments, t⟩

def moveIssues (q : PreparedIssues) (t : Time) (r : Reservoir) : Reservoir :=
  (r.pendIssues q t).verifyPaidIssues q.payId ⟨q.txs, q.payId, q.payments, t⟩

theorem arrival_issues (hnew : r.NotWaiting q.payId) (hauto : r.autoVerify = false) :
    Arrival r q.payId q.payments (pendIssues q) (verifyIssues q) (moveIssues q) := by
  refine ⟨?_, ?_, ?_, ?_, ?_, ?_, ?_⟩
  · intro detail t
    have hpending : (r.pendIssues q t).pendingPaidIssues.lookup q.payId =
        some ⟨q.txs, q.payId, q.payments, t⟩ := Finmap.lookup_insert _
    have hmanual : (r.pendIssues q t).autoVerify = false := hauto
    rw [setTransferVerified_of_paid (r := r.pendIssues q t) hnew.transaction hpending,
      acceptablePayment, hmanual]
    rfl
  · intro t
    exact ⟨hnew.transaction, hnew.paid⟩
  · intro detail t t'
    exact ⟨rfl, .refl _ _, .refl _ _, rfl, rfl, .refl _ _, .refl _ _,
      (Table.Alike.refl _ _).insert _ rfl, rfl, rfl, rfl, rfl, rfl⟩
  · intro detail t t'
    refine ⟨rfl, .refl _ _, (Table.Alike.refl _ _).insert _ rfl, rfl, rfl, .refl _ _, .refl _ _, ?_,
      ?_, rfl, ?_, ?_, rfl⟩
    · simp only [moveIssues, pendIssues, verifyIssues, addVerifiedIssues, verifyPaidIssues,
        addPaidIssues, addOrphan, Table.erase_insert, Table.erase_of_lookup_eq_none hnew.paid]
      exact .refl _ _
    · exact (Table.eraseAll_insertAll _ _ _).symm
    · exact (add_sub_cancel_right _ _).symm
    · exact Table.erase_insert _ _ _
  · intro t r
    rfl
  · intro t
    rfl
  · intro detail t t' hsame
    have halike := hsame.pendingPaidIssues q.payId
    simp [pendIssues, verifyIssues, addPaidIssues, addVerifiedIssues, addOrphan,
      hnew.paid] at halike

/-- Committing a new set of paid issues. -/
theorem commitIssues_of_new (now : Time) (c : AssetCache) (hfree : q.free = none)
    (hauto : r.autoVerify = false)
    (hroom : r.pendingPaidCount + q.txs.length < maximumPendingPaidIssues) :
    commitIssues now q (r, c) = .ok (arrive q.payId q.payments (pendIssues q) (verifyIssues q)
      (now + reservoirTimeout) r, c) := by
  simp only [commitIssues, hfree, acceptablePayment, hauto, arrive, pendIssues, verifyIssues,
    if_neg (not_le.mpr hroom), Bool.false_or, Bool.and_false, Bool.or_false]
  rcases hkept : r.orphanPayments.lookup q.payId with _ | kept
  · rfl
  · simp only [Option.isSome_some, Bool.true_and]
    split_ifs <;> rfl

end Reservoir

/-! ## The two orders -/

/-- What comes with a pay id of its own. -/
inductive Submission
  | transfer (tx : BitmarkTransfer)
  | issues (txs : List BitmarkIssue)
  | grant (tx : ShareGrant)
  | swap (tx : ShareSwap)

namespace Submission

/-- Store it. -/
def store (env : Env) (ctx : Context) (r : Reservoir) : Submission → Except Stop Reservoir
  | .transfer tx => return (← r.storeTransfer env ctx tx).2
  | .issues txs => return (← r.storeIssues env ctx txs).2.1
  | .grant tx => return (← r.storeGrant env ctx tx).2
  | .swap tx => return (← r.storeSwap env ctx tx).2

/-- It passes its checks, is not known yet, and has this pay id and these payments. Issues are to be
paid. -/
def Admissible (env : Env) (ctx : Context) (r : Reservoir) (p : PayId)
    (payments : List PaymentAlternative) : Submission → Prop
  | .transfer tx => ∃ info a, r.verifyTransfer env ctx.view tx = .ok (info, false) ∧
      Reservoir.admission env ctx.view tx.record info false = .ok a ∧ a.payId = p ∧
      a.payments = payments
  | .issues txs => ∃ q, r.checkIssues env ctx txs = .ok (.inr q) ∧ q.free = none ∧
      q.payId = p ∧ q.payments = payments
  | .grant tx => ∃ balance info a,
      r.verifyGrant env ctx.view ctx.height tx = .ok (balance, info, false) ∧
      Reservoir.admission env ctx.view (.shareGrant tx) info false = .ok a ∧ a.payId = p ∧
      a.payments = payments
  | .swap tx => ∃ balances info a,
      r.verifySwap env ctx.view ctx.height tx = .ok (balances, info, false) ∧
      Reservoir.admission env ctx.view (.shareSwap tx) info false = .ok a ∧ a.payId = p ∧
      a.payments = payments

/-- Its pool is below capacity. There is no limit for grants and swaps. -/
def Fits (r : Reservoir) : Submission → Prop
  | .transfer _ => r.pendingTransactions.keys.card < maximumPendingTransactions
  | .issues txs => r.pendingPaidCount + txs.length < maximumPendingPaidIssues
  | .grant _ | .swap _ => True

/-- With any payments kept, at any time, it arrives in the reservoir. -/
def Arrives (r : Reservoir) (p : PayId) (payments : List PaymentAlternative)
    (store : Time → Reservoir → Except Stop Reservoir) : Prop :=
  ∃ pend verify move, Reservoir.Arrival r p payments pend verify move ∧
    ∀ now orphanPayments, store now { r with orphanPayments } =
      .ok (Reservoir.arrive p payments pend verify (now + reservoirTimeout)
        { r with orphanPayments })

/-- A single record arrives. -/
theorem arrives_of_item {r : Reservoir} {claim : Reservoir → Reservoir} {a : Reservoir.Admission}
    (limited : Bool) {store : Time → Reservoir → Except Stop Reservoir}
    (hclaim : Reservoir.Framed claim) (hnew : r.NotWaiting a.payId) (hdup : a.duplicate = false)
    (hauto : r.autoVerify = false)
    (hroom : limited = true → r.pendingTransactions.keys.card < maximumPendingTransactions)
    (hstore : ∀ now orphanPayments out r',
      Reservoir.storeItem now limited claim a { r with orphanPayments } = .ok (out, r') →
        store now { r with orphanPayments } = .ok r') :
    Arrives r a.payId a.payments store := by
  refine ⟨_, _, _, Reservoir.arrival_item hclaim hnew hauto, ?_⟩
  intro now orphanPayments
  exact hstore now orphanPayments _ _ (Reservoir.storeItem_of_new (r := { r with orphanPayments })
    now ⟨hnew.transaction, hnew.paid⟩ hdup hauto hroom)

/-- What is admissible arrives. Neither the checks nor the limits depend on the payments that are
kept, nor on the time. -/
theorem Admissible.arrives {env : Env} {ctx : Context} {r : Reservoir} {p : PayId}
    {payments : List PaymentAlternative} {s : Submission}
    (h : s.Admissible env ctx r p payments) (hnew : r.NotWaiting p) (hfits : s.Fits r)
    (hauto : r.autoVerify = false) :
    Arrives r p payments fun now r => s.store env { ctx with now } r := by
  cases s with
  | transfer tx =>
    obtain ⟨info, a, hverify, hadmission, rfl, rfl⟩ := h
    refine arrives_of_item true (Reservoir.framed_claimLink tx.getLink info.txId) hnew
      (Reservoir.admission_eq_ok hadmission).2.2 hauto (fun _ => hfits) ?_
    intro now orphanPayments out r' hitem
    exact bind_eq_ok.mpr ⟨_, bind_eq_ok.mpr ⟨_, hverify, bind_eq_ok.mpr ⟨_, hadmission,
      bind_eq_ok.mpr ⟨_, hitem, rfl⟩⟩⟩, rfl⟩
  | issues txs =>
    obtain ⟨q, hcheck, hfree, rfl, rfl⟩ := h
    have hlength : q.txs.length = txs.length := by
      obtain ⟨hprepared, rfl⟩ := Reservoir.checkIssues_eq_ok hcheck
      exact hprepared.checked.length_eq.symm
    refine ⟨_, _, _, Reservoir.arrival_issues hnew hauto, ?_⟩
    intro now orphanPayments
    have hroom : r.pendingPaidCount + q.txs.length < maximumPendingPaidIssues := by
      rw [hlength]
      exact hfits
    have hcommit := Reservoir.commitIssues_of_new (r := { r with orphanPayments }) now ctx.assets
      hfree hauto hroom
    exact bind_eq_ok.mpr ⟨_, bind_eq_ok.mpr ⟨_, hcheck, bind_eq_ok.mpr ⟨_, hcommit, rfl⟩⟩, rfl⟩
  | grant tx =>
    obtain ⟨balance, info, a, hverify, hadmission, rfl, rfl⟩ := h
    refine arrives_of_item false (Reservoir.framed_spendGrant tx) hnew
      (Reservoir.admission_eq_ok hadmission).2.2 hauto nofun ?_
    intro now orphanPayments out r' hitem
    exact bind_eq_ok.mpr ⟨_, bind_eq_ok.mpr ⟨_, hverify, bind_eq_ok.mpr ⟨_, hadmission,
      bind_eq_ok.mpr ⟨_, hitem, rfl⟩⟩⟩, rfl⟩
  | swap tx =>
    obtain ⟨balances, info, a, hverify, hadmission, rfl, rfl⟩ := h
    refine arrives_of_item false (Reservoir.framed_spendSwap tx) hnew
      (Reservoir.admission_eq_ok hadmission).2.2 hauto nofun ?_
    intro now orphanPayments out r' hitem
    exact bind_eq_ok.mpr ⟨_, bind_eq_ok.mpr ⟨_, hverify, bind_eq_ok.mpr ⟨_, hadmission,
      bind_eq_ok.mpr ⟨_, hitem, rfl⟩⟩⟩, rfl⟩

end Submission

/-- **A payment and the record it is for may come in either order**, at any times, exactly if no
payment is kept for the pay id yet, or neither that one nor the new one is enough. -/
theorem either_order {env : Env} {ctx : Context} {r : Reservoir} {p : PayId}
    {payments : List PaymentAlternative} {s : Submission}
    (hadmissible : s.Admissible env ctx r p payments) (hnew : r.NotWaiting p) (hfits : s.Fits r)
    (hauto : r.autoVerify = false) (detail : PaymentDetail) (now now' : Time) :
    ∃ r₁ r₂, s.store env { ctx with now } (r.setTransferVerified p detail) = .ok r₁ ∧
      s.store env { ctx with now := now' } r = .ok r₂ ∧
      (Reservoir.SameButExpiry r₁ (r₂.setTransferVerified p detail) ↔
        r.NoneOrNotEnough p detail payments) := by
  obtain ⟨pend, verify, move, harrival, hstore⟩ := hadmissible.arrives hnew hfits hauto
  have hafter : s.store env { ctx with now } (r.setTransferVerified p detail) =
      .ok (Reservoir.arrive p payments pend verify (now + reservoirTimeout)
        (r.addOrphan p detail)) := by
    rw [hnew.setTransferVerified]
    exact hstore now _
  exact ⟨_, _, hafter, hstore now' r.orphanPayments, harrival.equal_results_iff detail _ _⟩

namespace Sample

/-- The transfer of the issue that the first account owns. -/
def sent : Submission := .transfer (.unratified ⟨id 0x11, none, account 2, signature 0x21⟩)

/-- What it costs, in either currency. -/
def fees : List PaymentAlternative := [[⟨.bitcoin, address, 20000⟩], [⟨.litecoin, address, 200000⟩]]

/-- A payment of nothing. -/
def unpaid : PaymentDetail := ⟨.bitcoin, [], ∅⟩

/-- A reservoir with nothing but a payment that is not enough. -/
def underpaid : Reservoir := (Reservoir.empty false).setTransferVerified (payId 0x21) unpaid

theorem admissible_sent : sent.Admissible env (context 1) (Reservoir.empty false) (payId 0x21)
    fees := by
  have hchecks : ((Reservoir.empty false).verifyTransfer env (context 1).view
      (.unratified ⟨id 0x11, none, account 2, signature 0x21⟩)).toOption.any fun x =>
        x.2 = false ∧ (Reservoir.admission env (context 1).view
          (BitmarkTransfer.unratified ⟨id 0x11, none, account 2, signature 0x21⟩).record x.1
          false).toOption.any fun a => a.payId = payId 0x21 ∧ a.payments = fees := by
    decide +kernel
  obtain ⟨⟨info, duplicate⟩, hverify, h⟩ := (Option.any_eq_true _ _).mp hchecks
  rw [decide_eq_true_eq] at h
  obtain ⟨rfl, h⟩ := h
  obtain ⟨a, hadmission, h⟩ := (Option.any_eq_true _ _).mp h
  rw [decide_eq_true_eq] at h
  exact ⟨info, a, toOption_eq_some.mp hverify, toOption_eq_some.mp hadmission, h⟩

theorem fits_sent : sent.Fits (Reservoir.empty false) := by
  change 0 < maximumPendingTransactions
  decide

/-- Nothing was paid before: the transfer is verified in either order. -/
theorem either_order_sent : ∃ r₁ r₂,
    sent.store env (context 7) ((Reservoir.empty false).setTransferVerified (payId 0x21) paid) =
      .ok r₁ ∧
    sent.store env (context 1) (Reservoir.empty false) = .ok r₂ ∧
    Reservoir.SameButExpiry r₁ (r₂.setTransferVerified (payId 0x21) paid) := by
  have hkept : (Reservoir.empty false).NoneOrNotEnough (payId 0x21) paid fees := nofun
  obtain ⟨r₁, r₂, h₁, h₂, hiff⟩ := either_order admissible_sent ⟨rfl, rfl⟩ fits_sent rfl paid
    7 1
  exact ⟨r₁, r₂, h₁, h₂, hiff.mpr hkept⟩

/-- A payment that was not enough is left behind if the transfer comes before the second one. -/
theorem orphan_left : sent.Admissible env (context 1) underpaid (payId 0x21) fees ∧
    underpaid.NotWaiting (payId 0x21) ∧ sent.Fits underpaid ∧ underpaid.autoVerify = false ∧
    ∃ r₁ r₂, sent.store env (context 1) (underpaid.setTransferVerified (payId 0x21) paid) = .ok r₁ ∧
      sent.store env (context 1) underpaid = .ok r₂ ∧
      ¬ Reservoir.SameButExpiry r₁ (r₂.setTransferVerified (payId 0x21) paid) := by
  refine ⟨admissible_sent, ⟨rfl, rfl⟩, fits_sent, rfl, ?_⟩
  have hboth : (sent.store env (context 1)
      (underpaid.setTransferVerified (payId 0x21) paid)).toOption.any fun r₁ =>
        (sent.store env (context 1) underpaid).toOption.any fun r₂ =>
          (r₁.orphanPayments.lookup (payId 0x21)).isNone ∧
            ((r₂.setTransferVerified (payId 0x21) paid).orphanPayments.lookup
              (payId 0x21)).isSome :=
    by decide +kernel
  obtain ⟨r₁, h₁, h⟩ := (Option.any_eq_true _ _).mp hboth
  obtain ⟨r₂, h₂, h⟩ := (Option.any_eq_true _ _).mp h
  rw [decide_eq_true_eq] at h
  refine ⟨r₁, r₂, toOption_eq_some.mp h₁, toOption_eq_some.mp h₂, ?_⟩
  intro hsame
  rw [hsame.orphanPayments] at h
  rw [Option.isNone_iff_eq_none.mp h.1] at h
  exact absurd h.2 (by decide)

end Sample

end Bitmarkd
