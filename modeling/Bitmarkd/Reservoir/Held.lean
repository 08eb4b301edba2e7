import Bitmarkd.Lib.Groups
import Bitmarkd.Reservoir.Pool

/-!
# What the reservoir holds

The six pools hold groups of records under pay ids, and the two indexes and the links are tables of
what is in them (`Reservoir.Holds`). Every change of the reservoir is a change of the group under
one pay id: it is admitted, it goes from pending to verified, or it is dropped.
-/

namespace Bitmarkd

open Lib

/-! ## Groups -/

inductive Stage
  | pending
  | verified
deriving DecidableEq, Repr

inductive Kind
  | transaction
  | free
  | paid
deriving DecidableEq, Repr

/-- The records under a pay id, and the pool they are in. -/
structure Group where
  stage : Stage
  kind : Kind
  txs : List TransactionData
deriving DecidableEq

namespace Group

/-- The tx ids of a group. -/
def ids (g : Group) : List Digest := g.txs.map (·.txId)

/-- Issues have no links. -/
def Linkless (g : Group) : Prop := g.kind ≠ .transaction → ∀ tx ∈ g.txs, tx.transaction.link? = none

/-- The records, if the group is in this pool. -/
def inPool (s : Stage) (k : Kind) (g : Option Group) : Option (List TransactionData) :=
  g.bind fun g => if g.stage = s ∧ g.kind = k then some g.txs else none

@[simp] theorem inPool_none (s : Stage) (k : Kind) : inPool s k none = none := rfl

theorem inPool_eq_some {s : Stage} {k : Kind} {g : Option Group} {txs : List TransactionData} :
    inPool s k g = some txs ↔ g = some ⟨s, k, txs⟩ := by
  rcases g with _ | ⟨s', k', txs'⟩
  · simp
  · simp only [inPool, Option.bind_some, Option.ite_none_right_eq_some, Option.some.injEq, mk.injEq]
    exact and_assoc

/-- The tx ids. -/
def members : Offer PayId Group Digest Unit := fun _ g t => if t ∈ g.ids then some () else none

/-- The tx ids, with the pay id they are under, of the groups of one stage. -/
def indexed (s : Stage) : Offer PayId Group Digest PayId := fun p g t =>
  if g.stage = s ∧ t ∈ g.ids then some p else none

/-- The links, with the tx id that spends each. -/
def linked : Offer PayId Group Digest Digest := fun _ g l =>
  (g.txs.find? fun tx => tx.transaction.link? = some l).map (·.txId)

theorem members_isSome {p : PayId} {g : Option Group} {t : Digest} :
    (members.at? p g t).isSome ↔ ∃ g', g = some g' ∧ t ∈ g'.ids := by
  cases g <;> simp [Offer.at?, members]

theorem indexed_eq_some {s : Stage} {p q : PayId} {g : Option Group} {t : Digest} :
    (indexed s).at? p g t = some q ↔ q = p ∧ ∃ g', g = some g' ∧ g'.stage = s ∧ t ∈ g'.ids := by
  cases g with
  | none => simp [Offer.at?]
  | some g =>
    simp only [Offer.at?, indexed, Option.bind_some, Option.ite_none_right_eq_some,
      Option.some.injEq, exists_eq_left']
    constructor
    · rintro ⟨h, rfl⟩
      exact ⟨rfl, h⟩
    · rintro ⟨rfl, h⟩
      exact ⟨h, rfl⟩

theorem apart_indexed {H : PayId → Option Group} (h : members.Apart H) (s : Stage) :
    (indexed s).Apart H := by
  have hmem {p : PayId} {t : Digest} (hp : ((indexed s).at? p (H p) t).isSome) :
      (members.at? p (H p) t).isSome := by
    obtain ⟨q, hq⟩ := Option.isSome_iff_exists.mp hp
    obtain ⟨-, g, hg, -, ht⟩ := indexed_eq_some.mp hq
    exact members_isSome.mpr ⟨g, hg, ht⟩
  intro p q t hp hq
  exact h p q t (hmem hp) (hmem hq)

theorem fresh_indexed {H : PayId → Option Group} {p : PayId} {g : Option Group}
    (h : members.Fresh H p g) (s : Stage) : (indexed s).Fresh H p g := by
  intro q t hq ht
  obtain ⟨p', hp'⟩ := Option.isSome_iff_exists.mp ht
  obtain ⟨-, g', hg', -, ht⟩ := indexed_eq_some.mp hp'
  have hnone := h q t hq (members_isSome.mpr ⟨g', hg', ht⟩)
  rw [Option.eq_none_iff_forall_ne_some]
  intro q' hq'
  obtain ⟨-, g'', hg'', -, ht''⟩ := indexed_eq_some.mp hq'
  have hsome : (members.at? q (H q) t).isSome := members_isSome.mpr ⟨g'', hg'', ht''⟩
  rw [hnone] at hsome
  cases hsome

end Group

/-! ## The reservoir holds groups -/

namespace Reservoir

/-- The records under a pay id in one of the six pools. -/
def entry (r : Reservoir) : Stage → Kind → PayId → Option (List TransactionData)
  | .pending, .transaction, p => (r.pendingTransactions.lookup p).map fun e => [e.tx]
  | .pending, .free, p => (r.pendingFreeIssues.lookup p).map (·.txs)
  | .pending, .paid, p => (r.pendingPaidIssues.lookup p).map (·.txs)
  | .verified, .transaction, p => (r.verifiedTransactions.lookup p).map fun tx => [tx]
  | .verified, .free, p => (r.verifiedFreeIssues.lookup p).map (·.txs)
  | .verified, .paid, p => (r.verifiedPaidIssues.lookup p).map (·.txs)

/-- The index of a stage. -/
def index (r : Reservoir) : Stage → Digest → Option PayId
  | .pending, t => r.pendingIndex.lookup t
  | .verified, t => r.verifiedIndex.lookup t

/-- The link that a tx id spends. -/
def link (r : Reservoir) (l : Digest) : Option Digest := r.inProgressLinks.lookup l

/-- **The reservoir holds these groups**, each under one pay id, and no tx id or link twice; the
indexes and the links say where. Only single transactions have links. -/
structure Holds (r : Reservoir) (H : PayId → Option Group) : Prop where
  entry : ∀ s k p, r.entry s k p = Group.inPool s k (H p)
  linkless : ∀ p g, H p = some g → g.Linkless
  apart : Group.members.Apart H
  index : ∀ s, (Group.indexed s).Lists H (r.index s)
  linkApart : Group.linked.Apart H
  link : Group.linked.Lists H r.link

/-- The reservoir `r'` differs from `r` in the group under one pay id. -/
structure Changes (r r' : Reservoir) (p : PayId) (old new : Option Group) : Prop where
  entry : ∀ s k q, r'.entry s k q = if q = p then Group.inPool s k new else r.entry s k q
  index : ∀ s t, r'.index s t = ((Group.indexed s).at? p new t).or
    (if ((Group.indexed s).at? p old t).isSome then none else r.index s t)
  link : ∀ l, r'.link l = (Group.linked.at? p new l).or
    (if (Group.linked.at? p old l).isSome then none else r.link l)

variable {r r' : Reservoir} {H : PayId → Option Group} {p : PayId} {g : Option Group}

theorem Holds.change (h : r.Holds H) (hc : Changes r r' p (H p) g)
    (hlinkless : ∀ g', g = some g' → g'.Linkless) (hfresh : Group.members.Fresh H p g)
    (hlink : Group.linked.Fresh H p g) : r'.Holds (Function.update H p g) where
  entry s k q := by
    rw [hc.entry]
    by_cases hq : q = p
    · rw [if_pos hq, hq, Function.update_self]
    · rw [if_neg hq, Function.update_of_ne hq, h.entry]
  linkless q g' hg' := by
    by_cases hq : q = p
    · rw [hq, Function.update_self] at hg'
      exact hlinkless g' hg'
    · rw [Function.update_of_ne hq] at hg'
      exact h.linkless q g' hg'
  apart := h.apart.update hfresh
  index s := (h.index s).update (Group.apart_indexed h.apart s) (Group.fresh_indexed hfresh s)
    (hc.index s)
  linkApart := h.linkApart.update hlink
  link := h.link.update h.linkApart hlink hc.link

theorem Holds.index_eq_some {s : Stage} {t : Digest} (h : r.Holds H) :
    r.index s t = some p ↔ ∃ g, H p = some g ∧ g.stage = s ∧ t ∈ g.ids := by
  rw [h.index s t p]
  constructor
  · rintro ⟨q, hq⟩
    obtain ⟨rfl, hg⟩ := Group.indexed_eq_some.mp hq
    exact hg
  · intro hg
    exact ⟨p, Group.indexed_eq_some.mpr ⟨rfl, hg⟩⟩

theorem Holds.entry_eq_some {s : Stage} {k : Kind} {txs : List TransactionData} (h : r.Holds H) :
    r.entry s k p = some txs ↔ H p = some ⟨s, k, txs⟩ := by
  rw [h.entry, Group.inPool_eq_some]

/-- A tx id that is in no index is in no group. -/
theorem Holds.not_mem_ids {t : Digest} {g : Group} (h : r.Holds H)
    (ht : ∀ s, r.index s t = none) (hg : H p = some g) : t ∉ g.ids := by
  intro hmem
  have hsome := h.index_eq_some.mpr ⟨g, hg, rfl, hmem⟩
  rw [ht] at hsome
  cases hsome

/-- Records whose tx ids are in no index are new. -/
theorem Holds.fresh_members {g : Group} (h : r.Holds H)
    (hids : ∀ t ∈ g.ids, ∀ s, r.index s t = none) : Group.members.Fresh H p (some g) := by
  intro q t _ ht
  obtain ⟨_, ⟨⟩, ht⟩ := Group.members_isSome.mp ht
  rw [← Option.not_isSome_iff_eq_none]
  intro hsome
  obtain ⟨g', hg', ht'⟩ := Group.members_isSome.mp hsome
  exact h.not_mem_ids (hids t ht) hg' ht'

/-- Records whose links are not in progress spend new links. -/
theorem Holds.fresh_linked {g : Group} (h : r.Holds H)
    (hlinks : ∀ tx ∈ g.txs, ∀ l, tx.transaction.link? = some l → r.link l = none) :
    Group.linked.Fresh H p (some g) := by
  intro q l _ hl
  rw [Option.eq_none_iff_forall_ne_some]
  intro t ht
  have hlisted := (h.link l t).mpr ⟨q, ht⟩
  simp only [Offer.at?, Group.linked, Option.bind_some, Option.isSome_map] at hl
  obtain ⟨tx, htx⟩ := Option.isSome_iff_exists.mp hl
  have hlink := List.find?_some htx
  rw [decide_eq_true_eq] at hlink
  rw [hlinks tx (List.mem_of_find?_eq_some htx) l hlink] at hlisted
  cases hlisted

theorem holds_empty (autoVerify : Bool) : (Reservoir.empty autoVerify).Holds fun _ => none where
  entry s k p := by cases s <;> cases k <;> rfl
  linkless p g h := by cases h
  apart p q t h := by cases h
  index s t p := by
    cases s <;> simp [Reservoir.index, Reservoir.empty, Offer.at?]
  linkApart p q l h := by cases h
  link l t := by simp [Reservoir.link, Reservoir.empty, Offer.at?]

/-! ## Admission -/

section Offers

theorem indexed_some (s : Stage) (g : Group) (t : Digest) :
    (Group.indexed s).at? p (some g) t = if g.stage = s ∧ t ∈ g.ids then some p else none := rfl

theorem linked_some (g : Group) (l : Digest) : Group.linked.at? p (some g) l =
    (g.txs.find? fun tx => tx.transaction.link? = some l).map (·.txId) := rfl

theorem inPool_some (s : Stage) (k : Kind) (g : Group) :
    Group.inPool s k (some g) = if g.stage = s ∧ g.kind = k then some g.txs else none := rfl

theorem at?_none {ξ υ : Type} (c : Offer PayId Group ξ υ) (x : ξ) : c.at? p none x = none := rfl

/-- Records without links spend none. -/
theorem linked_eq_none {g : Group} (h : ∀ tx ∈ g.txs, tx.transaction.link? = none) (l : Digest) :
    Group.linked.at? p (some g) l = none := by
  rw [linked_some, Option.map_eq_none_iff, List.find?_eq_none]
  intro tx htx
  simp [h tx htx]

end Offers

/-- What a record takes besides its place in a pool: its link if it has one. -/
structure Claims (claim : Reservoir → Reservoir) (item : TransactionData) : Prop where
  entry : ∀ r s k p, (claim r).entry s k p = r.entry s k p
  index : ∀ r s t, (claim r).index s t = r.index s t
  link : ∀ r l, (claim r).link l =
    if item.transaction.link? = some l then some item.txId else r.link l

theorem claims_claimLink {item : TransactionData} {link : Digest}
    (h : item.transaction.link? = some link) : Claims (claimLink link item.txId) item where
  entry r s k p := by cases s <;> cases k <;> rfl
  index r s t := by cases s <;> rfl
  link r l := by
    simp only [Reservoir.link, claimLink, Table.lookup_insert, h, Option.some.injEq, eq_comm]

theorem claims_addSpend {item : TransactionData} (h : item.transaction.link? = none) (k : SpendKey)
    (q : UInt64) : Claims (addSpend k q) item where
  entry r s k p := by cases s <;> cases k <;> rfl
  index r s t := by cases s <;> rfl
  link r l := by simp [h, Reservoir.link, addSpend]

theorem Claims.comp {claim claim' : Reservoir → Reservoir} {item : TransactionData}
    (h : Claims claim item) (h' : Claims claim' item) :
    Claims (fun r => claim' (claim r)) item where
  entry r s k p := by rw [h'.entry, h.entry]
  index r s t := by rw [h'.index, h.index]
  link r l := by
    rw [h'.link, h.link]
    split_ifs <;> rfl

theorem claims_spendGrant {item : TransactionData} {grant : ShareGrant}
    (h : item.transaction = .shareGrant grant) : Claims (spendGrant grant) item :=
  claims_addSpend (by rw [h]; rfl) _ _

theorem claims_spendSwap {item : TransactionData} {swap : ShareSwap}
    (h : item.transaction = .shareSwap swap) : Claims (spendSwap swap) item :=
  have hlink : item.transaction.link? = none := by rw [h]; rfl
  (claims_addSpend hlink _ _).comp (claims_addSpend hlink _ _)

section Changes

variable {claim : Reservoir → Reservoir} {item : TransactionData}

/-- A group is put where nothing was. -/
theorem changes_put {g : Group} (hnone : ∀ s k, r.entry s k p = none)
    (hentry : ∀ s k q, r'.entry s k q =
      if q = p ∧ g.stage = s ∧ g.kind = k then some g.txs else r.entry s k q)
    (hindex : ∀ s t, r'.index s t = if g.stage = s ∧ t ∈ g.ids then some p else r.index s t)
    (hlink : ∀ l, r'.link l = (Group.linked.at? p (some g) l).or (r.link l)) :
    Changes r r' p none (some g) where
  entry s k q := by
    rw [hentry, inPool_some]
    by_cases hq : q = p
    · simp [hq, hnone]
    · simp [hq]
  index s t := by
    rw [hindex, indexed_some, at?_none, Option.isSome_none, if_neg Bool.false_ne_true]
    split_ifs <;> rfl
  link l := by
    rw [hlink, at?_none]
    rfl

theorem changes_addPending {payment : TransactionPaymentData} (hclaim : Claims claim payment.tx)
    (hnone : ∀ s k, r.entry s k payment.payId = none) :
    Changes r (claim (r.addPending payment)) payment.payId none
      (some ⟨.pending, .transaction, [payment.tx]⟩) := by
  refine changes_put hnone ?_ ?_ ?_
  · intro s k q
    rw [hclaim.entry]
    cases s <;> cases k <;> simp [Reservoir.entry, addPending, Table.map_lookup_insert]
  · intro s t
    rw [hclaim.index]
    cases s <;> simp [Reservoir.index, addPending, Table.lookup_insert, Group.ids]
  · intro l
    rw [hclaim.link, linked_some]
    by_cases hl : payment.tx.transaction.link? = some l <;> simp [hl, Reservoir.link, addPending]

theorem changes_addVerified (hclaim : Claims claim item) (hnone : ∀ s k, r.entry s k p = none)
    (hindex : ∀ s, r.index s item.txId = none) :
    Changes r (claim (r.addVerified p item)) p none (some ⟨.verified, .transaction, [item]⟩) := by
  have hpool := Table.erase_of_lookup_eq_none
    (Option.map_eq_none_iff.mp (hnone .pending .transaction))
  have hpending := Table.erase_of_lookup_eq_none (hindex .pending)
  refine changes_put hnone ?_ ?_ ?_
  · intro s k q
    rw [hclaim.entry]
    cases s <;> cases k <;> simp [Reservoir.entry, addVerified, Table.map_lookup_insert, hpool]
  · intro s t
    rw [hclaim.index]
    cases s <;> simp [Reservoir.index, addVerified, Table.lookup_insert, Group.ids, hpending]
  · intro l
    rw [hclaim.link, linked_some]
    by_cases hl : item.transaction.link? = some l <;> simp [hl, Reservoir.link, addVerified]

/-- Issues have no link. -/
theorem changes_addFreeIssues {e : IssueFreeData} (hnone : ∀ s k, r.entry s k e.payId = none)
    (hlink : ∀ tx ∈ e.txs, tx.transaction.link? = none) :
    Changes r (r.addFreeIssues e) e.payId none (some ⟨.pending, .free, e.txs⟩) := by
  refine changes_put hnone ?_ ?_ fun l => by rw [linked_eq_none hlink]; rfl
  · intro s k q
    cases s <;> cases k <;> simp [Reservoir.entry, addFreeIssues, Table.map_lookup_insert]
  · intro s t
    cases s <;> simp [Reservoir.index, addFreeIssues, Table.lookup_insertAll, Group.ids]

theorem changes_addPaidIssues {e : IssuePaymentData} (hnone : ∀ s k, r.entry s k e.payId = none)
    (hlink : ∀ tx ∈ e.txs, tx.transaction.link? = none) :
    Changes r (r.addPaidIssues e) e.payId none (some ⟨.pending, .paid, e.txs⟩) := by
  refine changes_put hnone ?_ ?_ fun l => by rw [linked_eq_none hlink]; rfl
  · intro s k q
    cases s <;> cases k <;> simp [Reservoir.entry, addPaidIssues, Table.map_lookup_insert]
  · intro s t
    cases s <;> simp [Reservoir.index, addPaidIssues, Table.lookup_insertAll, Group.ids]

theorem changes_addVerifiedIssues {e : IssuePaymentData}
    (hnone : ∀ s k, r.entry s k e.payId = none)
    (hindex : ∀ tx ∈ e.txs, ∀ s, r.index s tx.txId = none)
    (hlink : ∀ tx ∈ e.txs, tx.transaction.link? = none) :
    Changes r (r.addVerifiedIssues e) e.payId none (some ⟨.verified, .paid, e.txs⟩) := by
  refine changes_put hnone ?_ ?_ fun l => by rw [linked_eq_none hlink]; rfl
  · intro s k q
    cases s <;> cases k <;>
      simp [Reservoir.entry, addVerifiedIssues, Table.map_lookup_insert]
  · intro s t
    cases s with
    | pending =>
      simp only [Reservoir.index, addVerifiedIssues, Table.lookup_eraseAll, reduceCtorEq, false_and,
        if_false, ite_eq_right_iff]
      intro ht
      obtain ⟨tx, htx, rfl⟩ := List.mem_map.mp ht
      exact (hindex tx htx .pending).symm
    | verified => simp [Reservoir.index, addVerifiedIssues, Table.lookup_insertAll, Group.ids]

end Changes

/-! ## Verification -/

section Verification

variable {txs : List TransactionData} {k : Kind}

/-- A group that goes from pending to verified keeps its links. -/
theorem link_moved (h : r.Holds H) (hp : H p = some ⟨.pending, k, txs⟩) (l : Digest) :
    r.link l = (Group.linked.at? p (some ⟨.verified, k, txs⟩) l).or
      (if (Group.linked.at? p (some ⟨.pending, k, txs⟩) l).isSome then none else r.link l) := by
  have hsame : Group.linked.at? p (some ⟨.verified, k, txs⟩) l =
      Group.linked.at? p (some ⟨.pending, k, txs⟩) l := rfl
  rw [hsame]
  rcases hl : Group.linked.at? p (some ⟨.pending, k, txs⟩) l with _ | t
  · simp
  · have hlisted : r.link l = some t := (h.link l t).mpr ⟨p, by rw [hp, hl]⟩
    simp [hlisted]

/-- What is moved from pending to verified, with its index entries. -/
theorem Holds.move (h : r.Holds H) (hp : H p = some ⟨.pending, k, txs⟩)
    (hentry : ∀ s k' q, r'.entry s k' q =
      if q = p ∧ k' = k then (if s = .verified then some txs else none) else r.entry s k' q)
    (hpending : ∀ t, r'.index .pending t =
      if t ∈ txs.map (·.txId) then none else r.index .pending t)
    (hverified : ∀ t, r'.index .verified t =
      if t ∈ txs.map (·.txId) then some p else r.index .verified t)
    (hlink : ∀ l, r'.link l = r.link l) :
    r'.Holds (Function.update H p (some ⟨.verified, k, txs⟩)) := by
  have hc : Changes r r' p (H p) (some ⟨.verified, k, txs⟩) := by
    refine ⟨?_, ?_, ?_⟩
    · intro s k' q
      rw [hentry, inPool_some]
      by_cases hq : q = p
      · by_cases hk : k' = k
        · cases s <;> simp [hq, hk]
        · simp [hq, hk, Ne.symm hk, h.entry, hp, inPool_some]
      · simp [hq]
    · intro s t
      rw [hp, indexed_some, indexed_some]
      cases s
      · rw [hpending]
        by_cases ht : t ∈ txs.map (·.txId) <;> simp [Group.ids, ht]
      · rw [hverified]
        by_cases ht : t ∈ txs.map (·.txId) <;> simp [Group.ids, ht]
    · intro l
      rw [hlink, hp]
      exact link_moved h hp l
  refine h.change hc ?_ (h.apart.fresh ?_) (h.linkApart.fresh ?_)
  · rintro _ ⟨⟩ hk
    exact h.linkless p ⟨.pending, k, txs⟩ hp hk
  · intro t ht
    rw [hp]
    exact ht
  · intro l hl
    rw [hp]
    exact hl

theorem Holds.verifyTransaction (h : r.Holds H) {e : TransactionPaymentData}
    (he : r.pendingTransactions.lookup p = some e) :
    (r.verifyTransaction p e).Holds
      (Function.update H p (some ⟨.verified, .transaction, [e.tx]⟩)) := by
  refine h.move (by rw [← h.entry_eq_some, Reservoir.entry, he, Option.map_some]) ?_ ?_ ?_
    fun l => rfl
  · intro s k q
    cases s <;> cases k <;> simp [Reservoir.entry, Reservoir.verifyTransaction,
      Table.map_lookup_insert, Table.map_lookup_erase]
  · intro t
    simp [Reservoir.index, Reservoir.verifyTransaction, Table.lookup_erase]
  · intro t
    simp [Reservoir.index, Reservoir.verifyTransaction, Table.lookup_insert]

theorem Holds.verifyPaidIssues (h : r.Holds H) {e : IssuePaymentData}
    (he : r.pendingPaidIssues.lookup p = some e) :
    (r.verifyPaidIssues p e).Holds (Function.update H p (some ⟨.verified, .paid, e.txs⟩)) := by
  refine h.move (by rw [← h.entry_eq_some, Reservoir.entry, he, Option.map_some]) ?_
    (Table.lookup_eraseAll _ _) (Table.lookup_insertAll _ _ _) fun l => rfl
  intro s k q
  cases s <;> cases k <;> simp [Reservoir.entry, Reservoir.verifyPaidIssues,
    Table.map_lookup_insert, Table.map_lookup_erase]

theorem Holds.verifyIssueByNonce (h : r.Holds H) (nonce : Bytes) :
    ∃ g, (r.verifyIssueByNonce p nonce).Holds (Function.update H p g) ∧
      ∀ g', g = some g' → ∃ s, H p = some ⟨s, g'.kind, g'.txs⟩ := by
  have hsame : r.Holds (Function.update H p (H p)) := by rwa [Function.update_eq_self]
  have hkept : ∀ g', H p = some g' → ∃ s, H p = some ⟨s, g'.kind, g'.txs⟩ := by
    intro g' hg'
    exact ⟨g'.stage, hg'⟩
  by_cases hnonce : nonce = []
  · refine ⟨H p, ?_, hkept⟩
    rwa [Reservoir.verifyIssueByNonce, if_pos hnonce]
  rcases he : r.pendingFreeIssues.lookup p with _ | e
  · refine ⟨H p, ?_, hkept⟩
    simpa only [Reservoir.verifyIssueByNonce, if_neg hnonce, he] using hsame
  have hp : H p = some ⟨.pending, .free, e.txs⟩ := by
    rw [← h.entry_eq_some, Reservoir.entry, he, Option.map_some]
  refine ⟨some ⟨.verified, .free, e.txs⟩, ?_, ?_⟩
  · simp only [Reservoir.verifyIssueByNonce, if_neg hnonce, he]
    refine h.move hp ?_ (Table.lookup_eraseAll _ _) (Table.lookup_insertAll _ _ _) fun l => rfl
    intro s k q
    cases s <;> cases k <;>
      simp [Reservoir.entry, Table.map_lookup_insert, Table.map_lookup_erase]
  · rintro g' ⟨⟩
    exact ⟨.pending, hp⟩

end Verification

/-! ## Deletion -/

theorem Holds.entry_eq_none (h : r.Holds H) (hp : H p = none) (s : Stage) (k : Kind) :
    r.entry s k p = none := by
  rw [h.entry, hp, Group.inPool_none]

/-- What is dropped, with its index entries and its links. -/
theorem Holds.drop (h : r.Holds H) {g : Group} (hp : H p = some g)
    (hentry : ∀ s k q, r'.entry s k q = if q = p then none else r.entry s k q)
    (hindex : ∀ s t, r'.index s t = if g.stage = s ∧ t ∈ g.ids then none else r.index s t)
    (hlink : ∀ l, r'.link l = if (Group.linked.at? p (some g) l).isSome then none else r.link l) :
    r'.Holds (Function.update H p none) := by
  have hc : Changes r r' p (H p) none := by
    refine ⟨hentry, ?_, ?_⟩
    · intro s t
      rw [hp, at?_none, Option.none_or, indexed_some, hindex]
      by_cases ht : g.stage = s ∧ t ∈ g.ids <;> simp [ht]
    · intro l
      rw [hp, at?_none, Option.none_or, hlink]
  exact h.change hc (by rintro _ ⟨⟩) Offer.fresh_none Offer.fresh_none

theorem lookup_dropLink (links : Table Digest Digest) (tx : TransactionData) (l : Digest) :
    (dropLink links tx).lookup l =
      if tx.transaction.link? = some l then none else links.lookup l := by
  rcases h : tx.transaction.link? with _ | link
  · simp [dropLink, h]
  · simp only [dropLink, h, Table.lookup_erase, Option.some.injEq, eq_comm]

/-- What is held when one of the pools has been cleared at a pay id. -/
def cleared (s : Stage) (k : Kind) (p : PayId) (H : PayId → Option Group) : PayId → Option Group :=
  if (Group.inPool s k (H p)).isSome then Function.update H p none else H

/-- One of the six parts of `internalDelete`: what is in a pool is deleted, with its index entries
and its links. -/
theorem Holds.clear (h : r.Holds H) {s : Stage} {k : Kind} {ε : Type} {pool : Table PayId ε}
    {records : ε → List TransactionData} (hpool : r.entry s k p = (pool.lookup p).map records)
    (hnone : pool.lookup p = none → r' = r)
    (hsome : ∀ e, pool.lookup p = some e →
      (∀ s' k' q, r'.entry s' k' q =
        if q = p ∧ s' = s ∧ k' = k then none else r.entry s' k' q) ∧
      (∀ s' t, r'.index s' t =
        if s = s' ∧ t ∈ (records e).map (·.txId) then none else r.index s' t) ∧
      ∀ l, r'.link l = if k = .transaction ∧ ∃ tx ∈ records e, tx.transaction.link? = some l
        then none else r.link l) :
    r'.Holds (cleared s k p H) := by
  have hheld := h.entry s k p
  rw [cleared, ← hheld, hpool]
  rcases he : pool.lookup p with _ | e
  · rw [hnone he]
    exact h
  · rw [hpool, he, eq_comm, Option.map_some, Group.inPool_eq_some] at hheld
    obtain ⟨hentry, hindex, hlink⟩ := hsome e he
    rw [Option.map_some, Option.isSome_some, if_pos rfl]
    refine h.drop hheld ?_ hindex ?_
    · intro s' k' q
      rw [hentry]
      by_cases hq : q = p
      · rw [if_pos hq, hq]
        by_cases hsk : s' = s ∧ k' = k
        · rw [if_pos ⟨rfl, hsk⟩]
        · rw [if_neg (fun hc => hsk hc.2), h.entry, hheld, inPool_some, if_neg]
          rintro ⟨rfl, rfl⟩
          exact hsk ⟨rfl, rfl⟩
      · rw [if_neg hq, if_neg fun hc => hq hc.1]
    · intro l
      rw [hlink]
      refine if_congr ?_ rfl rfl
      rw [linked_some, Option.isSome_map, List.find?_isSome]
      simp only [decide_eq_true_eq, and_iff_right_iff_imp]
      rintro ⟨tx, htx, hl⟩
      by_contra hk
      rw [h.linkless p _ hheld hk tx htx] at hl
      cases hl

theorem Holds.deletePendingTransaction (h : r.Holds H) (p : PayId) :
    (r.deletePendingTransaction p).Holds (cleared .pending .transaction p H) := by
  refine h.clear rfl (fun he => by rw [Reservoir.deletePendingTransaction, he]) fun e he => ?_
  simp only [Reservoir.deletePendingTransaction, he]
  refine ⟨fun s k q => ?_, fun s t => ?_, fun l => ?_⟩
  · cases s <;> cases k <;> simp [Reservoir.entry, Table.map_lookup_erase]
  · cases s <;> simp [Reservoir.index, Table.lookup_erase]
  · simp [Reservoir.link, lookup_dropLink]

theorem Holds.deletePendingFreeIssues (h : r.Holds H) (p : PayId) :
    (r.deletePendingFreeIssues p).Holds (cleared .pending .free p H) := by
  refine h.clear rfl (fun he => by rw [Reservoir.deletePendingFreeIssues, he]) fun e he => ?_
  simp only [Reservoir.deletePendingFreeIssues, he]
  refine ⟨fun s k q => ?_, fun s t => ?_, fun l => ?_⟩
  · cases s <;> cases k <;> simp [Reservoir.entry, Table.map_lookup_erase]
  · cases s <;> simp [Reservoir.index, Table.lookup_eraseAll]
  · simp [Reservoir.link]

theorem Holds.deletePendingPaidIssues (h : r.Holds H) (p : PayId) :
    (r.deletePendingPaidIssues p).Holds (cleared .pending .paid p H) := by
  refine h.clear rfl (fun he => by rw [Reservoir.deletePendingPaidIssues, he]) fun e he => ?_
  simp only [Reservoir.deletePendingPaidIssues, he]
  refine ⟨fun s k q => ?_, fun s t => ?_, fun l => ?_⟩
  · cases s <;> cases k <;> simp [Reservoir.entry, Table.map_lookup_erase]
  · cases s <;> simp [Reservoir.index, Table.lookup_eraseAll]
  · simp [Reservoir.link]

theorem Holds.deleteVerifiedTransaction (h : r.Holds H) (p : PayId) :
    (r.deleteVerifiedTransaction p).Holds (cleared .verified .transaction p H) := by
  refine h.clear rfl (fun he => by rw [Reservoir.deleteVerifiedTransaction, he]) fun e he => ?_
  simp only [Reservoir.deleteVerifiedTransaction, he]
  refine ⟨fun s k q => ?_, fun s t => ?_, fun l => ?_⟩
  · cases s <;> cases k <;> simp [Reservoir.entry, Table.map_lookup_erase]
  · cases s <;> simp [Reservoir.index, Table.lookup_erase]
  · simp [Reservoir.link, lookup_dropLink]

theorem Holds.deleteVerifiedFreeIssues (h : r.Holds H) (p : PayId) :
    (r.deleteVerifiedFreeIssues p).Holds (cleared .verified .free p H) := by
  refine h.clear rfl (fun he => by rw [Reservoir.deleteVerifiedFreeIssues, he]) fun e he => ?_
  simp only [Reservoir.deleteVerifiedFreeIssues, he]
  refine ⟨fun s k q => ?_, fun s t => ?_, fun l => ?_⟩
  · cases s <;> cases k <;> simp [Reservoir.entry, Table.map_lookup_erase]
  · cases s <;> simp [Reservoir.index, Table.lookup_eraseAll]
  · simp [Reservoir.link]

theorem Holds.deleteVerifiedPaidIssues (h : r.Holds H) (p : PayId) :
    (r.deleteVerifiedPaidIssues p).Holds (cleared .verified .paid p H) := by
  refine h.clear rfl (fun he => by rw [Reservoir.deleteVerifiedPaidIssues, he]) fun e he => ?_
  simp only [Reservoir.deleteVerifiedPaidIssues, he]
  refine ⟨fun s k q => ?_, fun s t => ?_, fun l => ?_⟩
  · cases s <;> cases k <;> simp [Reservoir.entry, Table.map_lookup_erase]
  · cases s <;> simp [Reservoir.index, Table.lookup_eraseAll]
  · simp [Reservoir.link]

/-- A group is in one of the six pools. -/
theorem clearPools (H : PayId → Option Group) (p : PayId) :
    cleared .verified .paid p (cleared .verified .free p (cleared .verified .transaction p
      (cleared .pending .paid p (cleared .pending .free p (cleared .pending .transaction p
        H))))) = Function.update H p none := by
  rcases hp : H p with _ | ⟨s, k, txs⟩
  · have hself : Function.update H p none = H := by rw [← hp, Function.update_eq_self]
    simp [cleared, hp, hself]
  · cases s <;> cases k <;> simp [cleared, hp, Group.inPool]

/-- **`internalDelete` drops what is held under the pay id.** -/
theorem Holds.internalDelete (h : r.Holds H) (p : PayId) :
    (r.internalDelete p).Holds (Function.update H p none) := by
  rw [← clearPools]
  exact (((((h.deletePendingTransaction p).deletePendingFreeIssues p).deletePendingPaidIssues
    p).deleteVerifiedTransaction p).deleteVerifiedFreeIssues p).deleteVerifiedPaidIssues p

end Reservoir

end Bitmarkd
