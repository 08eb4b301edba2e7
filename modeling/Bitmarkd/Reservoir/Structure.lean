import Bitmarkd.Reservoir.Step
import Bitmarkd.Sample

/-!
# The structure of the reservoir

In every state that a run of calls reaches, the indexes and the links say what the six pools hold
and the counts are the numbers of pending issues (`Reservoir.Structured`).

The indexes could only go wrong where a call overwrites an entry of a pool without removing what the
old entry had in them. A pay id is a hash of the packed records, and packed records can be told
apart in their concatenation, so an entry that is there already has the tx ids of the new one
(`Group.Named.ids_eq`); the call has looked these up, and found none.
-/

namespace Bitmarkd

open Lib

/-! ## Pay ids -/

/-- The first byte of a packed record is its tag. -/
theorem Transaction.head?_layout (tx : Transaction) :
    tx.layout.head? = some tx.tag.value.toUInt8 := by
  have htag : createPacked tx.tag = [tx.tag.value.toUInt8] := by cases tx.tag <;> decide
  rw [layout, message, htag]
  rfl

/-- The issues of a group, as records in a row. -/
theorem records_of_issues {env : Env} {txs : List TransactionData}
    (h : ∀ tx ∈ txs, Reservoir.IsIssue env tx) :
    Records env (txs.map (·.packed)).flatten (txs.map fun tx => (tx.packed, tx.transaction)) := by
  induction txs with
  | nil => exact .nil
  | cons tx txs ih =>
    rw [List.forall_mem_cons] at h
    exact .cons h.1.record (ih h.2)

/-- The group is under the pay id of its records, which are all issues or one other record. -/
structure Group.Named (env : Env) (K : List Bytes) (p : PayId) (g : Group) : Prop where
  ne_nil : g.txs ≠ []
  payId : newPayId env (g.txs.map (·.packed)) = p
  hashed : (g.txs.map (·.packed)).flatten ∈ K
  txId : ∀ tx ∈ g.txs, tx.txId = env.newDigest tx.packed
  single : g.kind = .transaction →
    ∃ tx, g.txs = [tx] ∧ tx.packed = tx.transaction.layout ∧ tx.transaction.IsSingle
  issues : g.kind ≠ .transaction → ∀ tx ∈ g.txs, Reservoir.IsIssue env tx

namespace Group.Named

variable {env : Env} {K : List Bytes} {p : PayId} {g g' : Group}

theorem linkless (h : g.Named env K p) : g.Linkless := by
  intro hk tx htx
  have htag := (h.issues hk tx htx).issue
  cases htx : tx.transaction <;> simp_all [Transaction.tag, Transaction.link?]

/-- Issues and another record do not begin with the same byte. -/
theorem flatten_ne (hissues : ∀ tx ∈ g.txs, Reservoir.IsIssue env tx) (hne : g.txs ≠ [])
    {tx : TransactionData} (hlayout : tx.packed = tx.transaction.layout)
    (hsingle : tx.transaction.IsSingle) : (g.txs.map (·.packed)).flatten ≠ tx.packed := by
  obtain ⟨first, rest, hg⟩ := List.exists_cons_of_ne_nil hne
  have hfirst := hissues first (by rw [hg]; exact List.mem_cons_self)
  intro heq
  have hhead := congrArg List.head? heq
  rw [hg, List.map_cons, List.flatten_cons, hfirst.layout, hlayout, List.head?_append,
    Transaction.head?_layout, Transaction.head?_layout, Option.some_or, hfirst.issue] at hhead
  have htag := hsingle.tag_ne
  generalize tx.transaction.tag = tag at hhead htag
  cases tag <;> simp_all [Tag.value]

/-- **A pay id stands for one list of tx ids.** -/
theorem ids_eq (hK : PayIdsApart env K)
    (h : g.Named env K p) (h' : g'.Named env K p) : g.ids = g'.ids := by
  have hbytes : (g.txs.map (·.packed)).flatten = (g'.txs.map (·.packed)).flatten :=
    hK _ h.hashed _ h'.hashed (h.payId.trans h'.payId.symm)
  have hpacked : g.txs.map (·.packed) = g'.txs.map (·.packed) := by
    by_cases hk : g.kind = .transaction
    · obtain ⟨tx, htx, hlayout, hsingle⟩ := h.single hk
      by_cases hk' : g'.kind = .transaction
      · obtain ⟨tx', htx', -, -⟩ := h'.single hk'
        rw [htx, htx'] at hbytes ⊢
        simpa using hbytes
      · rw [htx] at hbytes
        exact absurd (by simpa using hbytes.symm)
          (flatten_ne (h'.issues hk') h'.ne_nil hlayout hsingle)
    · by_cases hk' : g'.kind = .transaction
      · obtain ⟨tx', htx', hlayout, hsingle⟩ := h'.single hk'
        rw [htx'] at hbytes
        exact absurd (by simpa using hbytes) (flatten_ne (h.issues hk) h.ne_nil hlayout hsingle)
      · have hrecords := records_of_issues (h.issues hk)
        rw [hbytes] at hrecords
        have hsame := congrArg (List.map Prod.fst)
          (hrecords.unique (records_of_issues (h'.issues hk')))
        simpa [List.map_map, Function.comp_def] using hsame
  have hids {k : Group} (hk : k.Named env K p) :
      k.ids = (k.txs.map (·.packed)).map env.newDigest := by
    rw [ids, List.map_map]
    exact List.map_congr_left hk.txId
  rw [hids h, hids h', hpacked]

/-- Where a group is pooled does not matter. -/
theorem moved (h : g.Named env K p) (s : Stage) : (⟨s, g.kind, g.txs⟩ : Group).Named env K p :=
  ⟨h.ne_nil, h.payId, h.hashed, h.txId, h.single, h.issues⟩

end Group.Named

/-! ## The pools and the tables -/

namespace Reservoir

variable {env : Env} {K : List Bytes} {B : Prop} {r r' : Reservoir} {p : PayId}

/-- The reservoir holds groups under their pay ids. -/
def Pooled (env : Env) (K : List Bytes) (r : Reservoir) : Prop :=
  ∃ H, r.Holds H ∧ ∀ p g, H p = some g → g.Named env K p

theorem pooled_empty (autoVerify : Bool) : Pooled env K (Reservoir.empty autoVerify) :=
  ⟨_, holds_empty autoVerify, by rintro p g ⟨⟩⟩

/-- A reservoir with the same pools, indexes and links. -/
theorem Holds.congr {H : PayId → Option Group} (h : r.Holds H)
    (hentry : ∀ s k p, r'.entry s k p = r.entry s k p) (hindex : ∀ s, r'.index s = r.index s)
    (hlink : r'.link = r.link) : r'.Holds H where
  entry s k p := by rw [hentry, h.entry]
  linkless := h.linkless
  apart := h.apart
  index s := by
    rw [hindex]
    exact h.index s
  linkApart := h.linkApart
  link := by
    rw [hlink]
    exact h.link

/-- The tx id that spends a link is held. -/
theorem Holds.mem_of_link {H : PayId → Option Group} (h : r.Holds H) {l t : Digest}
    (hl : r.link l = some t) : ∃ q g, H q = some g ∧ ∃ tx ∈ g.txs,
      tx.transaction.link? = some l ∧ tx.txId = t := by
  obtain ⟨q, hq⟩ := (h.link l t).mp hl
  obtain ⟨g, hg, hfind⟩ := Option.bind_eq_some_iff.mp hq
  obtain ⟨tx, htx, rfl⟩ := Option.map_eq_some_iff.mp hfind
  have hlink := List.find?_some htx
  rw [decide_eq_true_eq] at hlink
  exact ⟨q, g, hg, tx, List.mem_of_find?_eq_some htx, hlink, rfl⟩

/-- A held record with a link is in progress on it. -/
theorem Holds.link_of_mem {H : PayId → Option Group} (h : r.Holds H)
    (hnamed : ∀ p g, H p = some g → g.Named env K p) {g : Group} (hg : H p = some g)
    {tx : TransactionData} (htx : tx ∈ g.txs) {l : Digest} (hl : tx.transaction.link? = some l) :
    g = ⟨g.stage, .transaction, [tx]⟩ ∧ r.link l = some tx.txId := by
  obtain ⟨s, k, txs⟩ := g
  -- a record with a link is alone in its group
  have hk : k = .transaction := by
    by_contra hk
    rw [h.linkless p _ hg hk tx htx] at hl
    cases hl
  subst hk
  obtain ⟨tx', rfl, -⟩ := (hnamed p _ hg).single rfl
  obtain rfl := List.mem_singleton.mp htx
  refine ⟨rfl, (h.link l tx.txId).mpr ⟨p, ?_⟩⟩
  rw [hg, linked_some]
  simp [hl]

section Change

variable (hK : PayIdsApart env K)

include hK

/-- Nothing is held under the pay id of records that are in no index. -/
theorem Holds.absent {H : PayId → Option Group} (h : r.Holds H)
    (hnamed : ∀ p g, H p = some g → g.Named env K p) {g : Group} (hg : g.Named env K p)
    (hids : ∀ t ∈ g.ids, ∀ s, r.index s t = none) : H p = none := by
  rcases hp : H p with _ | g'
  · rfl
  · have hsame := (hnamed p g' hp).ids_eq hK hg
    obtain ⟨tx, rest, htxs⟩ := List.exists_cons_of_ne_nil hg.ne_nil
    have hmem : tx.txId ∈ g.ids := by simp [Group.ids, htxs]
    have hmem' : tx.txId ∈ g'.ids := by rwa [hsame]
    exact absurd hmem' (h.not_mem_ids (hids _ hmem) hp)

/-- A new group is admitted. -/
theorem Pooled.admit (h : Pooled env K r) {g : Group} (hg : g.Named env K p)
    (hids : ∀ t ∈ g.ids, ∀ s, r.index s t = none)
    (hlinks : ∀ tx ∈ g.txs, ∀ l, tx.transaction.link? = some l → r.link l = none)
    (hc : (∀ s k, r.entry s k p = none) → Changes r r' p none (some g)) : Pooled env K r' := by
  obtain ⟨H, hH, hnamed⟩ := h
  have hp := hH.absent hK hnamed hg hids
  have hchange := hc (hH.entry_eq_none hp)
  rw [← hp] at hchange
  refine ⟨Function.update H p (some g), hH.change hchange ?_ (hH.fresh_members hids)
    (hH.fresh_linked hlinks), ?_⟩
  · rintro _ ⟨⟩
    exact hg.linkless
  · intro q g' hq
    by_cases hqp : q = p
    · rw [hqp, Function.update_self] at hq
      cases hq
      rwa [hqp]
    · rw [Function.update_of_ne hqp] at hq
      exact hnamed q g' hq

omit hK in
theorem index_eq_none {t : Digest} (hpending : r.pendingIndex.lookup t = none)
    (hverified : r.verifiedIndex.lookup t = none) (s : Stage) : r.index s t = none := by
  cases s
  · exact hpending
  · exact hverified

omit hK in
theorem Admits.named {item : TransactionData} (h : Admits env K r item p) (s : Stage) :
    (⟨s, .transaction, [item]⟩ : Group).Named env K p where
  ne_nil := by simp
  payId := h.payId.symm
  hashed := by simpa using h.hashed
  txId := by simpa using h.txId
  single := by
    obtain ⟨signer, hpacked⟩ := h.packed
    exact fun _ => ⟨item, rfl, hpacked.bytes, h.single⟩
  issues := fun hk => absurd rfl hk

omit hK in
theorem IssueSet.named {txs : List TransactionData} (h : IssueSet env K txs p)
    (s : Stage) {k : Kind} (hk : k ≠ .transaction) : (⟨s, k, txs⟩ : Group).Named env K p where
  ne_nil := h.ne_nil
  payId := h.payId.symm
  hashed := h.hashed
  txId tx htx := (h.issues tx htx).txId
  single hk' := absurd hk' hk
  issues := fun _ => h.issues

omit hK in
theorem claims_claim (item : TransactionData) : Claims (claim item) item := by
  have hid (h : item.transaction.link? = none) : Claims id item :=
    ⟨fun _ _ _ _ => rfl, fun _ _ _ => rfl, fun r l => by simp [h]⟩
  unfold claim
  split
  next tx htx => exact claims_claimLink (by rw [htx]; rfl)
  next tx htx => exact claims_claimLink (by rw [htx]; rfl)
  next tx htx => exact claims_claimLink (by rw [htx]; rfl)
  next tx htx => exact claims_claimLink (by rw [htx]; rfl)
  next tx htx => exact claims_spendGrant htx
  next tx htx => exact claims_spendSwap htx
  next tx htx => exact hid (by rw [htx]; rfl)
  next tx htx => exact hid (by rw [htx]; rfl)
  next tx htx => exact hid (by rw [htx]; rfl)
  next tx htx => exact hid (by rw [htx]; rfl)

omit hK in
/-- Only the links and the spend table are touched. -/
theorem claim_eq (item : TransactionData) (r : Reservoir) :
    ∃ links spend, claim item r = { r with inProgressLinks := links, spend := spend } := by
  obtain ⟨txId, tx, packed⟩ := item
  cases tx <;> exact ⟨_, _, rfl⟩

omit hK in
/-- The link of a record that may be admitted is not in progress: the tx id that spends it would be
that of the record, which is in no index. -/
theorem Admits.link_eq_none {item : TransactionData} (h : Admits env K r item p)
    (hr : Pooled env K r) {l : Digest} (hl : item.transaction.link? = some l) :
    r.link l = none := by
  obtain ⟨H, hH, -⟩ := hr
  rcases ht : r.link l with _ | t
  · rfl
  · obtain ⟨q, g, hg, tx, htx, -, rfl⟩ := hH.mem_of_link ht
    have hmem : item.txId ∈ g.ids := by
      rw [← h.link l hl tx.txId ht]
      exact List.mem_map_of_mem htx
    exact absurd hmem (hH.not_mem_ids (index_eq_none h.pending h.verified) hg)

omit hK in
/-- What is held under a pay id is replaced by the same records, or dropped. -/
theorem Pooled.update (h : Pooled env K r)
    (hr' : ∀ H, r.Holds H → ∃ g, r'.Holds (Function.update H p g) ∧
      ∀ g', g = some g' → ∃ s, H p = some ⟨s, g'.kind, g'.txs⟩) : Pooled env K r' := by
  obtain ⟨H, hH, hnamed⟩ := h
  obtain ⟨g, hg, hkept⟩ := hr' H hH
  refine ⟨_, hg, ?_⟩
  intro q g' hq
  by_cases hqp : q = p
  · rw [hqp, Function.update_self] at hq
    obtain ⟨s, hs⟩ := hkept g' hq
    rw [hqp]
    exact (hnamed p _ hs).moved g'.stage
  · rw [Function.update_of_ne hqp] at hq
    exact hnamed q g' hq

/-- Elementary changes keep the pools and the tables together. -/
theorem Effect.pooled (h : Effect env K B r r') (hr : Pooled env K r) : Pooled env K r' := by
  cases h with
  | tables orphanPayments spend enabled =>
    obtain ⟨H, hH, hnamed⟩ := hr
    refine ⟨H, hH.congr ?_ ?_ rfl, hnamed⟩
    · intro s k p
      cases s <;> cases k <;> rfl
    · intro s
      cases s <;> rfl
  | addPending payment hadmits =>
    refine hr.admit hK (hadmits.named .pending) ?_ ?_ (changes_addPending (claims_claim _))
    · simpa [Group.ids] using index_eq_none hadmits.pending hadmits.verified
    · simpa using fun l hl => hadmits.link_eq_none hr hl
  | addVerified p item hadmits =>
    have hindex := index_eq_none hadmits.pending hadmits.verified
    refine hr.admit hK (hadmits.named .verified) ?_ ?_
      fun hnone => changes_addVerified (claims_claim _) hnone hindex
    · simpa [Group.ids] using hindex
    · simpa using fun l hl => hadmits.link_eq_none hr hl
  | addFreeIssues e hadmits =>
    have hnamed := hadmits.named .pending (k := .free) (by decide)
    have hlinkless := hnamed.linkless (by simp)
    refine hr.admit hK hnamed ?_ ?_ fun hnone => changes_addFreeIssues hnone hlinkless
    · simpa [Group.ids] using
        fun tx htx => index_eq_none (hadmits.pending tx htx) (hadmits.verified tx htx)
    · intro tx htx l hl
      rw [hlinkless tx htx] at hl
      cases hl
  | addPaidIssues e hadmits =>
    have hnamed := hadmits.named .pending (k := .paid) (by decide)
    have hlinkless := hnamed.linkless (by simp)
    refine hr.admit hK hnamed ?_ ?_ fun hnone => changes_addPaidIssues hnone hlinkless
    · simpa [Group.ids] using
        fun tx htx => index_eq_none (hadmits.pending tx htx) (hadmits.verified tx htx)
    · intro tx htx l hl
      rw [hlinkless tx htx] at hl
      cases hl
  | addVerifiedIssues e hadmits =>
    have hnamed := hadmits.named .verified (k := .paid) (by decide)
    have hlinkless := hnamed.linkless (by simp)
    have hindex : ∀ tx ∈ e.txs, ∀ s, r.index s tx.txId = none :=
      fun tx htx => index_eq_none (hadmits.pending tx htx) (hadmits.verified tx htx)
    refine hr.admit hK hnamed ?_ ?_ fun hnone => changes_addVerifiedIssues hnone hindex hlinkless
    · simpa [Group.ids] using hindex
    · intro tx htx l hl
      rw [hlinkless tx htx] at hl
      cases hl
  | verifyTransaction p e he =>
    refine hr.update fun H hH => ⟨_, hH.verifyTransaction he, ?_⟩
    rintro _ ⟨⟩
    exact ⟨.pending, hH.entry_eq_some.mp (by simp [Reservoir.entry, he])⟩
  | verifyPaidIssues p e he =>
    refine hr.update fun H hH => ⟨_, hH.verifyPaidIssues he, ?_⟩
    rintro _ ⟨⟩
    exact ⟨.pending, hH.entry_eq_some.mp (by simp [Reservoir.entry, he])⟩
  | verifyIssueByNonce p nonce => exact hr.update fun H hH => hH.verifyIssueByNonce nonce
  | internalDelete p =>
    refine hr.update fun H hH => ⟨none, hH.internalDelete p, ?_⟩
    rintro _ ⟨⟩

theorem Effects.pooled (h : Effects env K B r r') (hr : Pooled env K r) : Pooled env K r' := by
  induction h with
  | refl => exact hr
  | tail _ hstep ih => exact hstep.pooled hK ih

end Change

/-! ## The counts -/

/-- The counts are the numbers of pending issues. -/
structure Counted (r : Reservoir) : Prop where
  free : r.pendingFreeCount = Table.weight (·.txs.length) r.pendingFreeIssues
  paid : r.pendingPaidCount = Table.weight (·.txs.length) r.pendingPaidIssues

theorem counted_empty (autoVerify : Bool) : (Reservoir.empty autoVerify).Counted := ⟨rfl, rfl⟩

/-- The same pending issues and counts. -/
theorem Counted.congr (h : r.Counted) (hfree : r'.pendingFreeIssues = r.pendingFreeIssues)
    (hpaid : r'.pendingPaidIssues = r.pendingPaidIssues)
    (hfreeCount : r'.pendingFreeCount = r.pendingFreeCount)
    (hpaidCount : r'.pendingPaidCount = r.pendingPaidCount) : r'.Counted :=
  ⟨by rw [hfreeCount, hfree, h.free], by rw [hpaidCount, hpaid, h.paid]⟩

theorem Counted.claim (h : r.Counted) (item : TransactionData) : (claim item r).Counted := by
  obtain ⟨links, spend, hclaim⟩ := claim_eq item r
  rw [hclaim]
  exact h.congr rfl rfl rfl rfl

theorem Counted.deletePendingFreeIssues (h : r.Counted) (p : PayId) :
    (r.deletePendingFreeIssues p).Counted := by
  rcases he : r.pendingFreeIssues.lookup p with _ | e
  · simpa only [Reservoir.deletePendingFreeIssues, he] using h
  · simp only [Reservoir.deletePendingFreeIssues, he]
    refine ⟨?_, h.paid⟩
    rw [h.free, Table.weight_erase he]
    push_cast
    ring

theorem Counted.deletePendingPaidIssues (h : r.Counted) (p : PayId) :
    (r.deletePendingPaidIssues p).Counted := by
  rcases he : r.pendingPaidIssues.lookup p with _ | e
  · simpa only [Reservoir.deletePendingPaidIssues, he] using h
  · simp only [Reservoir.deletePendingPaidIssues, he]
    refine ⟨h.free, ?_⟩
    rw [h.paid, Table.weight_erase he]
    push_cast
    ring

theorem Counted.internalDelete (h : r.Counted) (p : PayId) : (r.internalDelete p).Counted := by
  have hsingle : (r.deletePendingTransaction p).Counted := by
    unfold deletePendingTransaction
    split <;> exact h.congr rfl rfl rfl rfl
  have hpending := (hsingle.deletePendingFreeIssues p).deletePendingPaidIssues p
  unfold Reservoir.internalDelete deleteVerifiedPaidIssues
  split
  · unfold deleteVerifiedFreeIssues
    split
    · unfold deleteVerifiedTransaction
      split <;> exact hpending.congr rfl rfl rfl rfl
    · unfold deleteVerifiedTransaction
      split <;> exact hpending.congr rfl rfl rfl rfl
  · unfold deleteVerifiedFreeIssues
    split
    · unfold deleteVerifiedTransaction
      split <;> exact hpending.congr rfl rfl rfl rfl
    · unfold deleteVerifiedTransaction
      split <;> exact hpending.congr rfl rfl rfl rfl

theorem Counted.verifyIssueByNonce (h : r.Counted) (p : PayId) (nonce : Bytes) :
    (r.verifyIssueByNonce p nonce).Counted := by
  by_cases hnonce : nonce = []
  · rwa [Reservoir.verifyIssueByNonce, if_pos hnonce]
  rcases he : r.pendingFreeIssues.lookup p with _ | e
  · simpa only [Reservoir.verifyIssueByNonce, if_neg hnonce, he] using h
  · simp only [Reservoir.verifyIssueByNonce, if_neg hnonce, he]
    refine ⟨?_, h.paid⟩
    rw [h.free, Table.weight_erase he]
    push_cast
    ring

theorem Counted.verifyPaidIssues (h : r.Counted) {e : IssuePaymentData}
    (he : r.pendingPaidIssues.lookup p = some e) : (r.verifyPaidIssues p e).Counted := by
  refine ⟨h.free, ?_⟩
  rw [Reservoir.verifyPaidIssues, h.paid, Table.weight_erase he]
  push_cast
  ring

theorem Counted.addFreeIssues (h : r.Counted) {e : IssueFreeData}
    (he : r.pendingFreeIssues.lookup e.payId = none) : (r.addFreeIssues e).Counted := by
  refine ⟨?_, h.paid⟩
  rw [Reservoir.addFreeIssues, h.free, Table.weight_insert he]
  push_cast
  ring

theorem Counted.addPaidIssues (h : r.Counted) {e : IssuePaymentData}
    (he : r.pendingPaidIssues.lookup e.payId = none) : (r.addPaidIssues e).Counted := by
  refine ⟨h.free, ?_⟩
  rw [Reservoir.addPaidIssues, h.paid, Table.weight_insert he]
  push_cast
  ring

/-- Elementary changes keep the counts. -/
theorem Effect.counted (h : Effect env K B r r') (hr : r.Counted) : r'.Counted := by
  cases h with
  | tables => exact hr.congr rfl rfl rfl rfl
  | addPending payment =>
    have hadd : (r.addPending payment).Counted := hr.congr rfl rfl rfl rfl
    exact hadd.claim _
  | addVerified p item =>
    have hadd : (r.addVerified p item).Counted := hr.congr rfl rfl rfl rfl
    exact hadd.claim _
  | addFreeIssues e _ he => exact hr.addFreeIssues he
  | addPaidIssues e _ he => exact hr.addPaidIssues he
  | addVerifiedIssues e => exact hr.congr rfl rfl rfl rfl
  | verifyTransaction p e => exact hr.congr rfl rfl rfl rfl
  | verifyPaidIssues p e he => exact hr.verifyPaidIssues he
  | verifyIssueByNonce p nonce => exact hr.verifyIssueByNonce p nonce
  | internalDelete p => exact hr.internalDelete p

theorem Effects.counted (h : Effects env K B r r') (hr : r.Counted) : r'.Counted := by
  induction h with
  | refl => exact hr
  | tail _ hstep ih => exact hstep.counted ih

/-! ## Every state of a run -/

/-- A record is under a pay id in a pool of a stage. -/
def InPool (r : Reservoir) (s : Stage) (p : PayId) (tx : TransactionData) : Prop :=
  ∃ k txs, r.entry s k p = some txs ∧ tx ∈ txs

/-- The indexes, the counts and the links describe the pools. -/
structure Structured (r : Reservoir) : Prop where
  exclusive : ∀ t, r.pendingIndex.lookup t = none ∨ r.verifiedIndex.lookup t = none
  pending : ∀ t p, r.pendingIndex.lookup t = some p ↔ ∃ tx, r.InPool .pending p tx ∧ tx.txId = t
  verified : ∀ t p, r.verifiedIndex.lookup t = some p ↔ ∃ tx, r.InPool .verified p tx ∧ tx.txId = t
  counted : r.Counted
  link : ∀ l t, r.inProgressLinks.lookup l = some t ↔
    ∃ s p tx, r.InPool s p tx ∧ tx.transaction.link? = some l ∧ tx.txId = t
  linkOnce : ∀ l s s' p p' tx tx', r.InPool s p tx → r.InPool s' p' tx' →
    tx.transaction.link? = some l → tx'.transaction.link? = some l → s = s' ∧ p = p' ∧ tx = tx'

theorem Holds.inPool {H : PayId → Option Group} (h : r.Holds H) {s : Stage} {tx : TransactionData} :
    r.InPool s p tx ↔ ∃ g, H p = some g ∧ g.stage = s ∧ tx ∈ g.txs := by
  constructor
  · rintro ⟨k, txs, he, htx⟩
    exact ⟨_, h.entry_eq_some.mp he, rfl, htx⟩
  · rintro ⟨⟨_, k, txs⟩, hg, rfl, htx⟩
    exact ⟨k, txs, h.entry_eq_some.mpr hg, htx⟩

theorem Holds.index_iff {H : PayId → Option Group} (h : r.Holds H) {s : Stage} {t : Digest} :
    r.index s t = some p ↔ ∃ tx, r.InPool s p tx ∧ tx.txId = t := by
  rw [h.index_eq_some]
  constructor
  · rintro ⟨g, hg, hs, ht⟩
    obtain ⟨tx, htx, rfl⟩ := List.mem_map.mp ht
    exact ⟨tx, h.inPool.mpr ⟨g, hg, hs, htx⟩, rfl⟩
  · rintro ⟨tx, htx, rfl⟩
    obtain ⟨g, hg, hs, htx⟩ := h.inPool.mp htx
    exact ⟨g, hg, hs, List.mem_map_of_mem htx⟩

/-- A pooled record is the only one with its tx id. -/
theorem Holds.eq_of_txId {H : PayId → Option Group} (h : r.Holds H) {p q : PayId} {g g' : Group}
    {t : Digest} (hp : H p = some g) (hq : H q = some g') (ht : t ∈ g.ids) (ht' : t ∈ g'.ids) :
    p = q :=
  h.apart p q t (Group.members_isSome.mpr ⟨g, hp, ht⟩) (Group.members_isSome.mpr ⟨g', hq, ht'⟩)

theorem Pooled.structured (h : Pooled env K r) (hc : r.Counted) : r.Structured := by
  obtain ⟨H, hH, hnamed⟩ := h
  have hlink : ∀ l t, r.link l = some t ↔
      ∃ s p tx, r.InPool s p tx ∧ tx.transaction.link? = some l ∧ tx.txId = t := by
    intro l t
    constructor
    · intro hl
      obtain ⟨q, g, hg, tx, htx, htl, rfl⟩ := hH.mem_of_link hl
      exact ⟨g.stage, q, tx, hH.inPool.mpr ⟨g, hg, rfl, htx⟩, htl, rfl⟩
    · rintro ⟨s, p, tx, htx, hl, rfl⟩
      obtain ⟨g, hg, -, htx⟩ := hH.inPool.mp htx
      exact (hH.link_of_mem hnamed hg htx hl).2
  refine ⟨?_, fun t p => hH.index_iff (s := .pending), fun t p => hH.index_iff (s := .verified),
    hc, hlink, ?_⟩
  · intro t
    rcases hp : r.pendingIndex.lookup t with _ | p
    · exact Or.inl rfl
    · rcases hq : r.verifiedIndex.lookup t with _ | q
      · exact Or.inr rfl
      · obtain ⟨g, hg, hs, ht⟩ := (hH.index_eq_some (s := .pending)).mp hp
        obtain ⟨g', hg', hs', ht'⟩ := (hH.index_eq_some (s := .verified)).mp hq
        obtain rfl := hH.eq_of_txId hg hg' ht ht'
        rw [hg] at hg'
        cases hg'
        rw [hs] at hs'
        cases hs'
  · intro l s s' p p' tx tx' htx htx' hl hl'
    have ht := (hlink l tx.txId).mpr ⟨s, p, tx, htx, hl, rfl⟩
    have ht' := (hlink l tx'.txId).mpr ⟨s', p', tx', htx', hl', rfl⟩
    have hid : tx.txId = tx'.txId := Option.some.inj (ht.symm.trans ht')
    obtain ⟨g, hg, hs, hmem⟩ := hH.inPool.mp htx
    obtain ⟨g', hg', hs', hmem'⟩ := hH.inPool.mp htx'
    have hids : tx.txId ∈ g.ids := List.mem_map_of_mem hmem
    have hids' : tx.txId ∈ g'.ids := by
      rw [hid]
      exact List.mem_map_of_mem hmem'
    obtain rfl := hH.eq_of_txId hg hg' hids hids'
    rw [hg] at hg'
    cases hg'
    rw [(hH.link_of_mem hnamed hg hmem hl).1, List.mem_singleton] at hmem'
    exact ⟨hs.symm.trans hs', rfl, hmem'.symm⟩

end Reservoir

/-- Every state of a run holds groups under their pay ids. -/
theorem ReservoirRun.pooled {env : Env} {autoVerify : Bool}
    {trace : List (Reservoir × Context × ReservoirOp)} {r : Reservoir}
    (hrun : ReservoirRun env autoVerify trace r) (hdistinct : PayIdsDistinct env trace) :
    Reservoir.Pooled env (trace.flatMap fun x => x.2.2.payBytes) r ∧ r.Counted := by
  let K := trace.flatMap fun x => x.2.2.payBytes
  have hguard : Guarded (fun _ call => ∀ b ∈ call.2.payBytes, b ∈ K) trace := by
    intro x hx b hb
    exact List.mem_flatMap.mpr ⟨x, hx, hb⟩
  refine hrun.invariant (P := fun r => Reservoir.Pooled env K r ∧ r.Counted) hguard
    ⟨Reservoir.pooled_empty autoVerify, Reservoir.counted_empty autoVerify⟩ ?_
  rintro r ⟨ctx, op⟩ r' ⟨hpooled, hcounted⟩ hbytes hstep
  have heffects := hstep.effects (B := False) hbytes False.elim
  exact ⟨heffects.pooled hdistinct hpooled, heffects.counted hcounted⟩

/-- **The reservoir is structured in every state of every run.** -/
theorem reservoir_structured {env : Env} {autoVerify : Bool}
    {trace : List (Reservoir × Context × ReservoirOp)} {r : Reservoir}
    (hrun : ReservoirRun env autoVerify trace r) (hdistinct : PayIdsDistinct env trace) :
    r.Structured := by
  obtain ⟨hpooled, hcounted⟩ := hrun.pooled hdistinct
  exact hpooled.structured hcounted

namespace Sample

/-- A database with these keys and values. -/
def view (pairs : List (Bytes × Bytes)) : View := fun k => pairs.lookup k

/-- The first account owns the issue `id 0x11` and five of the shares of `id 0x12`, both from
block 2. -/
def holdings : View :=
  view [(prefixKey .transactions (id 0x11).bytes, be64 2 ++ packed (issue 1 0x11 1)),
    (prefixKey .ownerTxIndex (ownerKey (account 1) (id 0x11)), be64 0),
    (prefixKey .ownerData (id 0x11).bytes,
      (⟨0, id 0x11, 2, .asset (env.sha3Sum512 [1])⟩ : OwnerData).pack),
    (prefixKey .shares (id 0x12).bytes, be64 5 ++ (id 0x13).bytes),
    (prefixKey .ownerData (id 0x13).bytes,
      (⟨2, id 0x12, 2, .share (env.sha3Sum512 [1])⟩ : OwnerData).pack),
    (prefixKey .shareQuantity (ownerKey (account 1) (id 0x12)), be64 5),
    (prefixKey .blockOwnerPayment (be64 2), payments.bytes)]

/-- The asset with fingerprint 2 is in the cache. -/
def assets : AssetCache :=
  ⟨(∅ : Table AssetIdentifier CacheData).insert (env.sha3Sum512 [2]) ⟨0⟩⟩

/-- The database and the asset cache, at some time. -/
def context (now : Time) : Context := ⟨holdings, 2, now, assets, fun _ => none⟩

/-- The pay id of a record that ends in a signature. -/
def payId (k : UInt8) : PayId := ⟨List.replicate 48 k, List.length_replicate⟩

/-- A payment of everything that is asked for, in bitcoin. -/
def paid : PaymentDetail :=
  ⟨.bitcoin, [], (∅ : Table Bytes UInt64).insert address 1000000⟩

/-- A transfer is stored and paid for, free issues are stored and proved, and a grant is stored. -/
def calls : List (Context × ReservoirOp) :=
  [(context 1, .storeTransfer (.unratified ⟨id 0x11, none, account 2, signature 0x21⟩)),
    (context 1, .setTransferVerified (payId 0x21) paid),
    (context 1, .storeIssues [⟨env.sha3Sum512 [2], account 1, 0, signature 0x31⟩,
      ⟨env.sha3Sum512 [2], account 1, 0, signature 0x32⟩]),
    (context 1, .tryProof (payId 0x32) (List.replicate 32 0)),
    (context 1, .storeGrant ⟨id 0x12, 3, ⟨0, account 1⟩, ⟨1, account 2⟩, 100, signature 0x41,
      signature 0x41⟩)]

/-- The reservoir after some calls. -/
def reservoirAfter (calls : List (Context × ReservoirOp)) : Option Reservoir :=
  execute (ReservoirStep.exec env) calls (Reservoir.empty false)

/-- The calls, each with the reservoir before it. -/
def traceOf (calls : List (Context × ReservoirOp)) : List (Reservoir × Context × ReservoirOp) :=
  executeTrace (ReservoirStep.exec env) calls (Reservoir.empty false)

theorem run_of_reservoirAfter {calls : List (Context × ReservoirOp)} {r : Reservoir}
    (h : reservoirAfter calls = some r) : ReservoirRun env false (traceOf calls) r :=
  run_of_execute ReservoirStep.of_exec h

theorem payIdsDistinct_traceOf {calls : List (Context × ReservoirOp)}
    (h : PayIdsApart env (calls.flatMap fun call => call.2.payBytes)) :
    PayIdsDistinct env (traceOf calls) := by
  have hsame := flatMap_executeTrace (ReservoirStep.exec env)
    (fun call : Context × ReservoirOp => call.2.payBytes) calls (Reservoir.empty false)
  rw [PayIdsDistinct, traceOf, hsame]
  exact h

theorem runs_calls : (reservoirAfter calls).any fun r =>
    r.verifiedIndex.lookup (id 0x21) = some (payId 0x21) ∧
      r.verifiedIndex.lookup (id 0x32) = some (payId 0x32) ∧
      r.pendingIndex.lookup (id 0x41) = some (payId 0x41) := by
  decide +kernel

/-- Records of every kind, in both stages. -/
theorem reservoir_structured_calls : ∃ r, ReservoirRun env false (traceOf calls) r ∧
    PayIdsDistinct env (traceOf calls) ∧
    r.verifiedIndex.lookup (id 0x32) = some (payId 0x32) ∧ r.Structured := by
  obtain ⟨r, hr, h⟩ := (Option.any_eq_true _ _).mp runs_calls
  rw [decide_eq_true_eq] at h
  have hrun := run_of_reservoirAfter hr
  have hdistinct : PayIdsDistinct env (traceOf calls) := payIdsDistinct_traceOf (by decide +kernel)
  exact ⟨r, hrun, hdistinct, h.2.1, reservoir_structured hrun hdistinct⟩

end Sample

end Bitmarkd
