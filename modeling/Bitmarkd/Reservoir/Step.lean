import Bitmarkd.Block.Records
import Bitmarkd.Reservoir.Held
import Bitmarkd.TransactionRecord.Codec

/-!
# Steps of the reservoir

The operations of the reservoir as a transition system (`ReservoirStep`), and what they come to: a
step is a sequence of elementary changes (`Effect`), each of which admits a record or a set of
issues that is new, moves an entry from pending to verified, drops one, or leaves the pools alone.
Invariants of the pools are proved of the elementary changes.
-/

namespace Bitmarkd

open Lib

/-! ## Operations -/

/-- A call, by its name in the source. -/
inductive ReservoirOp
  | storeTransfer (transfer : BitmarkTransfer)
  | storeIssues (issues : List BitmarkIssue)
  | storeGrant (grant : ShareGrant)
  | storeSwap (swap : ShareSwap)
  | setTransferVerified (payId : PayId) (detail : PaymentDetail)
  | tryProof (payId : PayId) (clientNonce : Bytes)
  | deleteExpiredItems (order : Reservoir.PoolOrder)
  | deleteByTxId (txId : Digest)
  | deleteByLink (link : Digest)
  | rescan (order : Reservoir.PoolOrder)
  | clearSpend
  | disable
  | enable

namespace Reservoir

/-- The reservoir after a call that may return an error: an error leaves it as it was. -/
def settle {α : Type} (r : Reservoir) : Except Stop (α × Reservoir) → Except Stop Reservoir
  | .ok (_, r') => .ok r'
  | .error (.fault _) => .ok r
  | .error e => .error e

theorem settle_eq_ok {α : Type} {r r' : Reservoir} {x : Except Stop (α × Reservoir)}
    (h : r.settle x = .ok r') : r' = r ∨ ∃ a, x = .ok (a, r') := by
  rcases x with (_ | _ | _) | ⟨a, r''⟩
  · cases h
    exact Or.inl rfl
  · cases h
  · cases h
  · cases h
    exact Or.inr ⟨a, rfl⟩

end Reservoir

namespace ReservoirOp

/-- The reservoir after a call that does not panic. -/
def run (env : Env) (ctx : Context) (op : ReservoirOp) (r : Reservoir) : Except Stop Reservoir :=
  match op with
  | .storeTransfer transfer => r.settle (r.storeTransfer env ctx transfer)
  | .storeIssues issues =>
    r.settle ((r.storeIssues env ctx issues).map fun (info, r, _) => (info, r))
  | .storeGrant grant => r.settle (r.storeGrant env ctx grant)
  | .storeSwap swap => r.settle (r.storeSwap env ctx swap)
  | .setTransferVerified payId detail => .ok (r.setTransferVerified payId detail)
  | .tryProof payId clientNonce => .ok (r.tryProof env ctx payId clientNonce).2
  | .deleteExpiredItems order => r.deleteExpiredItems ctx.now order
  | .deleteByTxId txId => r.deleteByTxId txId
  | .deleteByLink link => r.deleteByLink link
  | .rescan order => r.rescan env ctx.view order
  | .clearSpend => r.clearSpend
  | .disable => .ok { r with enabled := false }
  | .enable => .ok { r with enabled := true }

/-- The loops of a call go through the pools in some order. -/
def Ordered (r : Reservoir) : ReservoirOp → Prop
  | .deleteExpiredItems order => order.Of r
  | .rescan order => order.Of r
  | _ => True

instance (r : Reservoir) (op : ReservoirOp) : Decidable (op.Ordered r) :=
  match op with
  | .deleteExpiredItems order => inferInstanceAs (Decidable (order.Of r))
  | .rescan order => inferInstanceAs (Decidable (order.Of r))
  | .storeTransfer _ | .storeIssues _ | .storeGrant _ | .storeSwap _ | .setTransferVerified _ _
  | .tryProof _ _ | .deleteByTxId _ | .deleteByLink _ | .clearSpend | .disable | .enable =>
    isTrue trivial

/-- The bytes that a call computes a pay id from. -/
def payBytes : ReservoirOp → List Bytes
  | .storeTransfer transfer => [transfer.record.layout]
  | .storeIssues issues =>
    [(issues.map fun issue => (Transaction.bitmarkIssue issue).layout).flatten]
  | .storeGrant grant => [(Transaction.shareGrant grant).layout]
  | .storeSwap swap => [(Transaction.shareSwap swap).layout]
  | _ => []

end ReservoirOp

/-- A call that does not panic. -/
def ReservoirStep (env : Env) (r : Reservoir) (call : Context × ReservoirOp) (r' : Reservoir) :
    Prop :=
  call.2.Ordered r ∧ call.2.run env call.1 r = .ok r'

/-- A run of calls on a new reservoir. -/
abbrev ReservoirRun (env : Env) (autoVerify : Bool)
    (trace : List (Reservoir × Context × ReservoirOp)) (r : Reservoir) : Prop :=
  Run (ReservoirStep env) (Reservoir.empty autoVerify) trace r

/-- Make a call, if it does not panic. -/
def ReservoirStep.exec (env : Env) (r : Reservoir) (call : Context × ReservoirOp) :
    Option Reservoir :=
  if call.2.Ordered r then (call.2.run env call.1 r).toOption else none

theorem ReservoirStep.of_exec {env : Env} {r r' : Reservoir} {call : Context × ReservoirOp}
    (h : ReservoirStep.exec env r call = some r') : ReservoirStep env r call r' := by
  unfold ReservoirStep.exec at h
  split_ifs at h with hordered
  refine ⟨hordered, ?_⟩
  rcases hrun : call.2.run env call.1 r with e | r''
  · rw [hrun] at h
    cases h
  · rw [hrun] at h
    cases h
    rfl

/-- No two of the strings have the same pay id. -/
def PayIdsApart (env : Env) (K : List Bytes) : Prop :=
  ∀ b ∈ K, ∀ b' ∈ K, env.sha3Sum384 b = env.sha3Sum384 b' → b = b'

instance (env : Env) (K : List Bytes) : Decidable (PayIdsApart env K) :=
  inferInstanceAs (Decidable (∀ b ∈ K, ∀ b' ∈ K, env.sha3Sum384 b = env.sha3Sum384 b' → b = b'))

/-- No two strings that pay ids are computed from in the run have the same pay id. -/
def PayIdsDistinct (env : Env) (trace : List (Reservoir × Context × ReservoirOp)) : Prop :=
  PayIdsApart env (trace.flatMap fun x => x.2.2.payBytes)

/-! ## Elementary changes -/

/-- A record that waits alone: it spends a link or moves shares. -/
def Transaction.IsSingle (tx : Transaction) : Prop := tx.link?.isSome ∨ tx.movesShares

theorem Transaction.IsSingle.tag_ne {tx : Transaction} (h : tx.IsSingle) :
    tx.tag ≠ .bitmarkIssue := by
  cases tx <;> simp_all [IsSingle, link?, movesShares, tag]

namespace Reservoir

/-- What a record takes when it is pooled: its link, or the shares it gives. -/
def claim (item : TransactionData) : Reservoir → Reservoir :=
  match item.transaction with
  | .bitmarkTransferUnratified tx => claimLink tx.link item.txId
  | .bitmarkTransferCountersigned tx => claimLink tx.link item.txId
  | .blockOwnerTransfer tx => claimLink tx.link item.txId
  | .bitmarkShare tx => claimLink tx.link item.txId
  | .shareGrant grant => spendGrant grant
  | .shareSwap swap => spendSwap swap
  | .oldBaseData _ | .assetData _ | .bitmarkIssue _ | .blockFoundation _ => id

/-- A single record is new to the reservoir, and packed as its pay id says. -/
structure Admits (env : Env) (K : List Bytes) (r : Reservoir) (item : TransactionData)
    (p : PayId) : Prop where
  packed : ∃ signer, item.transaction.PackedBy env signer item.packed
  txId : item.txId = env.newDigest item.packed
  payId : p = newPayId env [item.packed]
  hashed : item.packed ∈ K
  single : item.transaction.IsSingle
  pending : r.pendingIndex.lookup item.txId = none
  verified : r.verifiedIndex.lookup item.txId = none
  link : ∀ l, item.transaction.link? = some l → ∀ t, r.inProgressLinks.lookup l = some t →
    t = item.txId
  absent : r.pendingTransactions.lookup p = none

/-- The data of an issue. -/
structure IsIssue (env : Env) (tx : TransactionData) : Prop where
  record : IsRecord env tx.packed tx.transaction
  layout : tx.packed = tx.transaction.layout
  txId : tx.txId = env.newDigest tx.packed
  issue : tx.transaction.tag = .bitmarkIssue

/-- Issues, packed as their pay id says. -/
structure IssueSet (env : Env) (K : List Bytes) (txs : List TransactionData) (p : PayId) :
    Prop where
  ne_nil : txs ≠ []
  issues : ∀ tx ∈ txs, IsIssue env tx
  payId : p = newPayId env (txs.map (·.packed))
  hashed : (txs.map (·.packed)).flatten ∈ K

/-- The issues are new to the reservoir. -/
structure AdmitsIssues (env : Env) (K : List Bytes) (r : Reservoir) (txs : List TransactionData)
    (p : PayId) : Prop extends IssueSet env K txs p where
  pending : ∀ tx ∈ txs, r.pendingIndex.lookup tx.txId = none
  verified : ∀ tx ∈ txs, r.verifiedIndex.lookup tx.txId = none

/-- One elementary change. If `B` holds, a record is made to wait only if there is room for it;
for transfers this is always so. -/
inductive Effect (env : Env) (K : List Bytes) (B : Prop) : Reservoir → Reservoir → Prop
  | tables {r : Reservoir} (orphanPayments : Table PayId PaymentDetail)
      (spend : Table SpendKey UInt64) (enabled : Bool) :
      Effect env K B r { r with orphanPayments, spend, enabled }
  | addPending {r : Reservoir} (payment : TransactionPaymentData) :
      Admits env K r payment.tx payment.payId →
      (payment.tx.transaction.link?.isSome ∨ B →
        r.pendingTransactions.keys.card < maximumPendingTransactions) →
      Effect env K B r (claim payment.tx (r.addPending payment))
  | addVerified {r : Reservoir} (payId : PayId) (item : TransactionData) :
      Admits env K r item payId → Effect env K B r (claim item (r.addVerified payId item))
  | addFreeIssues {r : Reservoir} (e : IssueFreeData) : AdmitsIssues env K r e.txs e.payId →
      r.pendingFreeIssues.lookup e.payId = none →
      r.pendingFreeCount + e.txs.length ≤ maximumPendingFreeIssues →
      Effect env K B r (r.addFreeIssues e)
  | addPaidIssues {r : Reservoir} (e : IssuePaymentData) : AdmitsIssues env K r e.txs e.payId →
      r.pendingPaidIssues.lookup e.payId = none →
      r.pendingPaidCount + e.txs.length < maximumPendingPaidIssues →
      Effect env K B r (r.addPaidIssues e)
  | addVerifiedIssues {r : Reservoir} (e : IssuePaymentData) : AdmitsIssues env K r e.txs e.payId →
      Effect env K B r (r.addVerifiedIssues e)
  | verifyTransaction {r : Reservoir} (payId : PayId) (e : TransactionPaymentData) :
      r.pendingTransactions.lookup payId = some e → Effect env K B r (r.verifyTransaction payId e)
  | verifyPaidIssues {r : Reservoir} (payId : PayId) (e : IssuePaymentData) :
      r.pendingPaidIssues.lookup payId = some e → Effect env K B r (r.verifyPaidIssues payId e)
  | verifyIssueByNonce {r : Reservoir} (payId : PayId) (nonce : Bytes) :
      Effect env K B r (r.verifyIssueByNonce payId nonce)
  | internalDelete {r : Reservoir} (payId : PayId) : Effect env K B r (r.internalDelete payId)

/-- A sequence of elementary changes. -/
abbrev Effects (env : Env) (K : List Bytes) (B : Prop) : Reservoir → Reservoir → Prop :=
  Relation.ReflTransGen (Effect env K B)

variable {env : Env} {K : List Bytes} {B : Prop} {ctx : Context} {v : View} {r r' : Reservoir}

/-! ## Single records -/

/-- What the verification of a single record has checked. -/
structure Verifies (env : Env) (v : View) (r : Reservoir) (tx : Transaction) (info : VerifiedInfo)
    (duplicate : Bool) : Prop where
  packed : ∃ signer, tx.PackedBy env signer info.packed
  txId : info.txId = env.newDigest info.packed
  verified : r.verifiedIndex.lookup info.txId = none
  confirmed : v.has .transactions info.txId.bytes = false
  link : ∀ l, tx.link? = some l → ∀ t, r.inProgressLinks.lookup l = some t → t = info.txId
  duplicate : duplicate = (r.pendingIndex.lookup info.txId).isSome

theorem verifyTransfer_eq_ok {transfer : BitmarkTransfer} {info : VerifiedInfo} {duplicate : Bool}
    (h : r.verifyTransfer env v transfer = .ok (info, duplicate)) :
    Verifies env v r transfer.record info duplicate := by
  obtain ⟨_ | ⟨b, previousPacked⟩, -, h⟩ := bind_eq_ok.mp h
  · simp at h
  obtain ⟨⟨previous, n⟩, -, h⟩ := bind_eq_ok.mp h
  obtain ⟨owner, -, h⟩ := bind_eq_ok.mp h
  obtain ⟨packed, hpack, h⟩ := bind_eq_ok.mp h
  obtain ⟨⟨⟩, -, h⟩ := bind_eq_ok.mp h
  obtain ⟨⟨⟩, hlink, h⟩ := bind_eq_ok.mp h
  obtain ⟨⟨⟩, hverified, h⟩ := bind_eq_ok.mp h
  obtain ⟨⟨⟩, hconfirmed, h⟩ := bind_eq_ok.mp h
  obtain ⟨⟨⟩, -, h⟩ := bind_eq_ok.mp h
  obtain ⟨ownerData, -, h⟩ := bind_eq_ok.mp h
  cases h
  have hpacked : transfer.record.pack env ⟨0, owner⟩ = .ok packed := by
    rw [← hpack]
    cases transfer <;> rfl
  refine ⟨⟨owner, Transaction.pack_eq_ok hpacked⟩, rfl, by simpa using hverified,
    by simpa using hconfirmed, ?_, rfl⟩
  intro l hl t ht
  have hl' : transfer.getLink = l := by simpa using hl
  rw [failIf_eq_ok, hl', ht] at hlink
  simpa using hlink

theorem verifyGrant_eq_ok {height balance : UInt64} {grant : ShareGrant} {info : VerifiedInfo}
    {duplicate : Bool}
    (h : r.verifyGrant env v height grant = .ok (balance, info, duplicate)) :
    Verifies env v r (.shareGrant grant) info duplicate ∧
      checkGrantBalance v grant = .ok balance := by
  obtain ⟨⟨⟩, -, h⟩ := bind_eq_ok.mp h
  obtain ⟨balance', hbalance, h⟩ := bind_eq_ok.mp h
  obtain ⟨packed, hpack, h⟩ := bind_eq_ok.mp h
  obtain ⟨⟨⟩, hverified, h⟩ := bind_eq_ok.mp h
  obtain ⟨⟨⟩, hconfirmed, h⟩ := bind_eq_ok.mp h
  obtain ⟨ownerData, -, h⟩ := bind_eq_ok.mp h
  cases h
  have hpacked : (Transaction.shareGrant grant).pack env grant.owner = .ok packed := hpack
  refine ⟨⟨⟨_, Transaction.pack_eq_ok hpacked⟩, rfl, by simpa using hverified,
    by simpa using hconfirmed, ?_, rfl⟩, hbalance⟩
  intro l hl
  cases hl

theorem verifySwap_eq_ok {height : UInt64} {balances : UInt64 × UInt64} {swap : ShareSwap}
    {info : VerifiedInfo} {duplicate : Bool}
    (h : r.verifySwap env v height swap = .ok (balances, info, duplicate)) :
    Verifies env v r (.shareSwap swap) info duplicate ∧
      checkSwapBalances v swap = .ok balances := by
  obtain ⟨⟨⟩, -, h⟩ := bind_eq_ok.mp h
  obtain ⟨balances', hbalances, h⟩ := bind_eq_ok.mp h
  obtain ⟨packed, hpack, h⟩ := bind_eq_ok.mp h
  obtain ⟨⟨⟩, hverified, h⟩ := bind_eq_ok.mp h
  obtain ⟨⟨⟩, hconfirmed, h⟩ := bind_eq_ok.mp h
  obtain ⟨ownerData, -, h⟩ := bind_eq_ok.mp h
  cases h
  have hpacked : (Transaction.shareSwap swap).pack env swap.ownerOne = .ok packed := hpack
  refine ⟨⟨⟨_, Transaction.pack_eq_ok hpacked⟩, rfl, by simpa using hverified,
    by simpa using hconfirmed, ?_, rfl⟩, hbalances⟩
  intro l hl
  cases hl

/-- The payment is there already, or none is needed: what is stored is verified at once. -/
def VerifiesAtOnce (r : Reservoir) (free : Bool) (p : PayId) (payments : List PaymentAlternative) :
    Prop :=
  ((r.orphanPayments.lookup p).isSome || !free && r.autoVerify) = true ∧
    r.acceptablePayment (r.orphanPayments.lookup p) payments = true

instance (r : Reservoir) (free : Bool) (p : PayId) (payments : List PaymentAlternative) :
    Decidable (r.VerifiesAtOnce free p payments) := inferInstanceAs (Decidable (_ ∧ _))

/-- What a successful `storeItem` has done. -/
inductive StoredItem (now : Time) (limited : Bool) (claim : Reservoir → Reservoir) (a : Admission)
    (r : Reservoir) : List PaymentAlternative × Bool → Reservoir → Prop
  | seen (e : TransactionPaymentData) : r.pendingTransactions.lookup a.payId = some e →
      StoredItem now limited claim a r (e.payments, true) r
  | verified : r.pendingTransactions.lookup a.payId = none → a.duplicate = false →
      r.VerifiesAtOnce false a.payId a.payments →
      StoredItem now limited claim a r (a.payments, false) (claim (r.addVerified a.payId a.item))
  | pending : r.pendingTransactions.lookup a.payId = none → a.duplicate = false →
      ¬ r.VerifiesAtOnce false a.payId a.payments →
      (limited = true → r.pendingTransactions.keys.card < maximumPendingTransactions) →
      StoredItem now limited claim a r (a.payments, false)
        (claim (r.addPending ⟨a.item, a.payId, a.payments, now + reservoirTimeout⟩))

theorem storeItem_eq_ok {now : Time} {limited : Bool} {claim : Reservoir → Reservoir}
    {a : Admission} {out : List PaymentAlternative × Bool}
    (h : r.storeItem now limited claim a = .ok (out, r')) :
    StoredItem now limited claim a r out r' := by
  rcases hseen : r.pendingTransactions.lookup a.payId with _ | e
  · simp only [storeItem, hseen] at h
    split_ifs at h with hdup hverified hlimit
    · simp at h
    · cases h
      rw [Bool.and_eq_true] at hverified
      exact .verified hseen (by simpa using hdup) (by simpa [VerifiesAtOnce] using hverified)
    · simp at h
    · cases h
      refine .pending hseen (by simpa using hdup) ?_ ?_
      · rw [Bool.and_eq_true] at hverified
        simpa [VerifiesAtOnce] using hverified
      intro hl
      by_contra hle
      exact hlimit ⟨hl, not_lt.mp hle⟩
  · simp only [storeItem, hseen] at h
    cases h
    exact .seen e hseen

/-- The record is new and its payment is not there. -/
def Admission.Waits (a : Admission) (r : Reservoir) : Prop :=
  r.pendingTransactions.lookup a.payId = none ∧ a.duplicate = false ∧
    ¬ r.VerifiesAtOnce false a.payId a.payments

/-- If the record is to wait, there is room for it. -/
def Admission.HasRoom (a : Admission) (r : Reservoir) : Prop :=
  a.Waits r → r.pendingTransactions.keys.card < maximumPendingTransactions

/-- There is room for a grant that passes its checks. -/
def GrantHasRoom (env : Env) (ctx : Context) (r : Reservoir) (grant : ShareGrant) : Prop :=
  ∀ balance info duplicate a,
    r.verifyGrant env ctx.view ctx.height grant = .ok (balance, info, duplicate) →
    admission env ctx.view (.shareGrant grant) info duplicate = .ok a → a.HasRoom r

/-- There is room for a swap that passes its checks. -/
def SwapHasRoom (env : Env) (ctx : Context) (r : Reservoir) (swap : ShareSwap) : Prop :=
  ∀ balances info duplicate a,
    r.verifySwap env ctx.view ctx.height swap = .ok (balances, info, duplicate) →
    admission env ctx.view (.shareSwap swap) info duplicate = .ok a → a.HasRoom r

theorem admission_eq_ok {tx : Transaction} {info : VerifiedInfo} {duplicate : Bool} {a : Admission}
    (h : admission env v tx info duplicate = .ok a) :
    a.item = ⟨info.txId, tx, info.packed⟩ ∧ a.payId = newPayId env [info.packed] ∧
      a.duplicate = duplicate := by
  obtain ⟨payments, -, h⟩ := bind_eq_ok.mp h
  cases h
  exact ⟨rfl, rfl, rfl⟩

/-- A record that has been verified and is not pooled may be admitted. -/
theorem Verifies.admits {a : Admission} {tx : Transaction} {info : VerifiedInfo} {duplicate : Bool}
    (hv : Verifies env v r tx info duplicate) (ha : admission env v tx info duplicate = .ok a)
    (hK : tx.layout ∈ K) (hsingle : tx.IsSingle)
    (hseen : r.pendingTransactions.lookup a.payId = none) (hd : a.duplicate = false) :
    Admits env K r a.item a.payId := by
  obtain ⟨hitem, hpayId, hdup⟩ := admission_eq_ok ha
  obtain ⟨signer, hpacked⟩ := hv.packed
  rw [hdup, hv.duplicate, Option.isSome_eq_false_iff, Option.isNone_iff_eq_none] at hd
  rw [hitem]
  refine ⟨⟨signer, hpacked⟩, hv.txId, hpayId, ?_, hsingle, hd, hv.verified, hv.link, hseen⟩
  rw [hpacked.bytes]
  exact hK

/-- Storing a record that has been verified is an elementary change, or none. -/
theorem StoredItem.effects {now : Time} {limited : Bool} {claim' : Reservoir → Reservoir}
    {a : Admission} {out : List PaymentAlternative × Bool} {tx : Transaction} {info : VerifiedInfo}
    {duplicate : Bool} (h : StoredItem now limited claim' a r out r')
    (hv : Verifies env v r tx info duplicate) (ha : admission env v tx info duplicate = .ok a)
    (hK : tx.layout ∈ K) (hsingle : tx.IsSingle) (hclaim : claim' = claim a.item)
    (hlimited : limited = true ∨ tx.link? = none ∧ (B → a.HasRoom r)) : Effects env K B r r' := by
  obtain ⟨hitem, -, -⟩ := admission_eq_ok ha
  subst hclaim
  cases h with
  | seen => exact .refl
  | verified hseen hd =>
    exact .single (.addVerified a.payId a.item (hv.admits ha hK hsingle hseen hd))
  | pending hseen hd hnot hlimit =>
    refine .single (.addPending ⟨a.item, a.payId, a.payments, _⟩
      (hv.admits ha hK hsingle hseen hd) ?_)
    intro hor
    rcases hlimited with hl | ⟨hlink, hroom⟩
    · exact hlimit hl
    · rw [hitem, hlink] at hor
      exact hroom (hor.resolve_left (by simp)) ⟨hseen, hd, hnot⟩

theorem storeTransfer_effects {transfer : BitmarkTransfer} {out : TransferInfo × Bool}
    (h : r.storeTransfer env ctx transfer = .ok (out, r'))
    (hK : transfer.record.layout ∈ K) : Effects env K B r r' := by
  obtain ⟨⟨info, duplicate⟩, hverify, h⟩ := bind_eq_ok.mp h
  obtain ⟨a, ha, h⟩ := bind_eq_ok.mp h
  obtain ⟨⟨⟨payments, seen⟩, r''⟩, hstore, h⟩ := bind_eq_ok.mp h
  cases h
  have hitem := (admission_eq_ok ha).1
  refine (storeItem_eq_ok hstore).effects (verifyTransfer_eq_ok hverify) ha hK ?_ ?_ ?_
  · exact Or.inl (by simp)
  · rw [hitem]
    cases transfer <;> rfl
  · exact Or.inl rfl

theorem storeGrant_effects {grant : ShareGrant} {out : GrantInfo × Bool}
    (h : r.storeGrant env ctx grant = .ok (out, r'))
    (hK : (Transaction.shareGrant grant).layout ∈ K) (hroom : B → GrantHasRoom env ctx r grant) :
    Effects env K B r r' := by
  obtain ⟨⟨balance, info, duplicate⟩, hverify, h⟩ := bind_eq_ok.mp h
  obtain ⟨a, ha, h⟩ := bind_eq_ok.mp h
  obtain ⟨⟨⟨payments, seen⟩, r''⟩, hstore, h⟩ := bind_eq_ok.mp h
  cases h
  have hitem := (admission_eq_ok ha).1
  refine (storeItem_eq_ok hstore).effects (verifyGrant_eq_ok hverify).1 ha hK ?_ ?_ ?_
  · exact Or.inr rfl
  · rw [hitem]
    rfl
  · exact Or.inr ⟨rfl, fun hB => hroom hB _ _ _ _ hverify ha⟩

theorem storeSwap_effects {swap : ShareSwap} {out : SwapInfo × Bool}
    (h : r.storeSwap env ctx swap = .ok (out, r'))
    (hK : (Transaction.shareSwap swap).layout ∈ K) (hroom : B → SwapHasRoom env ctx r swap) :
    Effects env K B r r' := by
  obtain ⟨⟨⟨balanceOne, balanceTwo⟩, info, duplicate⟩, hverify, h⟩ := bind_eq_ok.mp h
  obtain ⟨a, ha, h⟩ := bind_eq_ok.mp h
  obtain ⟨⟨⟨payments, seen⟩, r''⟩, hstore, h⟩ := bind_eq_ok.mp h
  cases h
  have hitem := (admission_eq_ok ha).1
  refine (storeItem_eq_ok hstore).effects (verifySwap_eq_ok hverify).1 ha hK ?_ ?_ ?_
  · exact Or.inr rfl
  · rw [hitem]
    rfl
  · exact Or.inr ⟨rfl, fun hB => hroom hB _ _ _ _ hverify ha⟩

/-! ## Issues -/

/-- What the check of one issue has found. -/
structure IssueChecked (env : Env) (ctx : Context) (r : Reservoir) (issue : BitmarkIssue)
    (tx : TransactionData) : Prop where
  transaction : tx.transaction = .bitmarkIssue issue
  packed : (Transaction.bitmarkIssue issue).PackedBy env issue.owner tx.packed
  network : issue.owner.isTesting = env.isTesting
  txId : tx.txId = env.newDigest tx.packed
  asset : ctx.assets.exists? ctx.view issue.assetId = true
  verified : r.verifiedIndex.lookup tx.txId = none
  confirmed : ctx.view.has .transactions tx.txId.bytes = false

theorem checkIssue_eq_ok {issue : BitmarkIssue} {tx : TransactionData} {duplicate : Bool}
    (h : checkIssue env ctx r issue = .ok (tx, duplicate)) :
    IssueChecked env ctx r issue tx ∧ duplicate = (r.pendingIndex.lookup tx.txId).isSome := by
  obtain ⟨⟨⟩, hnetwork, h⟩ := bind_eq_ok.mp h
  obtain ⟨packed, hpack, h⟩ := bind_eq_ok.mp h
  obtain ⟨⟨⟩, hasset, h⟩ := bind_eq_ok.mp h
  obtain ⟨⟨⟩, hverified, h⟩ := bind_eq_ok.mp h
  obtain ⟨⟨⟩, hconfirmed, h⟩ := bind_eq_ok.mp h
  cases h
  have hpacked : (Transaction.bitmarkIssue issue).pack env ⟨0, issue.owner⟩ = .ok packed := hpack
  exact ⟨⟨rfl, Transaction.pack_eq_ok hpacked, by simpa using hnetwork, rfl, by simpa using hasset,
    by simpa using hverified, by simpa using hconfirmed⟩, rfl⟩

/-- A packed issue reads back. -/
theorem IssueChecked.isIssue {issue : BitmarkIssue} {tx : TransactionData}
    (h : IssueChecked env ctx r issue tx) : IsIssue env tx := by
  have hreadable : (Transaction.bitmarkIssue issue).Readable env env.isTesting := by
    rw [← h.network, h.packed.readable_iff]
    refine ⟨?_, ?_⟩
    · simp [Transaction.accounts]
    · simp [Transaction.addresses]
  refine ⟨?_, by rw [h.packed.bytes, h.transaction], h.txId, by rw [h.transaction]; rfl⟩
  have hunpack := unpack_layout h.packed.sized hreadable []
  rw [List.append_nil, ← h.packed.bytes] at hunpack
  rw [IsRecord, h.transaction]
  exact hunpack

/-- What the check phase of `storeIssues` has found, when the issues are to be committed. -/
structure Prepared (env : Env) (ctx : Context) (r : Reservoir) (q : PreparedIssues) : Prop where
  ne_nil : q.issues ≠ []
  length_le : q.issues.length ≤ maximumIssues
  checked : List.Forall₂ (IssueChecked env ctx r) q.issues q.txs
  payId : q.payId = newPayId env (q.txs.map (·.packed))
  free_absent : r.pendingFreeIssues.lookup q.payId = none
  paid_absent : r.pendingPaidIssues.lookup q.payId = none
  pending : ∀ tx ∈ q.txs, r.pendingIndex.lookup tx.txId = none
  paid : q.free = none → ∃ first payments, (∀ issue ∈ q.issues, issue.assetId = first) ∧
    issuePayments env ctx.view first q.issues.length = .ok payments ∧ q.payments = payments
  free : q.free.isSome → q.payments = []

theorem checkIssues_eq_ok {issues : List BitmarkIssue} {q : PreparedIssues}
    (h : r.checkIssues env ctx issues = .ok (.inr q)) :
    Prepared env ctx r q ∧ q.issues = issues := by
  rcases issues with _ | ⟨first, rest⟩
  · simp [checkIssues] at h
  obtain ⟨⟨⟩, hlength, h⟩ := bind_eq_ok.mp h
  obtain ⟨checked, hchecked, h⟩ := bind_eq_ok.mp h
  have hall := mapM_eq_ok hchecked
  have hlist : List.Forall₂ (IssueChecked env ctx r) (first :: rest) (checked.map Prod.fst) := by
    rw [List.forall₂_map_right_iff]
    exact hall.imp fun issue x hx => (checkIssue_eq_ok hx).1
  have hlength : (first :: rest).length ≤ maximumIssues := by
    rw [failIf_eq_ok] at hlength
    exact not_lt.mp hlength
  rcases hfree : r.pendingFreeIssues.lookup
    (newPayId env ((checked.map Prod.fst).map (·.packed))) with _ | e
  swap
  · simp only [hfree] at h
    cases h
  rcases hpaid : r.pendingPaidIssues.lookup
    (newPayId env ((checked.map Prod.fst).map (·.packed))) with _ | e
  swap
  · simp only [hfree, hpaid] at h
    cases h
  simp only [hfree, hpaid] at h
  obtain ⟨⟨⟩, hnew, h⟩ := bind_eq_ok.mp h
  have hpending : ∀ tx ∈ checked.map Prod.fst, r.pendingIndex.lookup tx.txId = none := by
    rw [failIf_eq_ok, Bool.not_eq_true, List.any_eq_false] at hnew
    intro tx htx
    obtain ⟨x, hx, rfl⟩ := List.mem_map.mp htx
    obtain ⟨issue, -, hissue⟩ := exists_of_mem_right hall hx
    have hdup := (checkIssue_eq_ok hissue).2
    have hx2 := hnew x hx
    rw [hdup] at hx2
    simpa using hx2
  split_ifs at h with hnonce
  · cases h
    exact ⟨⟨by simp, hlength, hlist, rfl, hfree, hpaid, hpending, by simp, fun _ => rfl⟩, rfl⟩
  · obtain ⟨⟨⟩, hunique, h⟩ := bind_eq_ok.mp h
    obtain ⟨payments, hpayments, h⟩ := bind_eq_ok.mp h
    cases h
    refine ⟨⟨by simp, hlength, hlist, rfl, hfree, hpaid, hpending, ?_, by simp⟩, rfl⟩
    intro _
    refine ⟨first.assetId, payments, ?_, hpayments, rfl⟩
    simpa using hunique

theorem Prepared.packed_eq {q : PreparedIssues} (h : Prepared env ctx r q) :
    q.txs.map (·.packed) = q.issues.map fun issue => (Transaction.bitmarkIssue issue).layout := by
  have hall := h.checked
  generalize q.issues = issues at hall
  generalize q.txs = txs at hall
  induction hall with
  | nil => rfl
  | cons hissue _ ih => rw [List.map_cons, List.map_cons, hissue.packed.bytes, ih]

/-- Issues that passed the checks are packed as their pay id says. -/
theorem Prepared.issueSet {q : PreparedIssues} (h : Prepared env ctx r q)
    (hK : (q.issues.map fun issue => (Transaction.bitmarkIssue issue).layout).flatten ∈ K) :
    IssueSet env K q.txs q.payId where
  ne_nil := by
    intro hnil
    have hlength := h.checked.length_eq
    rw [hnil] at hlength
    exact h.ne_nil (List.eq_nil_of_length_eq_zero hlength)
  issues tx htx := by
    obtain ⟨issue, -, hissue⟩ := exists_of_mem_right h.checked htx
    exact hissue.isIssue
  payId := h.payId
  hashed := by
    rw [h.packed_eq]
    exact hK

/-- They are new to the reservoir. -/
theorem Prepared.admits {q : PreparedIssues} (h : Prepared env ctx r q)
    (hK : (q.issues.map fun issue => (Transaction.bitmarkIssue issue).layout).flatten ∈ K) :
    AdmitsIssues env K r q.txs q.payId where
  toIssueSet := h.issueSet hK
  pending := h.pending
  verified tx htx := by
    obtain ⟨issue, -, hissue⟩ := exists_of_mem_right h.checked htx
    exact hissue.verified

/-- What a successful `commitIssues` has done. -/
inductive CommittedIssues (now : Time) (q : PreparedIssues) (r : Reservoir) (c : AssetCache) :
    Reservoir → AssetCache → Prop
  | verified : r.VerifiesAtOnce q.free.isSome q.payId q.payments →
      CommittedIssues now q r c
        (r.addVerifiedIssues ⟨q.txs, q.payId, q.payments, now + reservoirTimeout⟩) c
  | free (nonce : PayNonce) (difficulty : Nat) : q.free = some (nonce, difficulty) →
      ¬ r.VerifiesAtOnce q.free.isSome q.payId q.payments →
      r.pendingFreeCount + q.txs.length ≤ maximumPendingFreeIssues →
      CommittedIssues now q r c
        (r.addFreeIssues ⟨q.txs, q.payId, nonce, difficulty, now + reservoirTimeout⟩)
        (q.issues.foldl (fun c issue => c.incrementTTL issue.assetId) c)
  | paid : q.free = none → ¬ r.VerifiesAtOnce q.free.isSome q.payId q.payments →
      r.pendingPaidCount + q.txs.length < maximumPendingPaidIssues →
      CommittedIssues now q r c
        (r.addPaidIssues ⟨q.txs, q.payId, q.payments, now + reservoirTimeout⟩) c

theorem commitIssues_eq_ok {now : Time} {q : PreparedIssues} {c c' : AssetCache}
    (h : commitIssues now q (r, c) = .ok (r', c')) : CommittedIssues now q r c r' c' := by
  have hiff : (((r.orphanPayments.lookup q.payId).isSome || q.free.isNone && r.autoVerify) &&
      r.acceptablePayment (r.orphanPayments.lookup q.payId) q.payments) = true ↔
      r.VerifiesAtOnce q.free.isSome q.payId q.payments := by
    rw [Bool.and_eq_true, VerifiesAtOnce, Option.not_isSome]
  by_cases hverified : r.VerifiesAtOnce q.free.isSome q.payId q.payments
  · simp only [commitIssues, if_pos (hiff.mpr hverified)] at h
    cases h
    exact .verified hverified
  · simp only [commitIssues, if_neg (mt hiff.mp hverified)] at h
    rcases hfree : q.free with _ | ⟨nonce, difficulty⟩
    · simp only [hfree] at h
      split_ifs at h with hlimit
      · simp at h
      · cases h
        exact .paid hfree hverified (not_le.mp hlimit)
    · simp only [hfree] at h
      split_ifs at h with hlimit
      · simp at h
      · cases h
        exact .free nonce difficulty hfree hverified (not_lt.mp hlimit)

/-- Committing issues that are new to the reservoir is an elementary change. -/
theorem CommittedIssues.effects {now : Time} {q : PreparedIssues} {c c' : AssetCache}
    (h : CommittedIssues now q r c r' c') (hadmits : AdmitsIssues env K r q.txs q.payId)
    (hfree : r.pendingFreeIssues.lookup q.payId = none)
    (hpaid : r.pendingPaidIssues.lookup q.payId = none) : Effects env K B r r' := by
  cases h with
  | verified => exact .single (.addVerifiedIssues _ hadmits)
  | free nonce difficulty _ _ hlimit => exact .single (.addFreeIssues _ hadmits hfree hlimit)
  | paid _ _ hlimit => exact .single (.addPaidIssues _ hadmits hpaid hlimit)

theorem storeIssues_effects {issues : List BitmarkIssue} {out : IssueInfo × Bool} {c : AssetCache}
    (h : r.storeIssues env ctx issues = .ok (out, r', c))
    (hK : (issues.map fun issue => (Transaction.bitmarkIssue issue).layout).flatten ∈ K) :
    Effects env K B r r' := by
  obtain ⟨_ | q, hcheck, h⟩ := bind_eq_ok.mp h
  · cases h
    exact .refl
  · obtain ⟨⟨r'', c''⟩, hcommit, h⟩ := bind_eq_ok.mp h
    cases h
    obtain ⟨hprepared, rfl⟩ := checkIssues_eq_ok hcheck
    exact (commitIssues_eq_ok hcommit).effects (hprepared.admits hK) hprepared.free_absent
      hprepared.paid_absent

/-! ## Verification -/

/-- The payment has no entry to verify. -/
def addOrphan (p : PayId) (detail : PaymentDetail) (r : Reservoir) : Reservoir :=
  { r with orphanPayments := r.orphanPayments.insert p detail }

theorem setTransferVerified_of_transaction {p : PayId} {e : TransactionPaymentData}
    (h : r.pendingTransactions.lookup p = some e) (detail : PaymentDetail) :
    r.setTransferVerified p detail =
      if r.acceptablePayment (some detail) e.payments then r.verifyTransaction p e
      else r.addOrphan p detail := by
  simp only [setTransferVerified, setVerified, h]
  split_ifs <;> rfl

theorem setTransferVerified_of_paid {p : PayId} {e : IssuePaymentData}
    (h : r.pendingTransactions.lookup p = none) (he : r.pendingPaidIssues.lookup p = some e)
    (detail : PaymentDetail) :
    r.setTransferVerified p detail =
      if r.acceptablePayment (some detail) e.payments then r.verifyPaidIssues p e
      else r.addOrphan p detail := by
  simp only [setTransferVerified, setVerified, h, he]
  split_ifs <;> rfl

theorem setTransferVerified_of_none {p : PayId} (h : r.pendingTransactions.lookup p = none)
    (he : r.pendingPaidIssues.lookup p = none) (detail : PaymentDetail) :
    r.setTransferVerified p detail = r.addOrphan p detail := by
  simp only [setTransferVerified, setVerified, h, he]
  rfl

theorem setTransferVerified_effects (p : PayId) (detail : PaymentDetail) :
    Effects env K B r (r.setTransferVerified p detail) := by
  have horphan : Effects env K B r (r.addOrphan p detail) := .single (.tables _ r.spend r.enabled)
  rcases hsingle : r.pendingTransactions.lookup p with _ | e
  · rcases hpaid : r.pendingPaidIssues.lookup p with _ | e
    · rwa [setTransferVerified_of_none hsingle hpaid]
    · rw [setTransferVerified_of_paid hsingle hpaid]
      split_ifs
      · exact .single (.verifyPaidIssues p e hpaid)
      · exact horphan
  · rw [setTransferVerified_of_transaction hsingle]
    split_ifs
    · exact .single (.verifyTransaction p e hsingle)
    · exact horphan

theorem tryProof_effects (p : PayId) (nonce : Bytes) :
    Effects env K B r (r.tryProof env ctx p nonce).2 := by
  unfold tryProof
  split
  · exact .single (.verifyIssueByNonce p nonce)
  · exact .refl

/-! ## Deletion -/

theorem deleteIndexed_effects (index : Reservoir → Table Digest PayId) (t : Digest) :
    Effects env K B r (r.deleteIndexed index t) := by
  unfold deleteIndexed
  split
  · exact .refl
  · exact .single (.internalDelete _)

theorem internalDeleteByTxId_effects (t : Digest) : Effects env K B r (r.internalDeleteByTxId t) :=
  (deleteIndexed_effects pendingIndex t).trans (deleteIndexed_effects verifiedIndex t)

/-- A loop over a pool whose rounds are sequences of elementary changes is one. -/
theorem rangeLoop_effects {β : Type} {table : Reservoir → Table PayId β}
    {body : PayId → β → Reservoir → Except Stop Reservoir}
    (hbody : ∀ p b s s', body p b s = .ok s' → Effects env K B s s') {order : List PayId}
    (h : Table.rangeLoop table body order r = .ok r') : Effects env K B r r' :=
  Table.rangeLoop_invariant (P := Effects env K B r)
    (fun p b s s' _ hs hb => hs.trans (hbody p b s s' hb)) h .refl

theorem deleteExpired_effects {now exp : Time} {p : PayId}
    (h : r.deleteExpired now exp p = .ok r') : Effects env K B r r' := by
  cases h
  split_ifs
  · exact .single (.internalDelete p)
  · exact .refl

theorem deleteExpiredItems_effects {now : Time} {order : PoolOrder}
    (h : r.deleteExpiredItems now order = .ok r') : Effects env K B r r' := by
  obtain ⟨r₁, h₁, h⟩ := bind_eq_ok.mp h
  obtain ⟨r₂, h₂, h⟩ := bind_eq_ok.mp h
  refine (rangeLoop_effects ?_ h₁).trans ((rangeLoop_effects ?_ h₂).trans (rangeLoop_effects ?_ h))
  all_goals
    intro p e s s' hs
    exact deleteExpired_effects hs

/-! ## Rescanning -/

theorem spend_effects (spend : Table SpendKey UInt64) : Effects env K B r { r with spend } :=
  .single (.tables r.orphanPayments spend r.enabled)

/-- **A round of `Rescan`** deletes the record, or changes the spend table at most. -/
theorem rescanItem_cases {item : TransactionData} (h : r.rescanItem env v item = .ok r') :
    r' = r.internalDeleteByTxId item.txId ∨ ∃ spend, r' = { r with spend } := by
  have htransfer {l : Digest} (h : r.rescanTransfer env v item.txId l = .ok r') :
      r' = r.internalDeleteByTxId item.txId ∨ ∃ spend, r' = { r with spend } := by
    obtain ⟨owned, -, h⟩ := bind_eq_ok.mp h
    cases owned with
    | true =>
      cases h
      exact .inr ⟨_, rfl⟩
    | false =>
      cases h
      exact .inl rfl
  unfold rescanItem at h
  split at h
  · simp at h
  · simp at h
  · simp at h
  · cases h
    split_ifs
    · exact .inl rfl
    · exact .inr ⟨_, rfl⟩
  · exact htransfer h
  · exact htransfer h
  · exact htransfer h
  · exact htransfer h
  · split at h
    · cases h
      exact .inl rfl
    · cases h
    · cases h
      exact .inr ⟨_, rfl⟩
  · split at h
    · cases h
      exact .inl rfl
    · cases h
    · cases h
      exact .inr ⟨_, rfl⟩

theorem rescanItem_effects {item : TransactionData} (h : r.rescanItem env v item = .ok r') :
    Effects env K B r r' := by
  rcases rescanItem_cases h with rfl | ⟨spend, rfl⟩
  · exact internalDeleteByTxId_effects _
  · exact spend_effects spend

theorem rescanItems_effects {items : List TransactionData}
    (h : r.rescanItems env v items = .ok r') : Effects env K B r r' := by
  induction items generalizing r with
  | nil =>
    cases h
    exact .refl
  | cons item items ih =>
    obtain ⟨r₁, h₁, h⟩ := bind_eq_ok.mp h
    exact (rescanItem_effects h₁).trans (ih h)

theorem rescan_effects {order : PoolOrder} (h : r.rescan env v order = .ok r') :
    Effects env K B r r' := by
  obtain ⟨r₁, h₁, h⟩ := bind_eq_ok.mp h
  obtain ⟨r₂, h₂, h⟩ := bind_eq_ok.mp h
  obtain ⟨r₃, h₃, h⟩ := bind_eq_ok.mp h
  obtain ⟨r₄, h₄, h⟩ := bind_eq_ok.mp h
  obtain ⟨r₅, h₅, h⟩ := bind_eq_ok.mp h
  refine (spend_effects ∅).trans ?_
  refine (rangeLoop_effects ?_ h₁).trans ((rangeLoop_effects ?_ h₂).trans
    ((rangeLoop_effects ?_ h₃).trans ((rangeLoop_effects ?_ h₄).trans
      ((rangeLoop_effects ?_ h₅).trans (rangeLoop_effects ?_ h)))))
  · exact fun p e s s' hs => rescanItem_effects hs
  · exact fun p e s s' hs => rescanItems_effects hs
  · exact fun p e s s' hs => rescanItems_effects hs
  · exact fun p e s s' hs => rescanItem_effects hs
  · exact fun p e s s' hs => rescanItems_effects hs
  · exact fun p e s s' hs => rescanItems_effects hs

end Reservoir

/-- There is room for a grant or a swap that passes its checks. -/
def ReservoirOp.HasRoom (env : Env) (ctx : Context) (r : Reservoir) : ReservoirOp → Prop
  | .storeGrant grant => Reservoir.GrantHasRoom env ctx r grant
  | .storeSwap swap => Reservoir.SwapHasRoom env ctx r swap
  | _ => True

/-- **A step is a sequence of elementary changes.** -/
theorem ReservoirStep.effects {env : Env} {K : List Bytes} {B : Prop} {ctx : Context}
    {op : ReservoirOp} {r r' : Reservoir} (h : ReservoirStep env r (ctx, op) r')
    (hK : ∀ b ∈ op.payBytes, b ∈ K) (hroom : B → op.HasRoom env ctx r) :
    Reservoir.Effects env K B r r' := by
  have hrun := h.2
  cases op with
  | storeTransfer transfer =>
    rcases Reservoir.settle_eq_ok hrun with rfl | ⟨out, hstore⟩
    · exact .refl
    · exact Reservoir.storeTransfer_effects hstore (hK _ (List.mem_singleton_self _))
  | storeIssues issues =>
    rcases Reservoir.settle_eq_ok hrun with rfl | ⟨out, hstore⟩
    · exact .refl
    · rcases hs : r.storeIssues env ctx issues with e | ⟨out', r'', c⟩
      · rw [hs] at hstore
        cases hstore
      · rw [hs] at hstore
        cases hstore
        exact Reservoir.storeIssues_effects hs (hK _ (List.mem_singleton_self _))
  | storeGrant grant =>
    rcases Reservoir.settle_eq_ok hrun with rfl | ⟨out, hstore⟩
    · exact .refl
    · exact Reservoir.storeGrant_effects hstore (hK _ (List.mem_singleton_self _)) hroom
  | storeSwap swap =>
    rcases Reservoir.settle_eq_ok hrun with rfl | ⟨out, hstore⟩
    · exact .refl
    · exact Reservoir.storeSwap_effects hstore (hK _ (List.mem_singleton_self _)) hroom
  | setTransferVerified p detail =>
    cases hrun
    exact Reservoir.setTransferVerified_effects p detail
  | tryProof p nonce =>
    cases hrun
    exact Reservoir.tryProof_effects p nonce
  | deleteExpiredItems order => exact Reservoir.deleteExpiredItems_effects hrun
  | deleteByTxId t =>
    simp only [ReservoirOp.run, Reservoir.deleteByTxId] at hrun
    split_ifs at hrun
    · simp at hrun
    · cases hrun
      exact Reservoir.internalDeleteByTxId_effects t
  | deleteByLink l =>
    simp only [ReservoirOp.run, Reservoir.deleteByLink] at hrun
    split_ifs at hrun
    · simp at hrun
    · split at hrun
      · cases hrun
        exact .refl
      · cases hrun
        exact Reservoir.internalDeleteByTxId_effects _
  | rescan order => exact Reservoir.rescan_effects hrun
  | clearSpend =>
    simp only [ReservoirOp.run, Reservoir.clearSpend] at hrun
    split_ifs at hrun
    · simp at hrun
    · cases hrun
      exact Reservoir.spend_effects ∅
  | disable =>
    cases hrun
    exact .single (.tables r.orphanPayments r.spend false)
  | enable =>
    cases hrun
    exact .single (.tables r.orphanPayments r.spend true)

end Bitmarkd
