import Bitmarkd.Reservoir.Structure

/-!
# The size of the reservoir

Free and paid issues and transfers are refused when their pending pool is full. Grants and swaps go
to the same pool as transfers, but their number is not limited: `Sample.grants_unlimited` has more
of them than there may be pending transactions. As long as there is room for the grants and swaps
that come in, all three pools stay within their limits (`reservoir_bounded`).
-/

namespace Bitmarkd

open Lib

namespace Reservoir

variable {env : Env} {K : List Bytes} {r r' : Reservoir} {p : PayId}

/-- The pending pools are within their limits. -/
structure Bounded (r : Reservoir) : Prop where
  transactions : r.pendingTransactions.keys.card ≤ maximumPendingTransactions
  free : r.pendingFreeCount ≤ maximumPendingFreeIssues
  paid : r.pendingPaidCount ≤ maximumPendingPaidIssues

/-- The reservoir has not grown. -/
structure NotAbove (r' r : Reservoir) : Prop where
  transactions : r'.pendingTransactions.keys.card ≤ r.pendingTransactions.keys.card
  free : r'.pendingFreeCount ≤ r.pendingFreeCount
  paid : r'.pendingPaidCount ≤ r.pendingPaidCount

theorem Bounded.mono (h : r.Bounded) (hle : NotAbove r' r) : r'.Bounded :=
  ⟨hle.transactions.trans h.transactions, hle.free.trans h.free, hle.paid.trans h.paid⟩

theorem NotAbove.refl (r : Reservoir) : NotAbove r r := ⟨le_rfl, le_rfl, le_rfl⟩

theorem NotAbove.trans {r'' : Reservoir} (h : NotAbove r'' r') (h' : NotAbove r' r) :
    NotAbove r'' r :=
  ⟨h.transactions.trans h'.transactions, h.free.trans h'.free, h.paid.trans h'.paid⟩

theorem internalDelete_notAbove (r : Reservoir) (p : PayId) : NotAbove (r.internalDelete p) r := by
  have h₁ (r : Reservoir) : NotAbove (r.deletePendingTransaction p) r := by
    unfold deletePendingTransaction
    split
    · exact .refl r
    · exact ⟨Table.card_keys_erase_le _ _, le_rfl, le_rfl⟩
  have h₂ (r : Reservoir) : NotAbove (r.deletePendingFreeIssues p) r := by
    unfold deletePendingFreeIssues
    split
    · exact .refl r
    · exact ⟨le_rfl, sub_le_self _ (Int.natCast_nonneg _), le_rfl⟩
  have h₃ (r : Reservoir) : NotAbove (r.deletePendingPaidIssues p) r := by
    unfold deletePendingPaidIssues
    split
    · exact .refl r
    · exact ⟨le_rfl, le_rfl, sub_le_self _ (Int.natCast_nonneg _)⟩
  have h₄ (r : Reservoir) : NotAbove (r.deleteVerifiedTransaction p) r := by
    unfold deleteVerifiedTransaction
    split <;> exact ⟨le_rfl, le_rfl, le_rfl⟩
  have h₅ (r : Reservoir) : NotAbove (r.deleteVerifiedFreeIssues p) r := by
    unfold deleteVerifiedFreeIssues
    split <;> exact ⟨le_rfl, le_rfl, le_rfl⟩
  have h₆ (r : Reservoir) : NotAbove (r.deleteVerifiedPaidIssues p) r := by
    unfold deleteVerifiedPaidIssues
    split <;> exact ⟨le_rfl, le_rfl, le_rfl⟩
  exact (h₆ _).trans ((h₅ _).trans ((h₄ _).trans ((h₃ _).trans ((h₂ _).trans (h₁ r)))))

theorem claim_notAbove (item : TransactionData) (r : Reservoir) : NotAbove (claim item r) r := by
  obtain ⟨links, spend, hclaim⟩ := claim_eq item r
  rw [hclaim]
  exact ⟨le_rfl, le_rfl, le_rfl⟩

theorem verifyIssueByNonce_notAbove (r : Reservoir) (p : PayId) (nonce : Bytes) :
    NotAbove (r.verifyIssueByNonce p nonce) r := by
  unfold verifyIssueByNonce
  split_ifs
  · exact .refl r
  · split
    · exact .refl r
    · exact ⟨le_rfl, sub_le_self _ (Int.natCast_nonneg _), le_rfl⟩

/-- Elementary changes keep the limits, when there is room for what is made to wait. -/
theorem Effect.bounded (h : Effect env K True r r') (hr : r.Bounded) : r'.Bounded := by
  cases h with
  | tables => exact hr.mono ⟨le_rfl, le_rfl, le_rfl⟩
  | addPending payment hadmits hroom =>
    have hadd : (r.addPending payment).Bounded := by
      refine ⟨?_, hr.free, hr.paid⟩
      rw [Reservoir.addPending, Table.card_keys_insert hadmits.absent]
      exact hroom (Or.inr trivial)
    exact hadd.mono (claim_notAbove _ _)
  | addVerified p item =>
    have hadd : (r.addVerified p item).Bounded :=
      hr.mono ⟨Table.card_keys_erase_le _ _, le_rfl, le_rfl⟩
    exact hadd.mono (claim_notAbove _ _)
  | addFreeIssues e _ _ hlimit => exact ⟨hr.transactions, hlimit, hr.paid⟩
  | addPaidIssues e _ _ hlimit => exact ⟨hr.transactions, hr.free, hlimit.le⟩
  | addVerifiedIssues e => exact hr.mono ⟨le_rfl, le_rfl, le_rfl⟩
  | verifyTransaction p e => exact hr.mono ⟨Table.card_keys_erase_le _ _, le_rfl, le_rfl⟩
  | verifyPaidIssues p e => exact hr.mono ⟨le_rfl, le_rfl, sub_le_self _ (Int.natCast_nonneg _)⟩
  | verifyIssueByNonce p nonce => exact hr.mono (verifyIssueByNonce_notAbove r p nonce)
  | internalDelete p => exact hr.mono (internalDelete_notAbove r p)

theorem Effects.bounded (h : Effects env K True r r') (hr : r.Bounded) : r'.Bounded := by
  induction h with
  | refl => exact hr
  | tail _ hstep ih => exact hstep.bounded ih

end Reservoir

/-- **The pending pools stay within their limits**, in every run in which there is room for the
grants and swaps that are to wait. -/
theorem reservoir_bounded {env : Env} {autoVerify : Bool}
    {trace : List (Reservoir × Context × ReservoirOp)} {r : Reservoir}
    (hrun : ReservoirRun env autoVerify trace r)
    (hroom : Guarded (fun r call => call.2.HasRoom env call.1 r) trace) : r.Bounded := by
  refine hrun.invariant hroom ⟨Nat.zero_le _, Int.natCast_nonneg _, Int.natCast_nonneg _⟩ ?_
  rintro r ⟨ctx, op⟩ r' hr hroom hstep
  exact (hstep.effects (K := op.payBytes) (fun _ hb => hb) fun _ => hroom).bounded hr

namespace Sample

theorem room_calls : ∀ x ∈ traceOf calls,
    x.1.pendingTransactions.keys.card < maximumPendingTransactions := by
  decide +kernel

theorem reservoir_bounded_calls : ∃ r, ReservoirRun env false (traceOf calls) r ∧
    Guarded (fun r call => call.2.HasRoom env call.1 r) (traceOf calls) ∧ r.Bounded := by
  obtain ⟨r, hr, -⟩ := (Option.any_eq_true _ _).mp runs_calls
  have hrun := run_of_reservoirAfter hr
  have hroom : Guarded (fun r call => call.2.HasRoom env call.1 r) (traceOf calls) := by
    rintro ⟨r, ctx, op⟩ hx
    have hlt := room_calls _ hx
    cases op with
    | storeGrant grant => exact fun _ _ _ _ _ _ _ => hlt
    | storeSwap swap => exact fun _ _ _ _ _ _ _ => hlt
    | _ => trivial
  exact ⟨r, hrun, hroom, reservoir_bounded hrun hroom⟩

/-! ### Many grants -/

/-- The countersignature with a number at its end. -/
def numbered (i : ℕ) : Bytes := List.replicate 56 0 ++ be64 (UInt64.ofNat i)

/-- A grant of one share; the pay id and the tx id end in its number. -/
def grantOf (i : ℕ) : ShareGrant :=
  ⟨id 0x12, 1, ⟨0, account 1⟩, ⟨1, account 2⟩, 100, signature 0x41, numbered i⟩

def txIdOf (i : ℕ) : Digest :=
  ⟨List.replicate 24 0 ++ be64 (UInt64.ofNat i), by simp⟩

def payIdOf (i : ℕ) : PayId :=
  ⟨List.replicate 40 0 ++ be64 (UInt64.ofNat i), by simp⟩

theorem length_numbered (i : ℕ) : (numbered i).length = 64 := by simp [numbered]

/-- What the recipient of such a grant signs. -/
def grantMessage : Bytes :=
  createPacked .shareGrant ++ packBytes (id 0x12).bytes ++ Util.toVarint64 1 ++
    packBytes (account 1).bytes ++ packBytes (account 2).bytes ++ Util.toVarint64 100 ++
    packBytes (signature 0x41)

theorem pack_grantOf (i : ℕ) : ∃ message, (grantOf i).pack env (grantOf i).owner =
    .ok (message ++ numbered i) := by
  have hcheck : (grantOf i).check = .ok () := by
    have hlength : checkSignatureLength (numbered i) = .ok () := by
      rw [checkSignatureLength, length_numbered]
      rfl
    simp only [ShareGrant.check, grantOf, hlength]
    rfl
  have hsigned (message : Bytes) :
      (account 2).checkSignature env message (numbered i) = .ok () := by
    simp [Account.checkSignature, account, length_numbered, Account.signatureSize, env]
  have hpack : (grantOf i).pack env (grantOf i).owner = .ok (grantMessage ++
      packBytes (numbered i)) := by
    simp only [ShareGrant.pack, hcheck]
    simp only [grantOf, hsigned]
    rfl
  rw [hpack, packBytes, ← List.append_assoc]
  exact ⟨_, rfl⟩

theorem drop_numbered (message : Bytes) (i k : ℕ) (hk : k ≤ 56) :
    (message ++ numbered i).drop ((message ++ numbered i).length - (8 + k)) =
      List.replicate k 0 ++ be64 (UInt64.ofNat i) := by
  have hlength : (message ++ numbered i).length - (8 + k) = message.length + (56 - k) := by
    rw [List.length_append, length_numbered]
    omega
  rw [hlength, ← List.drop_drop, List.drop_left, numbered,
    List.drop_append_of_le_length (by simp), List.drop_replicate, Nat.sub_sub_self hk]

theorem newDigest_numbered (message : Bytes) (i : ℕ) :
    env.newDigest (message ++ numbered i) = txIdOf i := by
  have h := drop_numbered message i 24 (by decide)
  rw [← FixedBytes.ofSlice_bytes (txIdOf i)]
  exact congrArg (FixedBytes.ofSlice 32) h

theorem newPayId_numbered (message : Bytes) (i : ℕ) :
    newPayId env [message ++ numbered i] = payIdOf i := by
  have h := drop_numbered message i 40 (by decide)
  rw [← FixedBytes.ofSlice_bytes (payIdOf i), newPayId, List.flatten_singleton]
  exact congrArg (FixedBytes.ofSlice 48) h

theorem be64_ofNat_ne {i j : ℕ} (hj : j < 2 ^ 64) (h : i < j) :
    be64 (UInt64.ofNat i) ≠ be64 (UInt64.ofNat j) := by
  intro heq
  have := congrArg UInt64.toNat (be64_inj.mp heq)
  rw [UInt64.toNat_ofNat', UInt64.toNat_ofNat', Nat.mod_eq_of_lt hj,
    Nat.mod_eq_of_lt (h.trans hj)] at this
  omega

theorem txIdOf_ne {i j : ℕ} (hj : j < 2 ^ 64) (h : i < j) : txIdOf j ≠ txIdOf i := by
  intro heq
  exact be64_ofNat_ne hj h (List.append_cancel_left (congrArg FixedBytes.bytes heq)).symm

theorem payIdOf_ne {i j : ℕ} (hj : j < 2 ^ 64) (h : i < j) : payIdOf j ≠ payIdOf i := by
  intro heq
  exact be64_ofNat_ne hj h (List.append_cancel_left (congrArg FixedBytes.bytes heq)).symm

/-- That many grants are waiting, and nothing else is in the reservoir. -/
structure Granted (n : ℕ) (r : Reservoir) : Prop where
  autoVerify : r.autoVerify = false
  orphans (p : PayId) : r.orphanPayments.lookup p = none
  verified (txId : Digest) : r.verifiedIndex.lookup txId = none
  count : r.pendingTransactions.keys.card = n
  index (i : ℕ) (hi : i < 2 ^ 64) (h : n ≤ i) : r.pendingIndex.lookup (txIdOf i) = none
  absent (i : ℕ) (hi : i < 2 ^ 64) (h : n ≤ i) : r.pendingTransactions.lookup (payIdOf i) = none

theorem granted_zero : Granted 0 (Reservoir.empty false) :=
  ⟨rfl, fun _ => rfl, fun _ => rfl, rfl, fun _ _ _ => rfl, fun _ _ _ => rfl⟩

theorem verifyGrant_grantOf {n : ℕ} {r : Reservoir} (h : Granted n r) (hn : n < 2 ^ 64) :
    ∃ packed, r.verifyGrant env holdings 2 (grantOf n) =
      .ok (5, ⟨txIdOf n, packed, none, ⟨2, id 0x12, 2, .share (env.sha3Sum512 [1])⟩⟩, false) ∧
      newPayId env [packed] = payIdOf n := by
  obtain ⟨message, hpack⟩ := pack_grantOf n
  have hbalance : checkGrantBalance holdings (grantOf n) = .ok 5 := by
    have hsame : checkGrantBalance holdings (grantOf n) = checkGrantBalance holdings (grantOf 0) :=
      rfl
    rw [hsame]
    decide +kernel
  have hnew : holdings.has .transactions (txIdOf n).bytes = false := rfl
  have howner : shareOwnerData holdings (id 0x12) =
      .ok ⟨2, id 0x12, 2, .share (env.sha3Sum512 [1])⟩ := by
    decide +kernel
  refine ⟨message ++ numbered n, ?_, newPayId_numbered message n⟩
  refine bind_eq_ok.mpr ⟨(), rfl, bind_eq_ok.mpr ⟨5, hbalance, bind_eq_ok.mpr ⟨_, hpack, ?_⟩⟩⟩
  simp only [newDigest_numbered, h.verified, hnew]
  refine bind_eq_ok.mpr ⟨(), rfl, bind_eq_ok.mpr ⟨(), rfl, bind_eq_ok.mpr ⟨_, howner, ?_⟩⟩⟩
  rw [newDigest_numbered, h.index n hn le_rfl]
  rfl

/-- Another grant is stored. -/
theorem Granted.step {n : ℕ} {r : Reservoir} (h : Granted n r) (hn : n < 2 ^ 64) :
    ∃ r', ReservoirStep env r (context 1, .storeGrant (grantOf n)) r' ∧ Granted (n + 1) r' := by
  obtain ⟨packed, hverify, hpayId⟩ := verifyGrant_grantOf h hn
  have hpayments : ∃ payments, getPayments env holdings 2 2 none = .ok payments := by
    have hok : (getPayments env holdings 2 2 none).toOption.isSome := by decide +kernel
    rcases hp : getPayments env holdings 2 2 none with e | payments
    · rw [hp] at hok
      cases hok
    · exact ⟨payments, rfl⟩
  obtain ⟨payments, hpayments⟩ := hpayments
  let payment : TransactionPaymentData :=
    ⟨⟨txIdOf n, .shareGrant (grantOf n), packed⟩, payIdOf n, payments, 1 + reservoirTimeout⟩
  refine ⟨(r.addPending payment).spendGrant (grantOf n), ⟨trivial, ?_⟩, ?_⟩
  · have hadmission : Reservoir.admission env holdings (.shareGrant (grantOf n))
        ⟨txIdOf n, packed, none, ⟨2, id 0x12, 2, .share (env.sha3Sum512 [1])⟩⟩ false =
          .ok ⟨payment.tx, payIdOf n, payments, false⟩ := by
      simp only [Reservoir.admission, hpayments, hpayId]
      rfl
    have hitem : r.storeItem 1 false (Reservoir.spendGrant (grantOf n))
        ⟨payment.tx, payIdOf n, payments, false⟩ =
          .ok ((payments, false), (r.addPending payment).spendGrant (grantOf n)) := by
      simp only [Reservoir.storeItem, h.absent n hn le_rfl, h.orphans, h.autoVerify]
      rfl
    have hstore : ∃ out, r.storeGrant env (context 1) (grantOf n) =
        .ok (out, (r.addPending payment).spendGrant (grantOf n)) :=
      ⟨_, bind_eq_ok.mpr ⟨_, hverify, bind_eq_ok.mpr ⟨_, hadmission, bind_eq_ok.mpr
        ⟨_, hitem, rfl⟩⟩⟩⟩
    obtain ⟨out, hstore⟩ := hstore
    rw [ReservoirOp.run, hstore]
    rfl
  · refine ⟨h.autoVerify, h.orphans, h.verified, ?_, ?_, ?_⟩
    · exact (Table.card_keys_insert (h.absent n hn le_rfl)).trans (congrArg (· + 1) h.count)
    · intro i hi hni
      exact (Finmap.lookup_insert_of_ne _ (txIdOf_ne hi hni)).trans (h.index i hi (by omega))
    · intro i hi hni
      exact (Finmap.lookup_insert_of_ne _ (payIdOf_ne hi hni)).trans (h.absent i hi (by omega))

theorem exists_granted (n : ℕ) (hn : n ≤ 2 ^ 64) :
    ∃ trace r, ReservoirRun env false trace r ∧ Granted n r := by
  induction n with
  | zero => exact ⟨[], _, .nil, granted_zero⟩
  | succ n ih =>
    obtain ⟨trace, r, hrun, hr⟩ := ih (by omega)
    obtain ⟨r', hstep, hr'⟩ := hr.step (by omega)
    exact ⟨_, r', hrun.snoc hstep, hr'⟩

/-- One grant more than there may be pending transactions. -/
theorem grants_unlimited : ∃ trace r, ReservoirRun env false trace r ∧ ¬ r.Bounded := by
  obtain ⟨trace, r, hrun, hr⟩ := exists_granted (maximumPendingTransactions + 1) (by decide)
  refine ⟨trace, r, hrun, fun h => ?_⟩
  have hle := h.transactions
  rw [hr.count] at hle
  exact absurd hle (Nat.not_succ_le_self _)

end Sample

end Bitmarkd
