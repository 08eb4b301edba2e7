import Bitmarkd.Reservoir.Structure

/-!
# Concurrent issue requests

`storeIssues` looks the issues up under a read lock and commits them later under the write lock, and
`tryProof` does the same with the entry of a proof; between the two steps of a call other calls may
run. The requests whose first step has been made are part of the state (`Concurrent`), and the steps
of any number of calls interleave freely with each other and with the other operations.

A commit does not look the tx ids up again. Two equal requests that are both checked before either
is committed are committed twice, and the count of pending issues is twice their number
(`Sample.committed_twice`). If the tx ids are still new at each commit, or the commit changes
nothing, the pools are as good as with atomic calls (`concurrent_uncorrupted`).
-/

namespace Bitmarkd

open Lib

/-! ## Calls in two steps -/

/-- The reservoir, with the issues that have been checked and the proofs that have been accepted by
calls that have not finished. -/
structure Concurrent where
  reservoir : Reservoir
  issues : List Reservoir.PreparedIssues
  proofs : List (PayId × Bytes)

/-- One step of a call: the phases of `storeIssues` and of `tryProof`, and the atomic calls. -/
inductive ConcurrentOp
  | call (op : ReservoirOp)
  | checkIssues (issues : List BitmarkIssue)
  | commitIssues (q : Reservoir.PreparedIssues)
  | checkProof (payId : PayId) (clientNonce : Bytes)
  | verifyIssueByNonce (payId : PayId) (clientNonce : Bytes)

namespace ConcurrentOp

/-- The state after a step. A call is over when its last step is made, or when a check fails. -/
def run (env : Env) (ctx : Context) (op : ConcurrentOp) (s : Concurrent) :
    Except Stop Concurrent :=
  match op with
  | .call op => do
    let r ← op.run env ctx s.reservoir
    return { s with reservoir := r }
  | .checkIssues issues =>
    match s.reservoir.checkIssues env ctx issues with
    | .ok (.inr q) => .ok { s with issues := q :: s.issues }
    | .ok (.inl _) | .error (.fault _) => .ok s
    | .error e => .error e
  | .commitIssues q => do
    let r ← s.reservoir.settle
      ((Reservoir.commitIssues ctx.now q (s.reservoir, ctx.assets)).map fun (r, _) => ((), r))
    return { s with reservoir := r, issues := s.issues.erase q }
  | .checkProof payId clientNonce =>
    match s.reservoir.checkProof env ctx payId clientNonce with
    | .accepted => .ok { s with proofs := (payId, clientNonce) :: s.proofs }
    | .notFound | .invalid => .ok s
  | .verifyIssueByNonce payId clientNonce =>
    .ok { s with
      reservoir := s.reservoir.verifyIssueByNonce payId clientNonce
      proofs := s.proofs.erase (payId, clientNonce) }

/-- The step can be made: the call has made the step before it. -/
def Enabled (s : Concurrent) : ConcurrentOp → Prop
  | .call op => op.Ordered s.reservoir
  | .commitIssues q => q ∈ s.issues
  | .verifyIssueByNonce payId clientNonce => (payId, clientNonce) ∈ s.proofs
  | .checkIssues _ | .checkProof _ _ => True

instance (s : Concurrent) (op : ConcurrentOp) : Decidable (op.Enabled s) :=
  match op with
  | .call op => inferInstanceAs (Decidable (op.Ordered s.reservoir))
  | .commitIssues q => inferInstanceAs (Decidable (q ∈ s.issues))
  | .verifyIssueByNonce payId clientNonce =>
    inferInstanceAs (Decidable ((payId, clientNonce) ∈ s.proofs))
  | .checkIssues _ | .checkProof _ _ => isTrue trivial

/-- The bytes that a step computes a pay id from. -/
def payBytes : ConcurrentOp → List Bytes
  | .call op => op.payBytes
  | .checkIssues issues => (ReservoirOp.storeIssues issues).payBytes
  | .commitIssues _ | .checkProof _ _ | .verifyIssueByNonce _ _ => []

end ConcurrentOp

/-- A step that does not panic. -/
def ConcurrentStep (env : Env) (s : Concurrent) (step : Context × ConcurrentOp) (s' : Concurrent) :
    Prop :=
  step.2.Enabled s ∧ step.2.run env step.1 s = .ok s'

/-- Take a step, if it can be taken and does not panic. -/
def ConcurrentStep.exec (env : Env) (s : Concurrent) (step : Context × ConcurrentOp) :
    Option Concurrent :=
  if step.2.Enabled s then (step.2.run env step.1 s).toOption else none

theorem ConcurrentStep.of_exec {env : Env} {s s' : Concurrent} {step : Context × ConcurrentOp}
    (h : ConcurrentStep.exec env s step = some s') : ConcurrentStep env s step s' := by
  unfold ConcurrentStep.exec at h
  split_ifs at h with henabled
  refine ⟨henabled, ?_⟩
  rcases hrun : step.2.run env step.1 s with e | s''
  · rw [hrun] at h
    cases h
  · rw [hrun] at h
    cases h
    rfl

/-- A run of steps on a new reservoir. -/
abbrev ConcurrentRun (env : Env) (autoVerify : Bool)
    (trace : List (Concurrent × Context × ConcurrentOp)) (s : Concurrent) : Prop :=
  Run (ConcurrentStep env) ⟨Reservoir.empty autoVerify, [], []⟩ trace s

/-- The strings that pay ids are computed from in a run. -/
def payBytesIn (trace : List (Concurrent × Context × ConcurrentOp)) : List Bytes :=
  trace.flatMap fun x => x.2.2.payBytes

namespace Reservoir

/-! ## Commits -/

variable {env : Env} {K : List Bytes} {r r' : Reservoir} {q : PreparedIssues} {p : PayId}

/-- No tx id of the request is in the reservoir. -/
def New (r : Reservoir) (q : PreparedIssues) : Prop :=
  ∀ tx ∈ q.txs, r.pendingIndex.lookup tx.txId = none ∧ r.verifiedIndex.lookup tx.txId = none

/-- There is no room for the request in its pending pool. -/
def Full (r : Reservoir) (q : PreparedIssues) : Prop :=
  match q.free with
  | some _ => (maximumPendingFreeIssues : Int) < r.pendingFreeCount + q.txs.length
  | none => (maximumPendingPaidIssues : Int) ≤ r.pendingPaidCount + q.txs.length

/-- The request is new, or it has been verified already and is verified again, or it is refused. -/
def CommitsSafely (r : Reservoir) (q : PreparedIssues) : Prop :=
  r.New q ∨
    r.VerifiesAtOnce q.free.isSome q.payId q.payments ∧
      (r.verifiedPaidIssues.lookup q.payId).isSome ∨
    ¬ r.VerifiesAtOnce q.free.isSome q.payId q.payments ∧ r.Full q

instance (r : Reservoir) (q : PreparedIssues) : Decidable (r.Full q) :=
  match h : q.free with
  | some _ => decidable_of_iff
      ((maximumPendingFreeIssues : Int) < r.pendingFreeCount + q.txs.length) (by rw [Full, h])
  | none => decidable_of_iff
      ((maximumPendingPaidIssues : Int) ≤ r.pendingPaidCount + q.txs.length) (by rw [Full, h])

instance (r : Reservoir) (q : PreparedIssues) : Decidable (r.CommitsSafely q) :=
  haveI : Decidable (r.New q) := List.decidableBAll _ _
  inferInstanceAs (Decidable (_ ∨ _))

/-- What the tx ids of the pools and the counts must be. -/
structure Uncorrupted (r : Reservoir) : Prop where
  counted : r.Counted
  apart : ∀ s s' p p' tx tx', r.InPool s p tx → r.InPool s' p' tx' → tx.txId = tx'.txId → p = p'
  exclusive : ∀ t, r.pendingIndex.lookup t = none ∨ r.verifiedIndex.lookup t = none

theorem Pooled.uncorrupted (h : Pooled env K r) (hc : r.Counted) : r.Uncorrupted where
  counted := hc
  apart s s' p p' tx tx' htx htx' hid := by
    obtain ⟨H, hH, -⟩ := h
    obtain ⟨g, hg, -, hmem⟩ := hH.inPool.mp htx
    obtain ⟨g', hg', -, hmem'⟩ := hH.inPool.mp htx'
    have hids' : tx.txId ∈ g'.ids := by
      rw [hid]
      exact List.mem_map_of_mem hmem'
    exact hH.eq_of_txId hg hg' (List.mem_map_of_mem hmem) hids'
  exclusive := (h.structured hc).exclusive

/-- A pay id stands for one list of issues. -/
theorem IssueSet.txs_eq (hK : PayIdsApart env K)
    {txs txs' : List TransactionData} (h : IssueSet env K txs p) (h' : IssueSet env K txs' p) :
    txs = txs' := by
  have hbytes : (txs.map (·.packed)).flatten = (txs'.map (·.packed)).flatten :=
    hK _ h.hashed _ h'.hashed (h.payId.symm.trans h'.payId)
  have hrecords := records_of_issues h.issues
  rw [hbytes] at hrecords
  have hsame := hrecords.unique (records_of_issues h'.issues)
  have hdata {l : List TransactionData} (hl : ∀ tx ∈ l, IsIssue env tx) :
      l = (l.map fun tx => (tx.packed, tx.transaction)).map
        fun x => ⟨env.newDigest x.1, x.2, x.1⟩ := by
    rw [List.map_map]
    conv_lhs => rw [← List.map_id l]
    refine List.map_congr_left fun tx htx => ?_
    obtain ⟨t, transaction, packed⟩ := tx
    have ht : t = env.newDigest packed := (hl _ htx).txId
    rw [ht]
    rfl
  rw [hdata h.issues, hdata h'.issues, hsame]

theorem Group.Named.issueSet {g : Group} (h : g.Named env K p) (hk : g.kind ≠ .transaction) :
    IssueSet env K g.txs p :=
  ⟨h.ne_nil, h.issues hk, h.payId.symm, h.hashed⟩

/-- Verifying again what is verified changes no pool and no index. -/
theorem Pooled.addVerifiedIssues_again
    (hK : PayIdsApart env K) (h : Pooled env K r)
    {e : IssuePaymentData} (he : IssueSet env K e.txs e.payId)
    (hagain : (r.verifiedPaidIssues.lookup e.payId).isSome) :
    Pooled env K (r.addVerifiedIssues e) := by
  obtain ⟨H, hH, hnamed⟩ := h
  obtain ⟨e', he'⟩ := Option.isSome_iff_exists.mp hagain
  have hentry : r.entry .verified .paid e.payId = some e'.txs := by simp [Reservoir.entry, he']
  have hp := hH.entry_eq_some.mp hentry
  have htxs : e.txs = e'.txs :=
    he.txs_eq hK (Group.Named.issueSet (hnamed _ _ hp) (by simp))
  have hindex : ∀ t ∈ e.txs.map (·.txId), r.verifiedIndex.lookup t = some e.payId := by
    intro t ht
    rw [htxs] at ht
    exact (hH.index_eq_some (s := .verified)).mpr ⟨_, hp, rfl, ht⟩
  have hpending : ∀ t ∈ e.txs.map (·.txId), r.pendingIndex.lookup t = none := by
    intro t ht
    rcases hq : r.pendingIndex.lookup t with _ | q
    · rfl
    · obtain ⟨g, hg, hs, hmem⟩ := (hH.index_eq_some (s := .pending)).mp hq
      rw [htxs] at ht
      obtain rfl := hH.eq_of_txId hg hp hmem ht
      rw [hp] at hg
      cases hg
      cases hs
  refine ⟨H, hH.congr ?_ ?_ rfl, hnamed⟩
  · intro s k p
    by_cases hpp : p = e.payId
    · subst hpp
      cases s <;> cases k <;> simp [Reservoir.entry, addVerifiedIssues, he', htxs]
    · cases s <;> cases k <;> simp [Reservoir.entry, addVerifiedIssues, hpp]
  · intro s
    funext t
    by_cases ht : t ∈ e.txs.map (·.txId)
    · cases s
      · simp only [Reservoir.index, addVerifiedIssues, Table.lookup_eraseAll, if_pos ht,
          hpending t ht]
      · simp only [Reservoir.index, addVerifiedIssues, Table.lookup_insertAll, if_pos ht,
          hindex t ht]
    · cases s
      · simp only [Reservoir.index, addVerifiedIssues, Table.lookup_eraseAll, if_neg ht]
      · simp only [Reservoir.index, addVerifiedIssues, Table.lookup_insertAll, if_neg ht]

/-- A commit that is safe keeps the pools and the counts. -/
theorem CommittedIssues.pooled {now : Time} {c c' : AssetCache}
    (hK : PayIdsApart env K)
    (h : CommittedIssues now q r c r' c') (hset : IssueSet env K q.txs q.payId)
    (hsafe : r.CommitsSafely q) (hr : Pooled env K r ∧ r.Counted) :
    Pooled env K r' ∧ r'.Counted := by
  rcases hsafe with hnew | ⟨hat, hagain⟩ | ⟨hat, hfull⟩
  · -- the tx ids are in no index, so nothing is held under the pay id
    have hadmits : AdmitsIssues env K r q.txs q.payId :=
      ⟨hset, fun tx htx => (hnew tx htx).1, fun tx htx => (hnew tx htx).2⟩
    have hnone : ∀ s k, r.entry s k q.payId = none := by
      obtain ⟨H, hH, hnamed⟩ := hr.1
      refine hH.entry_eq_none
        (hH.absent hK hnamed (hset.named .pending (k := .free) (by decide)) ?_)
      intro t ht
      obtain ⟨tx, htx, rfl⟩ := List.mem_map.mp ht
      exact index_eq_none (hnew tx htx).1 (hnew tx htx).2
    have hfree := hnone .pending .free
    have hpaid := hnone .pending .paid
    simp only [Reservoir.entry, Option.map_eq_none_iff] at hfree hpaid
    have heffects := h.effects (B := False) hadmits hfree hpaid
    exact ⟨heffects.pooled hK hr.1, heffects.counted hr.2⟩
  · cases h with
    | verified =>
      exact ⟨hr.1.addVerifiedIssues_again hK hset hagain, hr.2.congr rfl rfl rfl rfl⟩
    | free _ _ _ hnot => exact absurd hat hnot
    | paid _ hnot => exact absurd hat hnot
  · cases h with
    | verified h => exact absurd h hat
    | free nonce difficulty hfree _ hlimit =>
      simp only [Full, hfree] at hfull
      omega
    | paid hfree _ hlimit =>
      simp only [Full, hfree] at hfull
      omega

end Reservoir

/-! ## Runs -/

/-- The commits of a step are safe. -/
def ConcurrentOp.Safe (s : Concurrent) (step : Context × ConcurrentOp) : Prop :=
  match step.2 with
  | .commitIssues q => s.reservoir.CommitsSafely q
  | .call _ | .checkIssues _ | .checkProof _ _ | .verifyIssueByNonce _ _ => True

instance (s : Concurrent) (step : Context × ConcurrentOp) : Decidable (ConcurrentOp.Safe s step) :=
  match h : step.2 with
  | .commitIssues q => decidable_of_iff (s.reservoir.CommitsSafely q) (by rw [ConcurrentOp.Safe, h])
  | .call _ | .checkIssues _ | .checkProof _ _ | .verifyIssueByNonce _ _ =>
    isTrue (by rw [ConcurrentOp.Safe, h]; trivial)

/-- What holds between the steps: the pools and the counts are right, and the requests that wait to
be committed are packed as their pay ids say. -/
structure Concurrent.Consistent (env : Env) (K : List Bytes) (s : Concurrent) : Prop where
  pooled : Reservoir.Pooled env K s.reservoir ∧ s.reservoir.Counted
  issues : ∀ q ∈ s.issues, Reservoir.IssueSet env K q.txs q.payId

theorem Concurrent.Consistent.step {env : Env} {K : List Bytes} {s s' : Concurrent} {ctx : Context}
    {op : ConcurrentOp} (hK : PayIdsApart env K)
    (h : s.Consistent env K) (hstep : ConcurrentStep env s (ctx, op) s')
    (hbytes : ∀ b ∈ op.payBytes, b ∈ K) (hsafe : ConcurrentOp.Safe s (ctx, op)) :
    s'.Consistent env K := by
  obtain ⟨henabled, hrun⟩ := hstep
  cases op with
  | call op =>
    obtain ⟨r, hr, hrun⟩ := bind_eq_ok.mp hrun
    cases hrun
    have heffects := ReservoirStep.effects (B := False)
      (⟨henabled, hr⟩ : ReservoirStep env _ (ctx, op) _) hbytes False.elim
    exact ⟨⟨heffects.pooled hK h.pooled.1, heffects.counted h.pooled.2⟩, h.issues⟩
  | checkIssues issues =>
    simp only [ConcurrentOp.run] at hrun
    split at hrun
    next q hq =>
      cases hrun
      obtain ⟨hprepared, rfl⟩ := Reservoir.checkIssues_eq_ok hq
      refine ⟨h.pooled, ?_⟩
      rw [List.forall_mem_cons]
      exact ⟨hprepared.issueSet (hbytes _ (List.mem_singleton_self _)), h.issues⟩
    all_goals cases hrun
    all_goals exact h
  | commitIssues q =>
    obtain ⟨r, hr, hrun⟩ := bind_eq_ok.mp hrun
    cases hrun
    refine ⟨?_, fun q' hq' => h.issues q' (List.mem_of_mem_erase hq')⟩
    rcases Reservoir.settle_eq_ok hr with rfl | ⟨_, hcommit⟩
    · exact h.pooled
    · rcases hc : Reservoir.commitIssues ctx.now q (s.reservoir, ctx.assets) with e | ⟨r', c⟩
      · rw [hc] at hcommit
        cases hcommit
      · rw [hc] at hcommit
        cases hcommit
        exact (Reservoir.commitIssues_eq_ok hc).pooled hK (h.issues q henabled) hsafe h.pooled
  | checkProof p nonce =>
    simp only [ConcurrentOp.run] at hrun
    split at hrun
    all_goals cases hrun
    all_goals exact ⟨h.pooled, h.issues⟩
  | verifyIssueByNonce p nonce =>
    cases hrun
    have heffects : Reservoir.Effects env K False s.reservoir
        (s.reservoir.verifyIssueByNonce p nonce) :=
      .single (.verifyIssueByNonce p nonce)
    exact ⟨⟨heffects.pooled hK h.pooled.1, heffects.counted h.pooled.2⟩, h.issues⟩

/-- **Concurrent requests do not corrupt the reservoir** if every commit is safe. -/
theorem concurrent_uncorrupted {env : Env} {autoVerify : Bool}
    {trace : List (Concurrent × Context × ConcurrentOp)} {s : Concurrent}
    (hrun : ConcurrentRun env autoVerify trace s) (hapart : PayIdsApart env (payBytesIn trace))
    (hsafe : Guarded ConcurrentOp.Safe trace) : s.reservoir.Uncorrupted := by
  have hguard : Guarded (fun s step => ConcurrentOp.Safe s step ∧
      ∀ b ∈ step.2.payBytes, b ∈ payBytesIn trace) trace := by
    intro x hx
    exact ⟨hsafe x hx, fun b hb => List.mem_flatMap.mpr ⟨x, hx, hb⟩⟩
  have hconsistent : s.Consistent env (payBytesIn trace) := by
    refine hrun.invariant hguard ⟨⟨Reservoir.pooled_empty autoVerify,
      Reservoir.counted_empty autoVerify⟩, by simp⟩ ?_
    intro s step s' hs hg hstep
    exact hs.step hapart hstep hg.2 hg.1
  exact hconsistent.pooled.1.uncorrupted hconsistent.pooled.2

namespace Sample

/-- A request to issue one bitmark. -/
def request (k : UInt8) : List BitmarkIssue := [⟨env.sha3Sum512 [2], account 1, 0, signature k⟩]

/-- The request as it is committed. -/
def prepared (k : UInt8) : Reservoir.PreparedIssues :=
  ⟨request k, [⟨id k, issue 2 k 1, packed (issue 2 k 1)⟩], payId k, some (.zero 8, 0), []⟩

/-- Two equal requests: both are checked, then both are committed. -/
def twice : List (Context × ConcurrentOp) :=
  [(context 1, .checkIssues (request 0x31)), (context 1, .checkIssues (request 0x31)),
    (context 1, .commitIssues (prepared 0x31)), (context 1, .commitIssues (prepared 0x31))]

/-- Two requests that overlap: both are checked before one is committed, and the proof for the first
is under way when the second is committed. -/
def overlapping : List (Context × ConcurrentOp) :=
  [(context 1, .checkIssues (request 0x31)), (context 1, .checkIssues (request 0x32)),
    (context 1, .commitIssues (prepared 0x31)),
    (context 1, .checkProof (payId 0x31) (List.replicate 32 0)),
    (context 1, .commitIssues (prepared 0x32)),
    (context 1, .verifyIssueByNonce (payId 0x31) (List.replicate 32 0))]

def start : Concurrent := ⟨Reservoir.empty false, [], []⟩

theorem runs_twice : (execute (ConcurrentStep.exec env) twice start).any fun s =>
    s.reservoir.pendingFreeCount = 2 ∧
      Table.weight (·.txs.length) s.reservoir.pendingFreeIssues = 1 := by
  decide +kernel

/-- The trace of some steps. -/
def stepsOf (steps : List (Context × ConcurrentOp)) : List (Concurrent × Context × ConcurrentOp) :=
  executeTrace (ConcurrentStep.exec env) steps start

theorem run_of_steps {steps : List (Context × ConcurrentOp)} {s : Concurrent}
    (h : execute (ConcurrentStep.exec env) steps start = some s) :
    ConcurrentRun env false (stepsOf steps) s :=
  run_of_execute ConcurrentStep.of_exec h

theorem payIdsApart_stepsOf {steps : List (Context × ConcurrentOp)}
    (h : PayIdsApart env (steps.flatMap fun step => step.2.payBytes)) :
    PayIdsApart env (payBytesIn (stepsOf steps)) := by
  have hsame := flatMap_executeTrace (ConcurrentStep.exec env)
    (fun step : Context × ConcurrentOp => step.2.payBytes) steps start
  rw [payBytesIn, stepsOf, hsame]
  exact h

/-- One issue is pending and two are counted. -/
theorem committed_twice : ∃ trace s, ConcurrentRun env false trace s ∧
    PayIdsApart env (payBytesIn trace) ∧ ¬ s.reservoir.Uncorrupted := by
  obtain ⟨s, hs, h⟩ := (Option.any_eq_true _ _).mp runs_twice
  rw [decide_eq_true_eq] at h
  refine ⟨_, s, run_of_steps hs, payIdsApart_stepsOf (by decide +kernel), ?_⟩
  intro hu
  have hcount := hu.counted.free
  rw [h.1, h.2] at hcount
  cases hcount

theorem runs_overlapping : (execute (ConcurrentStep.exec env) overlapping start).any fun s =>
    s.reservoir.verifiedIndex.lookup (id 0x31) = some (payId 0x31) ∧
      s.reservoir.pendingIndex.lookup (id 0x32) = some (payId 0x32) := by
  decide +kernel

theorem safe_overlapping : Guarded ConcurrentOp.Safe (stepsOf overlapping) := by
  unfold Guarded
  decide +kernel

theorem concurrent_uncorrupted_overlapping : ∃ s, ConcurrentRun env false (stepsOf overlapping) s ∧
    Guarded ConcurrentOp.Safe (stepsOf overlapping) ∧
    (s.reservoir.verifiedIndex.lookup (id 0x31) = some (payId 0x31) ∧
      s.reservoir.pendingIndex.lookup (id 0x32) = some (payId 0x32)) ∧
    s.reservoir.Uncorrupted := by
  obtain ⟨s, hs, h⟩ := (Option.any_eq_true _ _).mp runs_overlapping
  rw [decide_eq_true_eq] at h
  have hrun := run_of_steps hs
  exact ⟨s, hrun, safe_overlapping, h, concurrent_uncorrupted hrun
    (payIdsApart_stepsOf (by decide +kernel)) safe_overlapping⟩

end Sample

end Bitmarkd
