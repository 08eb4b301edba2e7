import Bitmarkd.Chain.DigestCache
import Bitmarkd.Reservoir.Structure

/-!
# How long a proof can be used

`reservoir/paynonce.go` and `tryProof` of `reservoir/issues.go`. The pay nonce of a set of free
issues is the start of the digest of the block at the *rounded height*: the height with the last
seven bits cleared, less 128, or 1 near the genesis block. `tryProof` starts from the rounded height
of its own time and goes down by 128, six times at most, until it is below 128.

**The window (`tryProof_within_window`).** On a chain that only grows, a proof for the pay nonce of
height `h` is accepted at every height `h'` with `h' / 128 - h / 128 ≤ 5`, and the whole set is
verified.

Three things are put together: the heights that the loop tries include the rounded height of `h`,
or 0 in the place of 1 (`tryLoop_of_passes`); blocks 0 and 1 have the same digest; and the digest of
a block that is stored stays the same while the chain grows (`currentDigest_grows`). The client
nonce has to have at least one byte: with an empty one `tryProof` returns `TrackingAccepted`, but
`verifyIssueByNonce` does nothing.
-/

namespace Bitmarkd

open Lib

/-! ## Rounded heights -/

theorem toNat_and_mask (height : UInt64) :
    (height &&& ~~~0x7f).toNat = 128 * (height.toNat / 128) := by
  have hmask : (~~~0x7f : UInt64).toNat = (2 ^ 57 - 1) <<< 7 := by decide
  have hshift : 128 * (height.toNat / 128) = (height.toNat >>> 7) <<< 7 := by
    rw [Nat.shiftLeft_eq, Nat.shiftRight_eq_div_pow, Nat.mul_comm]
  rw [UInt64.toNat_and, hmask, hshift]
  apply Nat.eq_of_testBit_eq
  intro i
  rw [Nat.testBit_and, Nat.testBit_shiftLeft, Nat.testBit_shiftLeft, Nat.testBit_two_pow_sub_one,
    Nat.testBit_shiftRight]
  by_cases h7 : 7 ≤ i
  · rw [Nat.add_sub_cancel' h7]
    by_cases h64 : i < 64
    · simp [h7, show i - 7 < 57 by omega]
    · have hbit : height.toNat.testBit i = false :=
        Nat.testBit_lt_two_pow
          (height.toNat_lt.trans_le (Nat.pow_le_pow_right (by decide) (by omega)))
      simp [hbit]
  · simp [h7]

namespace Reservoir

variable {env : Env} {ctx ctx' : Context} {payId : PayId} {difficulty : Nat}
  {clientNonce : Bytes}

theorem toNat_payNonceRoundedHeight (height : UInt64) :
    (payNonceRoundedHeight height).toNat =
      if 2 ≤ height.toNat / 128 then 128 * (height.toNat / 128 - 1) else 1 := by
  have hmask := toNat_and_mask height
  have h255 : (0xff : UInt64).toNat = 255 := rfl
  have h128 : (0x80 : UInt64).toNat = 128 := rfl
  unfold payNonceRoundedHeight
  dsimp only
  by_cases h2 : 2 ≤ height.toNat / 128
  · have hle : (0x80 : UInt64) ≤ height &&& ~~~0x7f := by
      rw [UInt64.le_iff_toNat_le, hmask, h128]
      omega
    rw [if_pos h2, if_pos (by rw [gt_iff_lt, UInt64.lt_iff_toNat_lt, hmask, h255]; omega),
      UInt64.toNat_sub_of_le _ _ hle, hmask, h128]
    omega
  · rw [if_neg h2, if_neg (by rw [gt_iff_lt, UInt64.lt_iff_toNat_lt, hmask, h255]; omega)]
    rfl

/-- The client nonce is a proof for this pay nonce. -/
def Proves (env : Env) (payId : PayId) (difficulty : Nat) (clientNonce : Bytes)
    (payNonce : PayNonce) : Prop :=
  beValue (env.sha3Sum256 (payId.bytes ++ payNonce.bytes ++ clientNonce)).bytes ≤ difficulty

instance (payNonce : PayNonce) : Decidable (Proves env payId difficulty clientNonce payNonce) :=
  inferInstanceAs (Decidable (_ ≤ _))

/-- The loop accepts a proof for the `i`-th height below its start. -/
theorem tryLoop_of_passes {n : Nat} {height : UInt64} (number : UInt64) (i : Nat) (hi : i < n)
    (hnumber : height.toNat = number.toNat + 128 * i)
    (hproof : Proves env payId difficulty clientNonce (payNonceFromBlock ctx number)) :
    tryLoop env ctx payId difficulty clientNonce n height = true := by
  induction i generalizing n height with
  | zero =>
    obtain rfl : height = number := UInt64.toNat_inj.mp hnumber
    obtain ⟨n, rfl⟩ : ∃ m, n = m + 1 := ⟨n - 1, by omega⟩
    exact if_pos hproof
  | succ i ih =>
    obtain ⟨n, rfl⟩ : ∃ m, n = m + 1 := ⟨n - 1, by omega⟩
    have hdelta : payNonceHeightDelta.toNat = 128 := rfl
    have hle : payNonceHeightDelta ≤ height := by
      rw [UInt64.le_iff_toNat_le, hdelta]
      omega
    rw [tryLoop]
    split_ifs with hearly hlow
    · rfl
    · exact absurd hle (UInt64.not_le.mpr hlow)
    · refine ih (by omega) ?_
      rw [UInt64.toNat_sub_of_le _ _ hle, hdelta]
      omega

/-- **The heights that are tried** include the one that the pay nonce was made at. -/
theorem tryLoop_of_newPayNonce
    (hproof : Proves env payId difficulty clientNonce (newPayNonce ctx))
    (hle : ctx.height.toNat ≤ ctx'.height.toNat)
    (hwindow : ctx'.height.toNat / 128 - ctx.height.toNat / 128 ≤ 5)
    (hsame : ∀ n ≤ ctx.height, payNonceFromBlock ctx' n = payNonceFromBlock ctx n)
    (hgenesis : payNonceFromBlock ctx' 0 = payNonceFromBlock ctx 1)
    (hfirst : payNonceFromBlock ctx' 1 = payNonceFromBlock ctx 1) :
    tryLoop env ctx' payId difficulty clientNonce 6 (payNonceRoundedHeight ctx'.height) = true := by
  have hstart := toNat_payNonceRoundedHeight ctx'.height
  have hrounded := toNat_payNonceRoundedHeight ctx.height
  have hdiv : ctx.height.toNat / 128 ≤ ctx'.height.toNat / 128 := Nat.div_le_div_right hle
  unfold newPayNonce at hproof
  by_cases h2 : 2 ≤ ctx.height.toNat / 128
  · rw [if_pos h2] at hrounded
    rw [if_pos (h2.trans hdiv)] at hstart
    refine tryLoop_of_passes (payNonceRoundedHeight ctx.height)
      (ctx'.height.toNat / 128 - ctx.height.toNat / 128) (by omega) (by omega) ?_
    rwa [hsame _ (by rw [UInt64.le_iff_toNat_le]; omega)]
  · -- the pay nonce is that of block 1
    rw [if_neg h2] at hrounded
    have hone : payNonceRoundedHeight ctx.height = 1 := UInt64.toNat_inj.mp hrounded
    rw [hone] at hproof
    by_cases h2' : 2 ≤ ctx'.height.toNat / 128
    · -- the loop goes down to 0
      rw [if_pos h2'] at hstart
      refine tryLoop_of_passes 0 (ctx'.height.toNat / 128 - 1) (by omega)
        (by rw [hstart, UInt64.toNat_zero]; omega) ?_
      rwa [hgenesis]
    · rw [if_neg h2'] at hstart
      have hone' : payNonceRoundedHeight ctx'.height = 1 := UInt64.toNat_inj.mp hstart
      rw [hone']
      refine tryLoop_of_passes 1 0 (by omega) rfl ?_
      rwa [hfirst]

/-- A proof that the loop accepts verifies the whole set. -/
theorem tryProof_of_tryLoop {r : Reservoir} {entry : IssueFreeData} (hne : clientNonce ≠ [])
    (hentry : r.pendingFreeIssues.lookup payId = some entry)
    (hloop : tryLoop env ctx payId entry.difficulty clientNonce 6
      (payNonceRoundedHeight ctx.height) = true) :
    (r.tryProof env ctx payId clientNonce).1 = .accepted ∧
      ∀ tx ∈ entry.txs,
        (r.tryProof env ctx payId clientNonce).2.pendingIndex.lookup tx.txId = none ∧
        (r.tryProof env ctx payId clientNonce).2.verifiedIndex.lookup tx.txId = some payId := by
  have hcheck : r.checkProof env ctx payId clientNonce = .accepted := by
    rw [checkProof, hentry]
    exact if_pos hloop
  have htry : r.tryProof env ctx payId clientNonce =
      (.accepted, r.verifyIssueByNonce payId clientNonce) := by
    rw [tryProof, hcheck]
  rw [htry]
  refine ⟨rfl, ?_⟩
  intro tx htx
  have hmem : tx.txId ∈ entry.txs.map (·.txId) := List.mem_map_of_mem htx
  simp only [verifyIssueByNonce, if_neg hne, hentry]
  exact ⟨by rw [Table.lookup_eraseAll, if_pos hmem], by rw [Table.lookup_insertAll, if_pos hmem]⟩

end Reservoir

/-! ## A growing chain -/

/-- The call deletes no block. -/
def CachingOp.Grows : CachingOp → Prop
  | .storeIncoming _ _ _ | .digestForBlock _ _ => True
  | .deleteDownToBlock _ _ => False

/-- The reading of the clock during the call. -/
def CachingOp.clock : CachingOp → UInt64
  | .storeIncoming now _ _ => now
  | .deleteDownToBlock now _ => now
  | .digestForBlock now _ => now

/-- What the reservoir reads from the node. -/
def CachingNode.context (env : Env) (clock : UInt64) (now : Time) (assets : AssetCache)
    (s : CachingNode) : Context where
  view := s.node.access.view
  height := s.node.header.height
  now := now
  assets := assets
  digestForBlock number := (s.digestForBlock env clock number).1.toOption

/-- The cache is coherent, and no block that is stored has a time that is too far ahead. -/
structure CachingNode.Timely (env : Env) (clock : UInt64) (s : CachingNode) : Prop where
  coherent : s.Coherent env
  timestamp : ∀ {n hd}, HeaderAt env s.node.access.committed n hd →
    hd.timestamp.toNat ≤ clock.toNat + 5 * 60

section Growing

variable {env : Env} {clock clock' : UInt64} {s s' : CachingNode} {op : CachingOp}
  {trace trace' : List (CachingNode × CachingOp)}

/-- A block that is accepted has a time that is not too far ahead. -/
theorem extractIncoming_timestamp {now : UInt64} {node : Node} {packedBlock : Bytes}
    {packedNextBlock : Option Bytes} {hd : Header} {digest : BlockDigest} {data : Bytes}
    (h : extractIncoming env now node packedBlock packedNextBlock = .ok (hd, digest, data)) :
    hd.timestamp.toNat ≤ now.toNat + 5 * 60 := by
  have hunpack : unpackHeader env now (packedBlock.take totalBlockSize) = .ok hd := by
    unfold extractIncoming at h
    dsimp only at h
    split at h
    · obtain ⟨⟨hd', digest', data'⟩, hextract, h⟩ := bind_eq_ok.mp h
      obtain ⟨⟨next, nextDigest, nextData⟩, -, h⟩ := bind_eq_ok.mp h
      cases h
      exact (extractHeader_eq_ok.mp hextract).2.1
    · exact (extractHeader_eq_ok.mp h).2.1
  have hle : ¬ hd.timestamp > now + 5 * 60 := (unpackHeader_eq_ok.mp hunpack).2.1
  rw [gt_iff_lt, UInt64.lt_iff_toNat_lt, UInt64.toNat_add] at hle
  have h300 : (5 * 60 : UInt64).toNat = 5 * 60 := rfl
  have hmod := Nat.mod_le (now.toNat + (5 * 60 : UInt64).toNat) (2 ^ 64)
  omega

theorem CachingNode.Timely.mono (hs : s.Timely env clock) (h : clock ≤ clock') :
    s.Timely env clock' where
  coherent := hs.coherent
  timestamp hhd := (hs.timestamp hhd).trans (Nat.add_le_add_right (UInt64.le_iff_toNat_le.mp h) _)

theorem timely_fresh (env : Env) (clock : UInt64) : (CachingNode.fresh env).Timely env clock where
  coherent := coherent_fresh env
  timestamp := by
    rintro n hd ⟨b, hb, -⟩
    cases hb

/-- What a call does to the chain if it deletes nothing: nothing, or it adds a block at the end. -/
theorem CachingStep.grows (hs : s.Coherent env) (hop : op.Grows) (h : CachingStep env s op s') :
    s'.Coherent env ∧ (s'.node = s.node ∨
      (s.node.header.height + 1).toNat = s.node.header.height.toNat + 1 ∧
      s'.node.header.height = s.node.header.height + 1 ∧
      ∃ b d hd, Pushes s.node.access.committed s'.node.access.committed
          (s.node.header.height + 1) b d ∧
        HeaderOf env (b.take totalBlockSize) hd ∧
        hd.timestamp.toNat ≤ op.clock.toNat + 5 * 60) := by
  cases op with
  | storeIncoming now packedBlock packedNextBlock =>
    have hkeeps : (CachingOp.storeIncoming now packedBlock packedNextBlock).KeepsCoherent s :=
      trivial
    refine ⟨hs.step hkeeps h, Or.inr ?_⟩
    obtain ⟨hstore, -⟩ := h
    obtain ⟨i, a, hacc, -, hupdate, hnode⟩ := storeIncoming_eq_ok.mp hstore
    obtain ⟨hnum, hwrap, hpush, -⟩ := hs.onChain.store hacc hupdate
    obtain ⟨-, hhd, -⟩ := extractIncoming_eq_ok hacc.extract
    refine ⟨hwrap, ?_, packedBlock, i.digest, i.header, ?_, hhd,
      extractIncoming_timestamp hacc.extract⟩
    · rw [hnode, ← hnum]
      rfl
    · rwa [hnode, ← hnum]
  | deleteDownToBlock now finalBlockNumber => exact hop.elim
  | digestForBlock now number =>
    obtain rfl : s' = (s.digestForBlock env now number).2 := h
    refine ⟨hs.digestForBlock now number, Or.inl ?_⟩
    unfold CachingNode.digestForBlock
    split_ifs
    · rfl
    · dsimp only
      split_ifs
      · rfl
      · rfl
      · split <;> rfl

theorem CachingNode.Timely.step (hs : s.Timely env clock) (hop : op.Grows)
    (hclock : op.clock ≤ clock) (h : CachingStep env s op s') : s'.Timely env clock := by
  obtain ⟨hcoherent, hsame | ⟨-, -, b, d, hd, hpush, hhd, htime⟩⟩ := h.grows hs.coherent hop
  · exact ⟨hcoherent, fun hat => hs.timestamp (hsame ▸ hat)⟩
  · refine ⟨hcoherent, ?_⟩
    intro n hd' hat
    by_cases hn : n = s.node.header.height + 1
    · subst hn
      obtain rfl := hhd.unique (hpush.headerAt_new.mp hat)
      exact htime.trans (Nat.add_le_add_right (UInt64.le_iff_toNat_le.mp hclock) _)
    · exact hs.timestamp ((hpush.headerAt hn).mp hat)

/-- Every block can be read back at a time that is not before the clock readings of the run. -/
theorem CachingNode.Timely.readable (hs : s.Timely env clock)
    (hmax : clock.toNat + 5 * 60 < 2 ^ 64) (number : UInt64) :
    Readable env clock s.node.access.committed number := by
  intro _ hd hat hlt
  have hle := hs.timestamp hat
  have h300 : (5 * 60 : UInt64).toNat = 5 * 60 := rfl
  rw [gt_iff_lt, UInt64.lt_iff_toNat_lt, UInt64.toNat_add, h300, Nat.mod_eq_of_lt hmax] at hlt
  omega

/-- The pay nonces are those of the chain. -/
theorem CachingNode.Timely.payNonceFromBlock (hs : s.Timely env clock)
    (hmax : clock.toNat + 5 * 60 < 2 ^ 64) (now : Time) (assets : AssetCache) (number : UInt64) :
    Reservoir.payNonceFromBlock (s.context env clock now assets) number =
      match (currentDigest env s.node.access.committed number).toOption with
      | none => .zero 8
      | some digest => .ofSlice 8 digest.bytes := by
  rw [← hs.coherent.digestForBlock_eq (hs.readable hmax number)]
  rfl

/-- **The digests of the blocks that are stored stay** while the chain grows. -/
theorem currentDigest_grows (hs : s.Coherent env) (hr : Run (CachingStep env) s trace s')
    (hg : Guarded (fun _ op => op.Grows) trace) :
    s'.Coherent env ∧ s.node.header.height.toNat ≤ s'.node.header.height.toNat ∧
      ∀ n ≤ s.node.header.height, currentDigest env s'.node.access.committed n =
        currentDigest env s.node.access.committed n := by
  refine hr.invariant (P := fun t => t.Coherent env ∧
    s.node.header.height.toNat ≤ t.node.header.height.toNat ∧
      ∀ n ≤ s.node.header.height, currentDigest env t.node.access.committed n =
        currentDigest env s.node.access.committed n) hg ⟨hs, Nat.le_refl _, fun _ _ => rfl⟩ ?_
  intro t op u ht hop hstep
  obtain ⟨hcoherent, hle, hsame⟩ := ht
  obtain ⟨hcoherent', heq | ⟨hwrap, hheight, b, d, -, hpush, -⟩⟩ := hstep.grows hcoherent hop
  · rw [heq]
    exact ⟨hcoherent', hle, hsame⟩
  · refine ⟨hcoherent', by rw [hheight, hwrap]; omega, ?_⟩
    intro n hn
    -- the new block is another one than block `n`
    have hne : n ≠ t.node.header.height + 1 := by
      intro heq
      rw [heq, UInt64.le_iff_toNat_le, hwrap] at hn
      omega
    have hblock : u.node.access.committed.get .blocks (be64 n) =
        t.node.access.committed.get .blocks (be64 n) := by
      rw [hpush.blocks, if_neg (by rw [be64_inj]; exact hne.symm)]
    rw [← hsame n hn]
    simp only [currentDigest, hblock, hpush.headerDigest_eq hne]

end Growing

/-! ## The window -/

open Reservoir in
/-- **The window of a proof.** A node's chain grows, with a clock that does not go back: the pay
nonce of a set of free issues is made in the state `s`, and in a later state `s'` the set is still
pending and is given a proof for that pay nonce. If at most five multiples of 128 lie between the
heights, the proof is accepted, and every transaction of the set goes from the pending index to the
verified one. -/
theorem tryProof_within_window {env : Env} {clock clock' : UInt64} {s s' : CachingNode}
    {trace trace' : List (CachingNode × CachingOp)} {r : Reservoir} {payId : PayId}
    {entry : IssueFreeData} {clientNonce : Bytes}
    (hr : Run (CachingStep env) (CachingNode.fresh env) trace s)
    (hg : Guarded (fun _ op => op.Grows ∧ op.clock ≤ clock) trace)
    (hr' : Run (CachingStep env) s trace' s')
    (hg' : Guarded (fun _ op => op.Grows ∧ op.clock ≤ clock') trace')
    (hclock : clock ≤ clock') (hmax : clock'.toNat + 5 * 60 < 2 ^ 64)
    (hwindow : s'.node.header.height.toNat / 128 - s.node.header.height.toNat / 128 ≤ 5)
    (now now' : Time) (assets assets' : AssetCache)
    (hentry : r.pendingFreeIssues.lookup payId = some entry) (hnonce : clientNonce ≠ [])
    (hproof : Proves env payId entry.difficulty clientNonce
      (newPayNonce (s.context env clock now assets))) :
    let result := r.tryProof env (s'.context env clock' now' assets') payId clientNonce
    result.1 = .accepted ∧ ∀ tx ∈ entry.txs,
      result.2.pendingIndex.lookup tx.txId = none ∧
        result.2.verifiedIndex.lookup tx.txId = some payId := by
  have hs : s.Timely env clock :=
    hr.invariant hg (timely_fresh env clock) fun ht hop hstep => ht.step hop.1 hop.2 hstep
  have hs' : s'.Timely env clock' :=
    hr'.invariant hg' (hs.mono hclock) fun ht hop hstep => ht.step hop.1 hop.2 hstep
  have hmax₀ : clock.toNat + 5 * 60 < 2 ^ 64 := by
    rw [UInt64.le_iff_toNat_le] at hclock
    omega
  obtain ⟨-, hle, hsame⟩ := currentDigest_grows hs.coherent hr' (hg'.mono fun _ _ hop => hop.1)
  have hfirst {n : UInt64} (hn : n ≤ 1) : payNonceFromBlock (s'.context env clock' now' assets') n =
      payNonceFromBlock (s.context env clock now assets) 1 := by
    rw [hs.payNonceFromBlock hmax₀, hs'.payNonceFromBlock hmax, currentDigest, currentDigest,
      if_pos hn, if_pos (UInt64.le_refl 1)]
  have hstay : ∀ n ≤ (s.context env clock now assets).height,
      payNonceFromBlock (s'.context env clock' now' assets') n =
        payNonceFromBlock (s.context env clock now assets) n := by
    intro n hn
    rw [hs.payNonceFromBlock hmax₀, hs'.payNonceFromBlock hmax, hsame n hn]
  exact tryProof_of_tryLoop hnonce hentry (tryLoop_of_newPayNonce hproof hle hwindow hstay
    (hfirst (by decide)) (hfirst (UInt64.le_refl 1)))

namespace Sample

/-- The reservoir with a set of two free issues, before their proof. -/
theorem runs_issues : (reservoirAfter (calls.take 3)).any fun r =>
    (r.pendingFreeIssues.lookup (payId 0x32)).any fun entry =>
      entry.difficulty = 0 ∧ entry.txs.map (·.txId) = [id 0x31, id 0x32] := by
  decide +kernel

/-- A pay nonce from the fresh node, proved after block 2 is stored. -/
theorem tryProof_within_window_second :
    ∃ (r : Reservoir) (entry : IssueFreeData) (s' : CachingNode),
    s'.node.header.height = 2 ∧ r.pendingFreeIssues.lookup (payId 0x32) = some entry ∧
    entry.txs.map (·.txId) = [id 0x31, id 0x32] ∧
    let result := r.tryProof env (s'.context env 1000 1 assets) (payId 0x32) (List.replicate 32 0)
    result.1 = .accepted ∧ ∀ tx ∈ entry.txs, result.2.pendingIndex.lookup tx.txId = none ∧
      result.2.verifiedIndex.lookup tx.txId = some (payId 0x32) := by
  obtain ⟨r, -, h⟩ := (Option.any_eq_true _ _).mp runs_issues
  obtain ⟨entry, hentry, h⟩ := (Option.any_eq_true _ _).mp h
  rw [decide_eq_true_eq] at h
  have hok : (secondBlock.run env (Node.fresh env)).1.isOk = true := by decide +kernel
  have hheight : (after [secondBlock]).header.height = 2 := by decide +kernel
  obtain ⟨b, next, hop⟩ : ∃ b next, secondBlock = .storeIncoming 1000 b next := ⟨_, _, rfl⟩
  rw [hop] at hok hheight
  have hproof : Reservoir.Proves env (payId 0x32) entry.difficulty (List.replicate 32 0)
      (Reservoir.newPayNonce ((CachingNode.fresh env).context env 1000 1 assets)) := by
    rw [h.1]
    decide +kernel
  have hguard :
      Guarded (fun (_ : CachingNode) (op : CachingOp) => op.Grows ∧ op.clock ≤ 1000)
        [(CachingNode.fresh env, .storeIncoming 1000 b next)] := by
    simp [Guarded, CachingOp.Grows, CachingOp.clock]
  have hwindow : (after [.storeIncoming 1000 b next]).header.height.toNat / 128 -
      (Node.fresh env).header.height.toNat / 128 ≤ 5 := by
    rw [hheight]
    decide
  exact ⟨r, entry, ⟨after [.storeIncoming 1000 b next], .empty⟩, hheight, hentry, h.2,
    tryProof_within_window .nil .nil (run_store hok) hguard (UInt64.le_refl _) (by decide) hwindow
      1 1 assets assets hentry (by decide) hproof⟩

/-- Every hash is below the difficulty. -/
def lenient : Env := { env with scaledDifficulty := fun _ => 2 ^ 256 }

/-- A fresh node with the asset in its cache. -/
def freshContext : Context := (CachingNode.fresh lenient).context lenient 1000 1 assets

/-- The call that stores an issue. -/
def oneIssue : List (Context × ReservoirOp) :=
  [(freshContext, .storeIssues [⟨env.sha3Sum512 [2], account 1, 0, signature 0x31⟩])]

theorem runs_oneIssue : (execute (ReservoirStep.exec lenient) oneIssue (Reservoir.empty false)).any
    fun r => (r.pendingFreeIssues.lookup (payId 0x31)).any fun entry =>
      Reservoir.Proves lenient (payId 0x31) entry.difficulty []
          (Reservoir.newPayNonce freshContext) ∧
        entry.txs.map (·.txId) = [id 0x31] ∧
        (r.tryProof lenient freshContext (payId 0x31) []).1 = .accepted ∧
        (r.tryProof lenient freshContext (payId 0x31) []).2.verifiedIndex.lookup (id 0x31) =
          none := by
  decide +kernel

/-- With an empty client nonce the proof is accepted, but the set is not verified. -/
theorem empty_nonce_accepted : ∃ (trace : List (Reservoir × Context × ReservoirOp))
    (r : Reservoir) (entry : IssueFreeData), ReservoirRun lenient false trace r ∧
    r.pendingFreeIssues.lookup (payId 0x31) = some entry ∧
    Reservoir.Proves lenient (payId 0x31) entry.difficulty []
      (Reservoir.newPayNonce freshContext) ∧
    let result := r.tryProof lenient freshContext (payId 0x31) []
    result.1 = .accepted ∧
      ∃ tx ∈ entry.txs, result.2.verifiedIndex.lookup tx.txId = none := by
  obtain ⟨r, hr, h⟩ := (Option.any_eq_true _ _).mp runs_oneIssue
  obtain ⟨entry, hentry, h⟩ := (Option.any_eq_true _ _).mp h
  rw [decide_eq_true_eq] at h
  obtain ⟨hproof, htxs, haccepted, hnone⟩ := h
  obtain ⟨tx, htx, hid⟩ := List.mem_map.mp (htxs ▸ List.mem_singleton_self (id 0x31))
  exact ⟨_, r, entry, run_of_execute ReservoirStep.of_exec hr, hentry, hproof, haccepted, tx, htx,
    hid ▸ hnone⟩

end Sample

end Bitmarkd
