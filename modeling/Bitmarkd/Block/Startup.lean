import Bitmarkd.Sample
import Mathlib

/-!
# Validation at startup

`block/setup.go`: a node that starts checks the indexes against its last stored blocks, the newest
first. A record that a later record has spent is not looked up among the owned ones: the two maps
of prior owners remember the links of the blocks that were already checked.

`BlockValidationCounts` blocks are to be checked. Their bound is computed in unsigned numbers: below
that height the difference wraps and **only the last block is checked** (`startup_coverage`).
-/

namespace Bitmarkd

open Lib

namespace Startup

/-! ## The checks of a transaction -/

/-- `priorBlockOwnerTxs` and `priorTxOwnerTxs`. -/
structure PriorOwners where
  blockOwnerTxs : List Digest
  txOwnerTxs : List Digest

/-- The maps of a fresh process. -/
def PriorOwners.empty : PriorOwners := ⟨[], []⟩

/-- `validateTxOwnerRecords`: a missing index entry counts as no bytes. -/
def validateTxOwnerRecords (v : View) (txId : Digest) (owner : Account) : Except Stop Unit :=
  let count := (v.get .ownerTxIndex (owner.bytes ++ txId.bytes)).getD []
  if v.get .ownerList (owner.bytes ++ count) ≠ some txId.bytes then fault .dataInconsistent
  else .ok ()

/-- `validateBlockOwnerRecord`. -/
def validateBlockOwnerRecord (env : Env) (v : View) (txId : Digest) (payments : Currency.Map) :
    Except Stop Unit := do
  let blockNumberKey := (v.get .blockOwnerTxIndex txId.bytes).getD []
  failIf (blockNumberKey.length = 0) .ownershipIsNotIndexed
  let packedPayment ← payments.pack env env.isTesting
  failIf (v.get .blockOwnerPayment blockNumberKey ≠ some packedPayment) .dataInconsistent

/-- `isTxWipedOut`. The owner of a share is `nil`. -/
def isTxWipedOut (env : Env) (v : View) (txId : Digest) : Except Stop Bool := do
  if v.has .ownerData txId.bytes then return false
  let found ← v.getNB .transactions txId.bytes
  let packed := (found.map Prod.snd).getD []
  let notIndexed (owner : Account) : Bool := !v.has .ownerTxIndex (owner.bytes ++ txId.bytes)
  match unpack env packed env.isTesting with
  | .error _ => return false
  | .ok (.bitmarkIssue tx, _) => return notIndexed tx.owner
  | .ok (.bitmarkTransferUnratified tx, _) => return notIndexed tx.owner
  | .ok (.bitmarkTransferCountersigned tx, _) => return notIndexed tx.owner
  | .ok (.blockOwnerTransfer tx, _) => return notIndexed tx.owner
  | .ok (.bitmarkShare _, _) => panicAt .nilPointer
  | .ok _ => return false

/-- The check of a foundation record, under the id of the block's foundation. -/
def validateFoundation (env : Env) (v : View) (prior : PriorOwners) (foundation : Digest)
    (tx : BlockFoundation) : Except Stop Unit := do
  failIf (!v.has .transactions foundation.bytes) .transactionIsNotIndexed
  if foundation ∉ prior.blockOwnerTxs then
    validateBlockOwnerRecord env v foundation tx.payments

/-- The check of a block owner transfer; the block it is linked to has a later owner. -/
def validateBlockOwnerTransfer (env : Env) (v : View) (prior : PriorOwners) (txId : Digest)
    (tx : BlockOwnerTransfer) : Except Stop PriorOwners := do
  failIf (!v.has .transactions txId.bytes) .transactionIsNotIndexed
  failIf (v.has .blockOwnerTxIndex tx.link.bytes) .previousOwnershipWasNotDeleted
  if txId ∉ prior.blockOwnerTxs then
    validateBlockOwnerRecord env v txId tx.payments
  return { prior with blockOwnerTxs := tx.link :: prior.blockOwnerTxs }

/-- The check of an issue. -/
def validateIssue (v : View) (prior : PriorOwners) (txId : Digest) (tx : BitmarkIssue) :
    Except Stop Unit := do
  failIf (!v.has .transactions txId.bytes) .transactionIsNotIndexed
  if txId ∉ prior.txOwnerTxs then
    validateTxOwnerRecords v txId tx.owner

/-- The check of a bitmark transfer; the record it is linked to has a later owner. -/
def validateTransfer (env : Env) (v : View) (prior : PriorOwners) (txId link : Digest)
    (owner : Account) : Except Stop PriorOwners := do
  failIf (!v.has .transactions txId.bytes) .transactionIsNotIndexed
  let wiped ← isTxWipedOut env v link
  failIf (!wiped) .previousTransactionWasNotDeleted
  if txId ∉ prior.txOwnerTxs then
    validateTxOwnerRecords v txId owner
  return { prior with txOwnerTxs := link :: prior.txOwnerTxs }

/-- The switch of `validateTransactionData` over the records. -/
def validateTransaction (env : Env) (v : View) (foundation : Digest) (prior : PriorOwners)
    (txId : Digest) (transaction : Transaction) : Except Stop PriorOwners := do
  match transaction with
  | .oldBaseData _ => return prior
  | .blockFoundation tx =>
    validateFoundation env v prior foundation tx
    return prior
  | .blockOwnerTransfer tx => validateBlockOwnerTransfer env v prior txId tx
  | .assetData tx =>
    failIf (!v.has .assets (tx.assetId env).bytes) .assetIsNotIndexed
    return prior
  | .bitmarkIssue tx =>
    validateIssue v prior txId tx
    return prior
  | .bitmarkShare _ | .shareGrant _ | .shareSwap _ =>
    failIf (!v.has .transactions txId.bytes) .transactionIsNotIndexed
    return prior
  | .bitmarkTransferUnratified tx => validateTransfer env v prior txId tx.link tx.owner
  | .bitmarkTransferCountersigned tx => validateTransfer env v prior txId tx.link tx.owner

/-- `validateTransactionData`: the loop over so many transactions. -/
def validateTransactionData (env : Env) (v : View) (foundation : Digest) :
    ℕ → PriorOwners → Bytes → Except Stop PriorOwners
  | 0, prior, _ => .ok prior
  | i + 1, prior, data => do
    let (transaction, n) ← unpack env data env.isTesting
    let txId := env.newDigest (data.take n)
    let prior ← validateTransaction env v foundation prior txId transaction
    validateTransactionData env v foundation i prior (data.drop n)

/-! ## The blocks -/

/-- `BlockValidationCounts`. -/
def blockValidationCounts : UInt64 := 10

/-- `lastCheckedBlockNumber`: the number before the first one of the loop. -/
def lastCheckedBlockNumber (lastBlockNumber : UInt64) : UInt64 :=
  let lastCheckedBlockNumber := lastBlockNumber - blockValidationCounts
  if lastCheckedBlockNumber < 1 then 1 else lastCheckedBlockNumber

/-- The numbers of the first loop; `none` if it takes more turns than given. -/
def blockNumbers (lastChecked : UInt64) : ℕ → UInt64 → Option (List UInt64)
  | 0, _ => none
  | turns + 1, blockNumber =>
    if blockNumber > lastChecked then
      (blockNumbers lastChecked turns (blockNumber - 1)).map (blockNumber :: ·)
    else some []

/-- The stored block of a number. -/
def storedBlock (v : View) (blockNumber : UInt64) : Bytes :=
  (v.get .blocks (be64 blockNumber)).getD []

/-- The blocks to check: the last element, and those the first loop reads. -/
def blocksToValidate (v : View) (last : Bytes × Bytes) (turns : ℕ) : Option (List Bytes) :=
  let lastBlockNumber := ofBE64 last.1
  (blockNumbers (lastCheckedBlockNumber lastBlockNumber) turns (lastBlockNumber - 1)).map
    fun numbers => last.2 :: numbers.map (storedBlock v)

/-- The second loop: the header and digest of each block that was checked. -/
def validateBlocks (env : Env) (now : UInt64) (v : View) :
    PriorOwners → List Bytes → Except Stop (List (Header × BlockDigest))
  | _, [] => .ok []
  | prior, blockData :: blocks => do
    let (h, d, data) ← extractHeader env now v blockData 0 false
    let prior ← validateTransactionData env v (foundationTxId env h.number d)
      h.transactionCount.toNat prior data
    let rest ← validateBlocks env now v prior blocks
    return (h, d) :: rest

/-- `validateAndReturnLastBlock`: the header and digest of the first block that was checked. -/
def validateAndReturnLastBlock (env : Env) (now : UInt64) (v : View) (last : Bytes × Bytes)
    (turns : ℕ) : Option (Except Stop (Option (Header × BlockDigest))) :=
  (blocksToValidate v last turns).map fun blocks => do
    let checked ← validateBlocks env now v .empty blocks
    return checked.head?

/-! ## Coverage -/

section Coverage

variable {env : Env} {now n lastChecked : UInt64} {v : View} {turns : ℕ} {b : Bytes}
  {prior : PriorOwners} {blocks : List Bytes} {checked : List (Header × BlockDigest)}

/-- The numbers between two bounds, the upper one left out, from the largest downwards. -/
def numbersBetween (low high : ℕ) : List UInt64 :=
  ((List.Ico low high).map UInt64.ofNat).reverse

theorem numbersBetween_eq_cons {low high : ℕ} (h : low ≤ high) :
    numbersBetween low (high + 1) = UInt64.ofNat high :: numbersBetween low high := by
  rw [numbersBetween, List.Ico.succ_top h, List.map_append, List.reverse_append]
  rfl

/-- The loop runs down to the bound. -/
theorem blockNumbers_eq (hturns : n.toNat - lastChecked.toNat < turns) :
    blockNumbers lastChecked turns n =
      some (numbersBetween (lastChecked.toNat + 1) (n.toNat + 1)) := by
  induction turns generalizing n with
  | zero => exact absurd hturns (Nat.not_lt_zero _)
  | succ turns ih =>
    rw [blockNumbers]
    by_cases hlt : n > lastChecked
    · have hlt' : lastChecked.toNat < n.toNat := UInt64.lt_iff_toNat_lt.mp hlt
      have hone : (1 : UInt64) ≤ n := by
        rw [UInt64.le_iff_toNat_le]
        exact Nat.one_le_of_lt hlt'
      have hpred : (n - 1).toNat = n.toNat - 1 := UInt64.toNat_sub_of_le _ _ hone
      have hsucc : n.toNat - 1 + 1 = n.toNat := by omega
      rw [if_pos hlt, ih (by omega), hpred, hsucc, numbersBetween_eq_cons hlt',
        UInt64.ofNat_toNat]
      rfl
    · have hle : n.toNat ≤ lastChecked.toNat := by
        rw [← UInt64.le_iff_toNat_le]
        exact UInt64.not_lt.mp hlt
      rw [if_neg hlt, numbersBetween, List.Ico.eq_nil_of_le (by omega)]
      rfl

/-- The second loop examines each of the blocks. -/
theorem validateBlocks_examines (h : validateBlocks env now v prior blocks = .ok checked) :
    List.Forall₂ (fun b c => ∃ data, extractHeader env now v b 0 false = .ok (c.1, c.2, data))
      blocks checked := by
  induction blocks generalizing prior checked with
  | nil =>
    cases h
    exact List.Forall₂.nil
  | cons b blocks ih =>
    obtain ⟨⟨header, digest, data⟩, hextract, h⟩ := bind_eq_ok.mp h
    obtain ⟨prior', -, h⟩ := bind_eq_ok.mp h
    obtain ⟨rest, hrest, h⟩ := bind_eq_ok.mp h
    cases h
    exact List.Forall₂.cons ⟨data, hextract⟩ (ih hrest)

/-- The bound in natural numbers: the difference, or 1 in place of 0. -/
theorem toNat_lastCheckedBlockNumber (n : UInt64) :
    (lastCheckedBlockNumber n).toNat = max 1 (n - blockValidationCounts).toNat := by
  have hone : (1 : UInt64).toNat = 1 := rfl
  rw [lastCheckedBlockNumber]
  by_cases hlt : n - blockValidationCounts < 1
  · have hlt' := UInt64.lt_iff_toNat_lt.mp hlt
    rw [if_pos hlt, hone]
    omega
  · have hle := UInt64.le_iff_toNat_le.mp (UInt64.not_lt.mp hlt)
    rw [if_neg hlt]
    omega

/-- From block ten on the bound is ten below the last block. -/
theorem lastCheckedBlockNumber_of_le (h : 10 ≤ n.toNat) :
    (lastCheckedBlockNumber n).toNat = max 1 (n.toNat - 10) := by
  have hsub : (n - blockValidationCounts).toNat = n.toNat - 10 :=
    UInt64.toNat_sub_of_le _ _ (UInt64.le_iff_toNat_le.mpr h)
  rw [toNat_lastCheckedBlockNumber, hsub]

/-- Before that the difference wraps: the bound is above the last block. -/
theorem lastCheckedBlockNumber_of_lt (h : n.toNat < 10) :
    n.toNat ≤ (lastCheckedBlockNumber n).toNat := by
  have hsub : (n - blockValidationCounts).toNat = (2 ^ 64 - 10 + n.toNat) % 2 ^ 64 :=
    UInt64.toNat_sub _ _
  rw [toNat_lastCheckedBlockNumber, hsub, Nat.mod_eq_of_lt (by omega)]
  omega

/-- The numbers that are to be checked: at most ten up to the last one, block 1 excluded. -/
def recentNumbers (n : UInt64) : List UInt64 :=
  numbersBetween (max 2 (n.toNat + 1 - blockValidationCounts.toNat)) (n.toNat + 1)

theorem length_recentNumbers (hn : 2 ≤ n.toNat) :
    (recentNumbers n).length = min (n.toNat - 1) 10 := by
  have hcount : blockValidationCounts.toNat = 10 := rfl
  rw [recentNumbers, numbersBetween, List.length_reverse, List.length_map, List.Ico.length, hcount]
  omega

/-- The blocks that are checked, from block ten on. -/
theorem blocksToValidate_of_le (h : 10 ≤ n.toNat) (hturns : 10 ≤ turns)
    (hlast : v.get .blocks (be64 n) = some b) :
    blocksToValidate v (be64 n, b) turns = some ((recentNumbers n).map (storedBlock v)) := by
  have hpred : (n - 1).toNat = n.toNat - 1 :=
    UInt64.toNat_sub_of_le _ _ (UInt64.le_iff_toNat_le.mpr (Nat.le_trans (by decide) h))
  have hbound := lastCheckedBlockNumber_of_le h
  have hlow : max 1 (n.toNat - 10) + 1 = max 2 (n.toNat + 1 - blockValidationCounts.toNat) := by
    have hcount : blockValidationCounts.toNat = 10 := rfl
    omega
  have hsucc : n.toNat - 1 + 1 = n.toNat := by omega
  have hstored : storedBlock v n = b := by rw [storedBlock, hlast]; rfl
  rw [blocksToValidate]
  dsimp only
  rw [ofBE64_be64, blockNumbers_eq (by omega), hbound, hpred, hlow, hsucc, recentNumbers,
    numbersBetween_eq_cons (by omega), UInt64.ofNat_toNat, List.map_cons, hstored]
  rfl

/-- The blocks that are checked before that: the last one. -/
theorem blocksToValidate_of_lt (h : n.toNat < 10) (hn : 2 ≤ n.toNat) (hturns : 0 < turns) :
    blocksToValidate v (be64 n, b) turns = some [b] := by
  have hpred : (n - 1).toNat = n.toNat - 1 :=
    UInt64.toNat_sub_of_le _ _ (UInt64.le_iff_toNat_le.mpr (Nat.le_trans (by decide) hn))
  have hbound := lastCheckedBlockNumber_of_lt h
  rw [blocksToValidate]
  dsimp only
  rw [ofBE64_be64, blockNumbers_eq (by omega), numbersBetween, List.Ico.eq_nil_of_le (by omega)]
  rfl

/-- **Which blocks are checked at startup.** For a last block of any number from two on, ten turns
of the loop are enough; the blocks are the last ten but block 1, each once and in descending order,
exactly if there are two blocks or at least ten; and a start that succeeds has examined each. -/
theorem startup_coverage (env : Env) (now : UInt64) (hn : 2 ≤ n.toNat) (hturns : 10 ≤ turns)
    (hlast : v.get .blocks (be64 n) = some b) :
    ∃ blocks, blocksToValidate v (be64 n, b) turns = some blocks ∧
      (blocks = (recentNumbers n).map (storedBlock v) ↔ n.toNat = 2 ∨ 10 ≤ n.toNat) ∧
      validateAndReturnLastBlock env now v (be64 n, b) turns =
        some ((validateBlocks env now v .empty blocks).map List.head?) ∧
      ∀ checked, validateBlocks env now v .empty blocks = .ok checked →
        List.Forall₂ (fun b c => ∃ data,
          extractHeader env now v b 0 false = .ok (c.1, c.2, data)) blocks checked := by
  have hvalidate {blocks : List Bytes} (h : blocksToValidate v (be64 n, b) turns = some blocks) :
      validateAndReturnLastBlock env now v (be64 n, b) turns =
        some ((validateBlocks env now v .empty blocks).map List.head?) := by
    rw [validateAndReturnLastBlock, h, Option.map_some]
    cases validateBlocks env now v .empty blocks <;> rfl
  by_cases hten : 10 ≤ n.toNat
  · have hblocks := blocksToValidate_of_le hten hturns hlast
    exact ⟨_, hblocks, ⟨fun _ => Or.inr hten, fun _ => rfl⟩, hvalidate hblocks,
      fun _ => validateBlocks_examines⟩
  · have hblocks := blocksToValidate_of_lt (v := v) (b := b) (Nat.lt_of_not_le hten) hn
      (Nat.lt_of_lt_of_le (by decide) hturns)
    refine ⟨_, hblocks, ⟨fun h => ?_, fun h => ?_⟩, hvalidate hblocks,
      fun _ => validateBlocks_examines⟩
    · have hlength := congrArg List.length h
      rw [List.length_map, length_recentNumbers hn, List.length_singleton] at hlength
      omega
    · have htwo : n = 2 := by
        rw [← UInt64.toNat_inj]
        exact h.resolve_right hten
      have hstored : storedBlock v n = b := by rw [storedBlock, hlast]; rfl
      have hnumbers : recentNumbers 2 = [2] := by decide
      rw [htwo] at hstored ⊢
      rw [hnumbers, List.map_singleton, hstored]

end Coverage

end Startup

namespace Sample

open Startup

/-- Two blocks on the genesis block. -/
def twoBlocksOps : List Op := storeAll 2 [[asset 1, issue 1 0x11 1], [transfer (id 0x11) 0x12 2]]

def twoBlocks : View := (after twoBlocksOps).access.view

theorem twoBlocks_facts :
    (runOps env twoBlocksOps (Node.fresh env)).isSome = true ∧
      Database.lastElement (after twoBlocksOps).access.db .blocks =
        some (be64 3, storedBlock twoBlocks 3) ∧
      twoBlocks.get .blocks (be64 3) = some (storedBlock twoBlocks 3) ∧
      recentNumbers 3 = [3, 2] := by
  decide +kernel

/-- **Block 2 is not checked.** After two blocks were stored, both of them are to be checked, but a
start checks the last one alone. -/
theorem older_block_unchecked :
    NodeRun env (traceOps env twoBlocksOps (Node.fresh env)) (after twoBlocksOps) ∧
      Database.lastElement (after twoBlocksOps).access.db .blocks =
        some (be64 3, storedBlock twoBlocks 3) ∧
      recentNumbers 3 = [3, 2] ∧
      ∀ turns, 10 ≤ turns → blocksToValidate twoBlocks (be64 3, storedBlock twoBlocks 3) turns =
        some [storedBlock twoBlocks 3] := by
  obtain ⟨hrun, hlast, -, hrecent⟩ := twoBlocks_facts
  refine ⟨nodeRun_after hrun, hlast, hrecent, fun turns hturns => ?_⟩
  exact blocksToValidate_of_lt (by decide) (by decide) (Nat.lt_of_lt_of_le (by decide) hturns)

theorem startup_coverage_twoBlocks :
    ∃ blocks, blocksToValidate twoBlocks (be64 3, storedBlock twoBlocks 3) 10 = some blocks ∧
      ¬ blocks = (recentNumbers 3).map (storedBlock twoBlocks) := by
  obtain ⟨blocks, hblocks, hcovers, -⟩ := startup_coverage (n := 3) env 1000 (by decide)
    (Nat.le_refl 10) twoBlocks_facts.2.2.1
  exact ⟨blocks, hblocks, fun h => absurd (hcovers.mp h) (by decide)⟩

end Sample

end Bitmarkd
