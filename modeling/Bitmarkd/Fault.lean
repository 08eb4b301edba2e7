import Bitmarkd.Lib.Reader

/-!
# How a call can stop

Go code returns an error from package `fault`, or it panics. `Fault` lists the errors the modelled
code returns, `Panic` the places where it panics, and `Stop` is either. The modelled functions
return `Except Stop`; a panic is a value of the model, so that "never panics" can be said.
-/

namespace Bitmarkd

open Lib

/-- The errors of package `fault`, of a write to the database, and of `hex.Decode`. -/
inductive Fault
  | alreadyInitialised
  | assetIsNotIndexed
  | assetNotFound
  | bitcoinAddressForWrongNetwork
  | blockEndEarlierThanBegin
  | blockNotFound
  | blockVersionMustNotDecrease
  | bufferCapacityLimit
  | cannotConvertSharesBackToAssets
  | cannotDecodeAccount
  | cannotDecodePrivateKey
  | canOnlyConvertAssetsToShares
  | checksumMismatch
  | dataInconsistent
  | difficultyDoesNotMatchCalculated
  | doubleTransferAttempt
  | fingerprintTooLong
  | fingerprintTooShort
  | hashNotFound
  | heightOutOfSequence
  | incorrectBlockRangeToRollback
  | incorrectChain
  | insufficientShares
  | invalidBitcoinAddress
  | invalidBlockHeaderDifficulty
  | invalidBlockHeaderSize
  | invalidBlockHeaderTimestamp
  | invalidBlockHeaderVersion
  | invalidBuffer
  | invalidCount
  | invalidCurrency
  | invalidCurrencyAddress
  | invalidDnsTxtRecord
  | invalidFingerprint
  | invalidIpAddress
  | invalidKeyLength
  | invalidKeyType
  | invalidLitecoinAddress
  | invalidNonce
  | invalidOwnerOrRegistrant
  | invalidPaymentVersion
  | invalidPortNumber
  | invalidPublicKey
  | invalidRecoveryPhraseLength
  | invalidSecretKeyLength
  | invalidSeedHeader
  | invalidSeedLength
  | invalidSignature
  | invalidTimestamp
  | linkToInvalidOrUnconfirmedTransaction
  | litecoinAddressForWrongNetwork
  | merkleRootDoesNotMatch
  | metadataIsNotMap
  | metadataTooLong
  | missingBlockOwner
  | missingOwnerData
  | missingParameters
  | missingPreviousBlockHeader
  | nameTooLong
  | noNewBlockHeadersFromPeer
  | noNewTransactions
  | notAssetId
  | notAvailableDuringSynchronise
  | notLink
  | notOwnerDataPack
  | notPrivateKey
  | notPublicKey
  | notTransactionPack
  | ownershipIsNotIndexed
  | payIdAlreadyUsed
  | paymentAddressTooLong
  | previousBlockDigestDoesNotMatch
  | previousOwnershipWasNotDeleted
  | previousTransactionWasNotDeleted
  | recordHasExpired
  | shareIdsCannotBeIdentical
  | shareQuantityTooSmall
  | signatureTooLong
  | tooManyItemsToProcess
  | transactionAlreadyExists
  | transactionAlreadyInUse
  | transactionCountOutOfRange
  | transactionIsNotAnAsset
  | transactionIsNotAnIssue
  | transactionIsNotATransfer
  | transactionIsNotIndexed
  | transactionLinksToSelf
  | unexpectedTransactionRecord
  | votesInsufficient
  | votesWithEmptyWinner
  | votesWithZeroCount
  | votesWithZeroHeight
  | wrongNetworkForPublicKey
  | databaseWrite
  | hexDecode
deriving DecidableEq, Repr

/-- The places where the modelled code panics. -/
inductive Panic
  /-- An index or a slice bound out of range. -/
  | indexOutOfRange
  /-- A `nil` pointer is dereferenced. -/
  | nilPointer
  /-- `difficulty.SetBits: failed`. -/
  | difficultySetBits
  /-- `pool.GetN truncated record` or `pool.GetNB truncated record`. -/
  | truncatedRecord
  /-- `pool.PutNB 1st parameter must be 8 bytes`. -/
  | putNBFirstParameter
  /-- `PoolNB has not PutN method`. -/
  | putNOfPoolNB
  /-- `ownership.OwnerOf`: the stored record does not unpack. -/
  | ownerOfUnpack
  /-- `block.OwnerOf: incorrect transaction`. -/
  | ownerOfIncorrectTransaction
  /-- `ownership.Transfer: OwnerTxIndex database corrupt`. -/
  | ownerTxIndexCorrupt
  /-- `ownership.Transfer: Ownership database corrupt`. -/
  | ownershipCorrupt
  /-- `OwnerNextCount database corrupt`. -/
  | ownerNextCountCorrupt
  /-- `should not occur`: a base or foundation record after the first transactions. -/
  | shouldNotOccur
  /-- `pack, should not error`. -/
  | packShouldNotError
  /-- `read owner balance should not fail`. -/
  | readOwnerBalance
  /-- `read owner one share one balance should not fail`. -/
  | readOwnerOneShareOneBalance
  /-- `read owner two share two balance should not fail`. -/
  | readOwnerTwoShareTwoBalance
  /-- `block.Store: out of sequence block`. -/
  | outOfSequenceBlock
  /-- `Transactions database is corrupt`: a linked record is missing. -/
  | transactionsCorrupt
  /-- `Transaction database is corrupt`: a linked block record cannot be used. -/
  | transactionCorrupt
  /-- `ShareQuantity database is corrupt`. -/
  | shareQuantityCorrupt
  /-- `unexpected transaction` or `unhandled transaction`. -/
  | unexpectedTransaction
  /-- `payment.getPayment: no block payment data`. -/
  | noBlockPaymentData
  /-- `payment.getPayment: block payment data error`. -/
  | blockPaymentDataError
  /-- `payment.getPayments: mismatched currencies`. -/
  | mismatchedCurrencies
  /-- `Index` or `GetFee` of the currency `Nothing`. -/
  | currencyWithoutFee
  /-- `reservoir … when not locked`. -/
  | reservoirNotLocked
  /-- `reservoir: rescan found`: a record that is never pooled. -/
  | rescanFound
  /-- `fetch verified: buffer overrun`. -/
  | bufferOverrun
  /-- `fetch verified: not an issue`. -/
  | notAnIssue
  /-- `fetch verified missing asset`. -/
  | missingAsset
  /-- `fetch verified: missing confirmed asset`. -/
  | missingConfirmedAsset
  /-- `write record packed length`. -/
  | writeRecordLength
  /-- `crypto/rand: argument to Int is <= 0`. -/
  | randIntArgument
  /-- An interface holds a value of another type than the one asserted. -/
  | interfaceConversion
  /-- `connection.Pack: invalid IP length`. -/
  | invalidIPLength
  /-- `split cannot be <= 0`: a key of the owner list without an owner. -/
  | splitCannotBeZero
deriving DecidableEq, Repr

/-- A call that did not complete: an error was returned, or it panicked, or a loop of the model ran
out of the steps it was given. The last never happens from a state the node can reach. -/
inductive Stop
  | fault (e : Fault)
  | panic (p : Panic)
  | outOfSteps
deriving DecidableEq, Repr

/-- Return an error. -/
def fault {α : Type} (e : Fault) : Except Stop α := .error (.fault e)

/-- Panic. -/
def panicAt {α : Type} (p : Panic) : Except Stop α := .error (.panic p)

/-- Return an error if a condition holds. -/
def failIf (c : Prop) [Decidable c] (e : Fault) : Except Stop Unit := if c then fault e else .ok ()

/-- Panic if a condition holds. -/
def panicIf (c : Prop) [Decidable c] (p : Panic) : Except Stop Unit :=
  if c then panicAt p else .ok ()

section Inversion

variable {α β : Type}

@[simp] theorem fault_ne_ok {e : Fault} {a : α} : (fault e : Except Stop α) = .ok a ↔ False := by
  simp [fault]

@[simp] theorem panicAt_ne_ok {p : Panic} {a : α} :
    (panicAt p : Except Stop α) = .ok a ↔ False := by
  simp [panicAt]

@[simp] theorem failIf_eq_ok {c : Prop} [Decidable c] {e : Fault} {u : Unit} :
    failIf c e = .ok u ↔ ¬ c := by
  unfold failIf
  split <;> simp_all

@[simp] theorem panicIf_eq_ok {c : Prop} [Decidable c] {p : Panic} {u : Unit} :
    panicIf c p = .ok u ↔ ¬ c := by
  unfold panicIf
  split <;> simp_all

/-- A sequence succeeds when its first part does and the rest does after it. -/
theorem bind_eq_ok {x : Except Stop α} {f : α → Except Stop β} {y : β} :
    (x >>= f) = .ok y ↔ ∃ a, x = .ok a ∧ f a = .ok y := by
  cases x <;> simp [Bind.bind, Except.bind]

theorem toOption_eq_some {x : Except Stop α} {a : α} : x.toOption = some a ↔ x = .ok a := by
  cases x <;> simp [Except.toOption]

/-- A loop succeeds when every round does. -/
theorem mapM_eq_ok {f : α → Except Stop β} {l : List α} {l' : List β}
    (h : l.mapM f = .ok l') : List.Forall₂ (fun a b => f a = .ok b) l l' := by
  induction l generalizing l' with
  | nil =>
    cases h
    exact .nil
  | cons a l ih =>
    rw [List.mapM_cons] at h
    obtain ⟨b, hb, h⟩ := bind_eq_ok.mp h
    obtain ⟨bs, hbs, h⟩ := bind_eq_ok.mp h
    cases h
    exact .cons hb (ih hbs)

/-- Every element of the second list is related to one of the first. -/
theorem exists_of_mem_right {R : α → β → Prop} {l : List α} {l' : List β}
    (h : List.Forall₂ R l l') {b : β} (hb : b ∈ l') : ∃ a ∈ l, R a b := by
  induction h with
  | nil => cases hb
  | cons hab _ ih =>
    rcases List.mem_cons.mp hb with rfl | hb
    · exact ⟨_, List.mem_cons_self, hab⟩
    · obtain ⟨a, ha, hR⟩ := ih hb
      exact ⟨a, List.mem_cons_of_mem _ ha, hR⟩

end Inversion

end Bitmarkd
