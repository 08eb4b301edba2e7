import Bitmarkd.Currency

/-!
# Transaction records

The ten record types of `transactionrecord/transaction.go`, their field checks, and their packed
forms (`transactionrecord/pack.go`). A packed record is its tag and fields in order with the
signatures last; packing checks the signatures over the bytes before them.

Accounts in records are pointers in the source. Only the two-party share records compare them as
pointers, so only those keep the address (`AccountPtr`). A `nil` account can reach `Pack` as the
signing address only.
-/

namespace Bitmarkd

open Lib Util

/-! ## The record types -/

/-- `Payment`: an optional escrow payment. -/
structure Payment where
  currency : Currency
  address : Bytes
  amount : UInt64
deriving DecidableEq

structure OldBaseData where
  currency : Currency
  paymentAddress : Bytes
  owner : Account
  nonce : UInt64
  signature : Bytes
deriving DecidableEq

structure AssetData where
  name : Bytes
  fingerprint : Bytes
  metadata : Bytes
  registrant : Account
  signature : Bytes
deriving DecidableEq

structure BitmarkIssue where
  assetId : AssetIdentifier
  owner : Account
  nonce : UInt64
  signature : Bytes
deriving DecidableEq

structure BitmarkTransferUnratified where
  link : Digest
  escrow : Option Payment
  owner : Account
  signature : Bytes
deriving DecidableEq

structure BitmarkTransferCountersigned where
  link : Digest
  escrow : Option Payment
  owner : Account
  signature : Bytes
  countersignature : Bytes
deriving DecidableEq

structure BlockFoundation where
  version : UInt64
  payments : Currency.Map
  owner : Account
  nonce : UInt64
  signature : Bytes
deriving DecidableEq

structure BlockOwnerTransfer where
  link : Digest
  escrow : Option Payment
  version : UInt64
  payments : Currency.Map
  owner : Account
  signature : Bytes
  countersignature : Bytes
deriving DecidableEq

structure BitmarkShare where
  link : Digest
  quantity : UInt64
  signature : Bytes
deriving DecidableEq

structure ShareGrant where
  shareId : Digest
  quantity : UInt64
  owner : AccountPtr
  recipient : AccountPtr
  beforeBlock : UInt64
  signature : Bytes
  countersignature : Bytes
deriving DecidableEq

structure ShareSwap where
  shareIdOne : Digest
  quantityOne : UInt64
  ownerOne : AccountPtr
  shareIdTwo : Digest
  quantityTwo : UInt64
  ownerTwo : AccountPtr
  beforeBlock : UInt64
  signature : Bytes
  countersignature : Bytes
deriving DecidableEq

/-- `Transaction`: the interface over the ten record types. -/
inductive Transaction
  | oldBaseData (tx : OldBaseData)
  | assetData (tx : AssetData)
  | bitmarkIssue (tx : BitmarkIssue)
  | bitmarkTransferUnratified (tx : BitmarkTransferUnratified)
  | bitmarkTransferCountersigned (tx : BitmarkTransferCountersigned)
  | blockFoundation (tx : BlockFoundation)
  | blockOwnerTransfer (tx : BlockOwnerTransfer)
  | bitmarkShare (tx : BitmarkShare)
  | shareGrant (tx : ShareGrant)
  | shareSwap (tx : ShareSwap)
deriving DecidableEq

/-- The last signature of a record. -/
def Transaction.lastSignature : Transaction → Bytes
  | .oldBaseData tx => tx.signature
  | .assetData tx => tx.signature
  | .bitmarkIssue tx => tx.signature
  | .bitmarkTransferUnratified tx => tx.signature
  | .bitmarkTransferCountersigned tx => tx.countersignature
  | .blockFoundation tx => tx.signature
  | .blockOwnerTransfer tx => tx.countersignature
  | .bitmarkShare tx => tx.signature
  | .shareGrant tx => tx.countersignature
  | .shareSwap tx => tx.countersignature

/-- `AssetId`: the hash of the fingerprint. -/
def AssetData.assetId (env : Env) (tx : AssetData) : AssetIdentifier :=
  env.sha3Sum512 tx.fingerprint

/-! ## Field checks -/

def maxNameLength : Nat := 64
def maxMetadataLength : Nat := 2048
def minFingerprintLength : Nat := 1
def maxFingerprintLength : Nat := 1024
def maxSignatureLength : Nat := 1024

/-- `versions`: the currency set each payment version requires. -/
def paymentVersions : List Currency.Set :=
  [Currency.makeSet [], Currency.makeSet [.bitcoin, .litecoin]]

/-- The loop of `CheckPayments` over the entries of the map. -/
def checkPaymentsLoop (env : Env) (testnet : Bool) :
    List (Currency × Bytes) → Currency.Set → Except Stop Currency.Set
  | [], cs => .ok cs
  | (currency, address) :: rest, cs => do
    currency.validateAddress env address testnet
    let (cs, present) := cs.add currency
    failIf present .invalidCurrencyAddress
    checkPaymentsLoop env testnet rest cs

/-- `CheckPayments`: all addresses are valid and the version's currencies are all there. -/
def checkPayments (env : Env) (version : UInt64) (testnet : Bool) (payments : Currency.Map) :
    Except Stop Unit :=
  match paymentVersions[version.toNat]? with
  | none => fault .invalidPaymentVersion
  | some required => do
    failIf (version < 1) .invalidPaymentVersion
    let cs ← checkPaymentsLoop env testnet payments.entries Currency.Set.empty
    if required ≠ cs then fault .invalidCurrencyAddress else .ok ()

/-- An empty address is no address of a real currency. -/
theorem validateAddress_nil {env : Env} {c : Currency} {testnet : Bool} (hc : c ≠ .nothing) :
    c.validateAddress env [] testnet ≠ .ok () := by
  have hlen : (Util.fromBase58 []).length ≠ 25 := by decide
  cases c with
  | nothing => exact absurd rfl hc
  | bitcoin =>
    simp [Currency.validateAddress, runeCountInString, runeCountLoop, Bitcoin.validateAddress, hlen,
      bind_eq_ok]
  | litecoin =>
    simp [Currency.validateAddress, runeCountInString, runeCountLoop, Litecoin.validateAddress,
      hlen,
      bind_eq_ok]

/-- The loop has checked every address, and collected the currencies. -/
theorem checkPaymentsLoop_eq_ok {env : Env} {testnet : Bool} {entries : List (Currency × Bytes)}
    {cs cs' : Currency.Set} (h : checkPaymentsLoop env testnet entries cs = .ok cs') :
    (∀ e ∈ entries, e.1.validateAddress env e.2 testnet = .ok ()) ∧
      cs' = (entries.map Prod.fst).foldl (fun s c => (s.add c).1) cs := by
  induction entries generalizing cs with
  | nil =>
    cases h
    simp
  | cons e rest ih =>
    obtain ⟨⟨⟩, hvalid, h⟩ := bind_eq_ok.mp h
    obtain ⟨⟨⟩, -, h⟩ := bind_eq_ok.mp h
    obtain ⟨hrest, hcs⟩ := ih h
    exact ⟨List.forall_mem_cons.mpr ⟨hvalid, hrest⟩, hcs⟩

/-- The only payment version there is requires both currencies. -/
theorem paymentVersions_eq_some {version : UInt64} {required : Currency.Set} :
    paymentVersions[version.toNat]? = some required ∧ ¬ version < 1 ↔
      version = 1 ∧ required = Currency.makeSet [.bitcoin, .litecoin] := by
  have h1 : (1 : UInt64).toNat = 1 := rfl
  rw [UInt64.not_lt, UInt64.le_iff_toNat_le, ← UInt64.toNat_inj, h1]
  match version.toNat with
  | 0 => simp
  | 1 => simp [paymentVersions, eq_comm]
  | n + 2 => simp [paymentVersions]

/-- Checked payments are a bitcoin and a litecoin address. -/
theorem checkPayments_eq_ok {env : Env} {version : UInt64} {testnet : Bool} {m : Currency.Map}
    (h : checkPayments env version testnet m = .ok ()) :
    ∃ b l, m = ⟨none, some b, some l⟩ ∧ Currency.bitcoin.validateAddress env b testnet = .ok () ∧
      Currency.litecoin.validateAddress env l testnet = .ok () := by
  have hversion : ∃ cs, checkPaymentsLoop env testnet m.entries Currency.Set.empty = .ok cs ∧
      Currency.makeSet [.bitcoin, .litecoin] = cs := by
    unfold checkPayments at h
    split at h
    · simp at h
    next required hrequired =>
      obtain ⟨⟨⟩, hone, h⟩ := bind_eq_ok.mp h
      obtain ⟨cs, hcs, h⟩ := bind_eq_ok.mp h
      obtain ⟨-, rfl⟩ := paymentVersions_eq_some.mp ⟨hrequired, failIf_eq_ok.mp hone⟩
      refine ⟨cs, hcs, ?_⟩
      by_contra hc
      rw [if_pos hc] at h
      simp at h
  obtain ⟨cs, hloop, rfl⟩ := hversion
  obtain ⟨hvalid, hset⟩ := checkPaymentsLoop_eq_ok hloop
  obtain ⟨nothing, bitcoin, litecoin⟩ := m
  cases nothing <;> cases bitcoin <;> cases litecoin <;>
    simp only [Currency.Map.entries, Currency.Map.get, List.filterMap_cons, List.filterMap_nil,
      Option.map_some, Option.map_none, List.map_cons, List.map_nil] at hset
  case none.some.some b l =>
    exact ⟨b, l, rfl, hvalid (.bitcoin, b) (by simp [Currency.Map.entries, Currency.Map.get]),
      hvalid (.litecoin, l) (by simp [Currency.Map.entries, Currency.Map.get])⟩
  all_goals exact absurd hset (by decide)

/-- The length check that every record makes of each of its signatures. -/
def checkSignatureLength (signature : Bytes) : Except Stop Unit :=
  if signature.length > maxSignatureLength then fault .signatureTooLong else .ok ()

/-- The check that an account is not the zero key. -/
def checkNotZero (account : Account) : Except Stop Unit :=
  if account.isZero then fault .invalidOwnerOrRegistrant else .ok ()

def OldBaseData.check (tx : OldBaseData) : Except Stop Unit := do
  checkSignatureLength tx.signature
  checkNotZero tx.owner

/-- The metadata is empty, or an even number of non-empty parts separated by NUL. -/
def checkMetadata (metadata : Bytes) : Except Stop Unit :=
  if metadata = [] then .ok ()
  else
    let splitMetadata := metadata.splitOn 0
    if splitMetadata.length % 2 = 1 then fault .metadataIsNotMap
    else if splitMetadata.any (· == []) then fault .metadataIsNotMap
    else .ok ()

def AssetData.check (tx : AssetData) : Except Stop Unit := do
  checkSignatureLength tx.signature
  checkNotZero tx.registrant
  failIf (runeCountInString tx.name > maxNameLength) .nameTooLong
  failIf (runeCountInString tx.fingerprint < minFingerprintLength) .fingerprintTooShort
  failIf (runeCountInString tx.fingerprint > maxFingerprintLength) .fingerprintTooLong
  failIf (runeCountInString tx.metadata > maxMetadataLength) .metadataTooLong
  checkMetadata tx.metadata

def BitmarkIssue.check (tx : BitmarkIssue) : Except Stop Unit := do
  checkSignatureLength tx.signature
  checkNotZero tx.owner

/-- The owner may be the zero key here: the bitmark is destroyed. -/
def BitmarkTransferUnratified.check (tx : BitmarkTransferUnratified) : Except Stop Unit :=
  checkSignatureLength tx.signature

def BitmarkTransferCountersigned.check (tx : BitmarkTransferCountersigned) :
    Except Stop Unit := do
  checkSignatureLength tx.signature
  checkSignatureLength tx.countersignature
  checkNotZero tx.owner

def BlockFoundation.check (env : Env) (tx : BlockFoundation) (testnet : Bool) :
    Except Stop Unit := do
  checkSignatureLength tx.signature
  checkNotZero tx.owner
  checkPayments env tx.version testnet tx.payments

def BlockOwnerTransfer.check (env : Env) (tx : BlockOwnerTransfer) (testnet : Bool) :
    Except Stop Unit := do
  checkSignatureLength tx.signature
  checkSignatureLength tx.countersignature
  checkNotZero tx.owner
  checkPayments env tx.version testnet tx.payments

def BitmarkShare.check (tx : BitmarkShare) : Except Stop Unit := do
  checkSignatureLength tx.signature
  if tx.quantity < 1 then fault .shareQuantityTooSmall else .ok ()

/-- The two parties are compared as pointers, as in the source. -/
def ShareGrant.check (tx : ShareGrant) : Except Stop Unit := do
  checkSignatureLength tx.signature
  checkSignatureLength tx.countersignature
  checkNotZero tx.owner.account
  checkNotZero tx.recipient.account
  failIf (tx.owner.addr = tx.recipient.addr) .invalidOwnerOrRegistrant
  if tx.quantity < 1 then fault .shareQuantityTooSmall else .ok ()

/-- The two parties are compared as pointers, as in the source. -/
def ShareSwap.check (tx : ShareSwap) : Except Stop Unit := do
  checkSignatureLength tx.signature
  checkSignatureLength tx.countersignature
  checkNotZero tx.ownerOne.account
  checkNotZero tx.ownerTwo.account
  failIf (tx.ownerOne.addr = tx.ownerTwo.addr) .invalidOwnerOrRegistrant
  failIf (tx.shareIdOne = tx.shareIdTwo) .shareIdsCannotBeIdentical
  if tx.quantityOne < 1 ∨ tx.quantityTwo < 1 then fault .shareQuantityTooSmall else .ok ()

theorem BlockFoundation.payments_of_check {env : Env} {tx : BlockFoundation} {testnet : Bool}
    (h : tx.check env testnet = .ok ()) :
    checkPayments env tx.version testnet tx.payments = .ok () := by
  obtain ⟨⟨⟩, -, h⟩ := bind_eq_ok.mp h
  obtain ⟨⟨⟩, -, h⟩ := bind_eq_ok.mp h
  exact h

theorem BlockOwnerTransfer.payments_of_check {env : Env} {tx : BlockOwnerTransfer} {testnet : Bool}
    (h : tx.check env testnet = .ok ()) :
    checkPayments env tx.version testnet tx.payments = .ok () := by
  obtain ⟨⟨⟩, -, h⟩ := bind_eq_ok.mp h
  obtain ⟨⟨⟩, -, h⟩ := bind_eq_ok.mp h
  obtain ⟨⟨⟩, -, h⟩ := bind_eq_ok.mp h
  exact h

/-! ## Packing -/

/-- The tags of `TagType`, from `BaseDataTag` on. -/
inductive Tag
  | baseData
  | assetData
  | bitmarkIssue
  | bitmarkTransferUnratified
  | bitmarkTransferCountersigned
  | blockFoundation
  | blockOwnerTransfer
  | bitmarkShare
  | shareGrant
  | shareSwap
deriving DecidableEq, Repr

/-- The number of a tag. -/
def Tag.value : Tag → UInt64
  | .baseData => 1
  | .assetData => 2
  | .bitmarkIssue => 3
  | .bitmarkTransferUnratified => 4
  | .bitmarkTransferCountersigned => 5
  | .blockFoundation => 6
  | .blockOwnerTransfer => 7
  | .bitmarkShare => 8
  | .shareGrant => 9
  | .shareSwap => 10

/-- `createPacked`. -/
def createPacked (tag : Tag) : Bytes := toVarint64 tag.value

/-- `appendBytes`, `appendString` and `appendAccount`: a field with its length before it. -/
def packBytes (data : Bytes) : Bytes := toVarint64 (UInt64.ofNat data.length) ++ data

/-- `appendEscrow`. -/
def packEscrow (env : Env) (escrow : Option Payment) (testnet : Bool) : Except Stop Bytes :=
  match escrow with
  | none => .ok [0]
  | some payment => do
    payment.currency.validateAddress env payment.address testnet
    return 1 :: (toVarint64 payment.currency.uint64 ++ packBytes payment.address ++
      toVarint64 payment.amount)

/-- The signing address must be there and not be zero. -/
def requireAddress (address : Option Account) : Except Stop Account :=
  match address with
  | none => fault .invalidOwnerOrRegistrant
  | some account => if account.isZero then fault .invalidOwnerOrRegistrant else .ok account

def OldBaseData.pack (env : Env) (tx : OldBaseData) (address : Option Account) :
    Except Stop Bytes := do
  let address ← requireAddress address
  tx.check
  tx.currency.validateAddress env tx.paymentAddress address.isTesting
  let message := createPacked .baseData ++ toVarint64 tx.currency.uint64 ++
    packBytes tx.paymentAddress ++ packBytes tx.owner.bytes ++ toVarint64 tx.nonce
  address.checkSignature env message tx.signature
  return message ++ packBytes tx.signature

def AssetData.pack (env : Env) (tx : AssetData) (address : Option Account) :
    Except Stop Bytes := do
  let address ← requireAddress address
  tx.check
  let message := createPacked .assetData ++ packBytes tx.name ++ packBytes tx.fingerprint ++
    packBytes tx.metadata ++ packBytes tx.registrant.bytes
  address.checkSignature env message tx.signature
  return message ++ packBytes tx.signature

def BitmarkIssue.pack (env : Env) (tx : BitmarkIssue) (address : Option Account) :
    Except Stop Bytes := do
  let address ← requireAddress address
  tx.check
  let message := createPacked .bitmarkIssue ++ packBytes tx.assetId.bytes ++
    packBytes tx.owner.bytes ++ toVarint64 tx.nonce
  address.checkSignature env message tx.signature
  return message ++ packBytes tx.signature

def BitmarkTransferUnratified.pack (env : Env) (tx : BitmarkTransferUnratified)
    (address : Option Account) : Except Stop Bytes := do
  let address ← requireAddress address
  tx.check
  let escrow ← packEscrow env tx.escrow address.isTesting
  let message := createPacked .bitmarkTransferUnratified ++ packBytes tx.link.bytes ++ escrow ++
    packBytes tx.owner.bytes
  address.checkSignature env message tx.signature
  return message ++ packBytes tx.signature

def BitmarkTransferCountersigned.pack (env : Env) (tx : BitmarkTransferCountersigned)
    (address : Option Account) : Except Stop Bytes := do
  let address ← requireAddress address
  tx.check
  let escrow ← packEscrow env tx.escrow address.isTesting
  let message := createPacked .bitmarkTransferCountersigned ++ packBytes tx.link.bytes ++
    escrow ++ packBytes tx.owner.bytes
  address.checkSignature env message tx.signature
  let message := message ++ packBytes tx.signature
  tx.owner.checkSignature env message tx.countersignature
  return message ++ packBytes tx.countersignature

def BlockFoundation.pack (env : Env) (tx : BlockFoundation) (address : Option Account) :
    Except Stop Bytes := do
  let address ← requireAddress address
  tx.check env address.isTesting
  let packedPayments ← tx.payments.pack env address.isTesting
  let message := createPacked .blockFoundation ++ toVarint64 tx.version ++
    packBytes packedPayments ++ packBytes tx.owner.bytes ++ toVarint64 tx.nonce
  address.checkSignature env message tx.signature
  return message ++ packBytes tx.signature

def BlockOwnerTransfer.pack (env : Env) (tx : BlockOwnerTransfer) (address : Option Account) :
    Except Stop Bytes := do
  let address ← requireAddress address
  tx.check env address.isTesting
  let packedPayments ← tx.payments.pack env address.isTesting
  let escrow ← packEscrow env tx.escrow address.isTesting
  let message := createPacked .blockOwnerTransfer ++ packBytes tx.link.bytes ++ escrow ++
    toVarint64 tx.version ++ packBytes packedPayments ++ packBytes tx.owner.bytes
  address.checkSignature env message tx.signature
  let message := message ++ packBytes tx.signature
  tx.owner.checkSignature env message tx.countersignature
  return message ++ packBytes tx.countersignature

def BitmarkShare.pack (env : Env) (tx : BitmarkShare) (address : Option Account) :
    Except Stop Bytes := do
  let address ← requireAddress address
  tx.check
  let message := createPacked .bitmarkShare ++ packBytes tx.link.bytes ++ toVarint64 tx.quantity
  address.checkSignature env message tx.signature
  return message ++ packBytes tx.signature

/-- The address must be the pointer to the record's owner. -/
def ShareGrant.pack (env : Env) (tx : ShareGrant) (address : AccountPtr) :
    Except Stop Bytes := do
  let _ ← requireAddress (some address.account)
  failIf (address.addr ≠ tx.owner.addr) .invalidOwnerOrRegistrant
  tx.check
  let message := createPacked .shareGrant ++ packBytes tx.shareId.bytes ++
    toVarint64 tx.quantity ++ packBytes tx.owner.account.bytes ++
    packBytes tx.recipient.account.bytes ++ toVarint64 tx.beforeBlock
  tx.owner.account.checkSignature env message tx.signature
  let message := message ++ packBytes tx.signature
  tx.recipient.account.checkSignature env message tx.countersignature
  return message ++ packBytes tx.countersignature

/-- The address must be the pointer to the record's first owner. -/
def ShareSwap.pack (env : Env) (tx : ShareSwap) (address : AccountPtr) : Except Stop Bytes := do
  let _ ← requireAddress (some address.account)
  failIf (address.addr ≠ tx.ownerOne.addr) .invalidOwnerOrRegistrant
  tx.check
  let message := createPacked .shareSwap ++ packBytes tx.shareIdOne.bytes ++
    toVarint64 tx.quantityOne ++ packBytes tx.ownerOne.account.bytes ++
    packBytes tx.shareIdTwo.bytes ++ toVarint64 tx.quantityTwo ++
    packBytes tx.ownerTwo.account.bytes ++ toVarint64 tx.beforeBlock
  tx.ownerOne.account.checkSignature env message tx.signature
  let message := message ++ packBytes tx.signature
  tx.ownerTwo.account.checkSignature env message tx.countersignature
  return message ++ packBytes tx.countersignature

/-! ## What a packed record has been checked for -/

section Packed

variable {env : Env} {packed : Bytes}

/-- The last step of every `Pack`: a signature is checked and appended. -/
theorem length_of_signed {account : Account} {message signature : Bytes} {k : Except Stop Bytes}
    (h : (account.checkSignature env message signature >>= fun _ => k) = .ok packed) :
    signature.length = 64 := by
  obtain ⟨⟨⟩, hcheck, -⟩ := bind_eq_ok.mp h
  exact Account.length_of_checkSignature hcheck

theorem OldBaseData.signature_of_pack {tx : OldBaseData} {address : Option Account}
    (h : tx.pack env address = .ok packed) : tx.signature.length = 64 := by
  obtain ⟨_, -, h⟩ := bind_eq_ok.mp h
  obtain ⟨_, -, h⟩ := bind_eq_ok.mp h
  obtain ⟨_, -, h⟩ := bind_eq_ok.mp h
  exact length_of_signed h

theorem AssetData.signature_of_pack {tx : AssetData} {address : Option Account}
    (h : tx.pack env address = .ok packed) : tx.signature.length = 64 := by
  obtain ⟨_, -, h⟩ := bind_eq_ok.mp h
  obtain ⟨_, -, h⟩ := bind_eq_ok.mp h
  exact length_of_signed h

theorem BitmarkIssue.signature_of_pack {tx : BitmarkIssue} {address : Option Account}
    (h : tx.pack env address = .ok packed) : tx.signature.length = 64 := by
  obtain ⟨_, -, h⟩ := bind_eq_ok.mp h
  obtain ⟨_, -, h⟩ := bind_eq_ok.mp h
  exact length_of_signed h

theorem BitmarkTransferUnratified.signature_of_pack {tx : BitmarkTransferUnratified}
    {address : Option Account} (h : tx.pack env address = .ok packed) :
    tx.signature.length = 64 := by
  obtain ⟨_, -, h⟩ := bind_eq_ok.mp h
  obtain ⟨_, -, h⟩ := bind_eq_ok.mp h
  obtain ⟨_, -, h⟩ := bind_eq_ok.mp h
  exact length_of_signed h

theorem BitmarkTransferCountersigned.signature_of_pack {tx : BitmarkTransferCountersigned}
    {address : Option Account} (h : tx.pack env address = .ok packed) :
    tx.countersignature.length = 64 := by
  obtain ⟨_, -, h⟩ := bind_eq_ok.mp h
  obtain ⟨_, -, h⟩ := bind_eq_ok.mp h
  obtain ⟨_, -, h⟩ := bind_eq_ok.mp h
  obtain ⟨_, -, h⟩ := bind_eq_ok.mp h
  exact length_of_signed h

theorem BlockFoundation.signature_of_pack {tx : BlockFoundation} {address : Option Account}
    (h : tx.pack env address = .ok packed) : tx.signature.length = 64 := by
  obtain ⟨_, -, h⟩ := bind_eq_ok.mp h
  obtain ⟨_, -, h⟩ := bind_eq_ok.mp h
  obtain ⟨_, -, h⟩ := bind_eq_ok.mp h
  exact length_of_signed h

theorem BlockOwnerTransfer.signature_of_pack {tx : BlockOwnerTransfer} {address : Option Account}
    (h : tx.pack env address = .ok packed) : tx.countersignature.length = 64 := by
  obtain ⟨_, -, h⟩ := bind_eq_ok.mp h
  obtain ⟨_, -, h⟩ := bind_eq_ok.mp h
  obtain ⟨_, -, h⟩ := bind_eq_ok.mp h
  obtain ⟨_, -, h⟩ := bind_eq_ok.mp h
  obtain ⟨_, -, h⟩ := bind_eq_ok.mp h
  exact length_of_signed h

theorem BitmarkShare.signature_of_pack {tx : BitmarkShare} {address : Option Account}
    (h : tx.pack env address = .ok packed) : tx.signature.length = 64 := by
  obtain ⟨_, -, h⟩ := bind_eq_ok.mp h
  obtain ⟨_, -, h⟩ := bind_eq_ok.mp h
  exact length_of_signed h

theorem BitmarkShare.quantity_of_pack {tx : BitmarkShare} {address : Option Account}
    (h : tx.pack env address = .ok packed) : tx.quantity ≠ 0 := by
  obtain ⟨_, -, h⟩ := bind_eq_ok.mp h
  obtain ⟨_, hcheck, -⟩ := bind_eq_ok.mp h
  obtain ⟨_, -, hcheck⟩ := bind_eq_ok.mp hcheck
  rintro hzero
  simp [hzero] at hcheck

theorem ShareGrant.signature_of_pack {tx : ShareGrant} {address : AccountPtr}
    (h : tx.pack env address = .ok packed) : tx.countersignature.length = 64 := by
  obtain ⟨_, -, h⟩ := bind_eq_ok.mp h
  obtain ⟨_, -, h⟩ := bind_eq_ok.mp h
  obtain ⟨_, -, h⟩ := bind_eq_ok.mp h
  obtain ⟨_, -, h⟩ := bind_eq_ok.mp h
  exact length_of_signed h

theorem ShareSwap.signature_of_pack {tx : ShareSwap} {address : AccountPtr}
    (h : tx.pack env address = .ok packed) : tx.countersignature.length = 64 := by
  obtain ⟨_, -, h⟩ := bind_eq_ok.mp h
  obtain ⟨_, -, h⟩ := bind_eq_ok.mp h
  obtain ⟨_, -, h⟩ := bind_eq_ok.mp h
  obtain ⟨_, -, h⟩ := bind_eq_ok.mp h
  exact length_of_signed h

end Packed

end Bitmarkd
