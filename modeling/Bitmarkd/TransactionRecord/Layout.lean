import Bitmarkd.TransactionRecord.Unpack

/-!
# The layout of packed records

`Pack` checks a record and its signatures and returns bytes. The bytes themselves depend on the
record alone: the tag, the fields in order, and the signatures, each with its length before it.
`Transaction.layout` is that byte string, and `Transaction.pack_eq_ok` says for all ten types at
once what a successful `Pack` has checked and that it returned the layout.
-/

namespace Bitmarkd

open Lib Util

/-! ## Parts of a record -/

/-- The bytes of an escrow. -/
def escrowBytes : Option Payment → Bytes
  | none => [0]
  | some payment => 1 :: (toVarint64 payment.currency.uint64 ++ packBytes payment.address ++
      toVarint64 payment.amount)

/-- The address of an escrow, if there is one. -/
def escrowAddresses : Option Payment → List (Currency × Bytes)
  | none => []
  | some payment => [(payment.currency, payment.address)]

/-- The bytes of a payment map: the currencies that have an address, in order. -/
def Currency.Map.bytes (m : Currency.Map) : Bytes :=
  [Currency.bitcoin, .litecoin].flatMap fun c =>
    let address := (m.get c).getD []
    if address = [] then [] else toVarint64 c.uint64 ++ packBytes address

namespace Transaction

/-- The tag of a record. -/
def tag : Transaction → Tag
  | .oldBaseData _ => .baseData
  | .assetData _ => .assetData
  | .bitmarkIssue _ => .bitmarkIssue
  | .bitmarkTransferUnratified _ => .bitmarkTransferUnratified
  | .bitmarkTransferCountersigned _ => .bitmarkTransferCountersigned
  | .blockFoundation _ => .blockFoundation
  | .blockOwnerTransfer _ => .blockOwnerTransfer
  | .bitmarkShare _ => .bitmarkShare
  | .shareGrant _ => .shareGrant
  | .shareSwap _ => .shareSwap

/-- The bytes of the fields between the tag and the first signature. -/
def fields : Transaction → Bytes
  | .oldBaseData tx => toVarint64 tx.currency.uint64 ++ packBytes tx.paymentAddress ++
      packBytes tx.owner.bytes ++ toVarint64 tx.nonce
  | .assetData tx => packBytes tx.name ++ packBytes tx.fingerprint ++ packBytes tx.metadata ++
      packBytes tx.registrant.bytes
  | .bitmarkIssue tx => packBytes tx.assetId.bytes ++ packBytes tx.owner.bytes ++
      toVarint64 tx.nonce
  | .bitmarkTransferUnratified tx => packBytes tx.link.bytes ++ escrowBytes tx.escrow ++
      packBytes tx.owner.bytes
  | .bitmarkTransferCountersigned tx => packBytes tx.link.bytes ++ escrowBytes tx.escrow ++
      packBytes tx.owner.bytes
  | .blockFoundation tx => toVarint64 tx.version ++ packBytes tx.payments.bytes ++
      packBytes tx.owner.bytes ++ toVarint64 tx.nonce
  | .blockOwnerTransfer tx => packBytes tx.link.bytes ++ escrowBytes tx.escrow ++
      toVarint64 tx.version ++ packBytes tx.payments.bytes ++ packBytes tx.owner.bytes
  | .bitmarkShare tx => packBytes tx.link.bytes ++ toVarint64 tx.quantity
  | .shareGrant tx => packBytes tx.shareId.bytes ++ toVarint64 tx.quantity ++
      packBytes tx.owner.account.bytes ++ packBytes tx.recipient.account.bytes ++
      toVarint64 tx.beforeBlock
  | .shareSwap tx => packBytes tx.shareIdOne.bytes ++ toVarint64 tx.quantityOne ++
      packBytes tx.ownerOne.account.bytes ++ packBytes tx.shareIdTwo.bytes ++
      toVarint64 tx.quantityTwo ++ packBytes tx.ownerTwo.account.bytes ++
      toVarint64 tx.beforeBlock

/-- The signatures, in order. -/
def signatures : Transaction → List Bytes
  | .oldBaseData tx => [tx.signature]
  | .assetData tx => [tx.signature]
  | .bitmarkIssue tx => [tx.signature]
  | .bitmarkTransferUnratified tx => [tx.signature]
  | .bitmarkTransferCountersigned tx => [tx.signature, tx.countersignature]
  | .blockFoundation tx => [tx.signature]
  | .blockOwnerTransfer tx => [tx.signature, tx.countersignature]
  | .bitmarkShare tx => [tx.signature]
  | .shareGrant tx => [tx.signature, tx.countersignature]
  | .shareSwap tx => [tx.signature, tx.countersignature]

/-- The bytes the first signature is over. -/
def message (tx : Transaction) : Bytes := createPacked tx.tag ++ tx.fields

/-- **The packed form of a record.** -/
def layout (tx : Transaction) : Bytes := tx.message ++ tx.signatures.flatMap packBytes

/-- The accounts in a record. -/
def accounts : Transaction → List Account
  | .oldBaseData tx => [tx.owner]
  | .assetData tx => [tx.registrant]
  | .bitmarkIssue tx => [tx.owner]
  | .bitmarkTransferUnratified tx => [tx.owner]
  | .bitmarkTransferCountersigned tx => [tx.owner]
  | .blockFoundation tx => [tx.owner]
  | .blockOwnerTransfer tx => [tx.owner]
  | .bitmarkShare _ => []
  | .shareGrant tx => [tx.owner.account, tx.recipient.account]
  | .shareSwap tx => [tx.ownerOne.account, tx.ownerTwo.account]

/-- The payment addresses of a record that are not in a payment map. -/
def addresses : Transaction → List (Currency × Bytes)
  | .oldBaseData tx => [(tx.currency, tx.paymentAddress)]
  | .bitmarkTransferUnratified tx => escrowAddresses tx.escrow
  | .bitmarkTransferCountersigned tx => escrowAddresses tx.escrow
  | .blockOwnerTransfer tx => escrowAddresses tx.escrow
  | .assetData _ | .bitmarkIssue _ | .blockFoundation _ | .bitmarkShare _ | .shareGrant _
  | .shareSwap _ => []

/-- The texts of an asset. -/
def texts : Transaction → List Bytes
  | .assetData tx => [tx.name, tx.fingerprint, tx.metadata]
  | _ => []

/-- The payment map of a block record. -/
def payments? : Transaction → Option Currency.Map
  | .blockFoundation tx => some tx.payments
  | .blockOwnerTransfer tx => some tx.payments
  | _ => none

/-- The field checks of a record. -/
def check (env : Env) (testnet : Bool) : Transaction → Except Stop Unit
  | .oldBaseData tx => tx.check
  | .assetData tx => tx.check
  | .bitmarkIssue tx => tx.check
  | .bitmarkTransferUnratified tx => tx.check
  | .bitmarkTransferCountersigned tx => tx.check
  | .blockFoundation tx => tx.check env testnet
  | .blockOwnerTransfer tx => tx.check env testnet
  | .bitmarkShare tx => tx.check
  | .shareGrant tx => tx.check
  | .shareSwap tx => tx.check

/-- `Pack`, called through the interface. -/
def pack (env : Env) (tx : Transaction) (signer : AccountPtr) : Except Stop Bytes :=
  match tx with
  | .oldBaseData tx => tx.pack env (some signer.account)
  | .assetData tx => tx.pack env (some signer.account)
  | .bitmarkIssue tx => tx.pack env (some signer.account)
  | .bitmarkTransferUnratified tx => tx.pack env (some signer.account)
  | .bitmarkTransferCountersigned tx => tx.pack env (some signer.account)
  | .blockFoundation tx => tx.pack env (some signer.account)
  | .blockOwnerTransfer tx => tx.pack env (some signer.account)
  | .bitmarkShare tx => tx.pack env (some signer.account)
  | .shareGrant tx => tx.pack env signer
  | .shareSwap tx => tx.pack env signer

/-- The account whose signature the first one is, when a record is packed with a signer: the share
records name it. -/
def signedBy (tx : Transaction) (signer : Account) : Account :=
  match tx with
  | .shareGrant tx => tx.owner.account
  | .shareSwap tx => tx.ownerOne.account
  | _ => signer

/-! ## What `Pack` has checked -/

/-- What a successful `Pack` has checked, and the bytes it returned. -/
structure PackedBy (env : Env) (tx : Transaction) (signer : Account) (packed : Bytes) : Prop where
  signer_ne_zero : signer.isZero = false
  check : tx.check env signer.isTesting = .ok ()
  addresses : ∀ a ∈ tx.addresses, a.1.validateAddress env a.2 signer.isTesting = .ok ()
  signatures : ∀ s ∈ tx.signatures, s.length = 64
  signed : ∃ s, tx.signatures.head? = some s ∧
    (tx.signedBy signer).checkSignature env tx.message s = .ok ()
  bytes : packed = tx.layout

end Transaction

theorem requireAddress_bind {α : Type} {account : Account} {f : Account → Except Stop α} {x : α}
    (h : (requireAddress (some account) >>= f) = .ok x) :
    account.isZero = false ∧ f account = .ok x := by
  obtain ⟨account', haddress, h⟩ := bind_eq_ok.mp h
  simp only [requireAddress] at haddress
  split_ifs at haddress with hz
  · simp at haddress
  · cases haddress
    exact ⟨by simpa using hz, h⟩

theorem packEscrow_eq_ok {env : Env} {escrow : Option Payment} {testnet : Bool} {packed : Bytes}
    (h : packEscrow env escrow testnet = .ok packed) :
    packed = escrowBytes escrow ∧
      ∀ a ∈ escrowAddresses escrow, a.1.validateAddress env a.2 testnet = .ok () := by
  cases escrow with
  | none =>
    cases h
    exact ⟨rfl, by simp [escrowAddresses]⟩
  | some payment =>
    obtain ⟨⟨⟩, hvalid, h⟩ := bind_eq_ok.mp h
    cases h
    exact ⟨rfl, by simpa [escrowAddresses] using hvalid⟩

/-- Packing a map that has been checked gives its bytes. -/
theorem Currency.Map.pack_of_check {env : Env} {version : UInt64} {testnet : Bool}
    {m : Currency.Map} {packed : Bytes} (hcheck : checkPayments env version testnet m = .ok ())
    (h : m.pack env testnet = .ok packed) : packed = m.bytes := by
  obtain ⟨b, l, rfl, hb, hl⟩ := checkPayments_eq_ok hcheck
  have hb' : b ≠ [] := by
    rintro rfl
    exact validateAddress_nil (by decide) hb
  have hl' : l ≠ [] := by
    rintro rfl
    exact validateAddress_nil (by decide) hl
  simp only [Currency.Map.pack, Currency.Map.packLoop, Currency.Map.get, Currency.Map.entries,
    Option.getD_some, hb, hl, hb', hl', if_false, bind, Except.bind, pure, Except.pure,
    List.filterMap_cons, List.filterMap_nil, Option.map_some, Option.map_none, List.length_cons,
    List.length_nil, ne_eq, not_true_eq_false, Except.ok.injEq] at h
  subst h
  simp [Currency.Map.bytes, Currency.Map.get, packBytes, hb', hl']

namespace Transaction

variable {env : Env} {signer : AccountPtr} {packed : Bytes}

/-- A record with one signature. -/
theorem PackedBy.ofSigned {tx : Transaction} {signer : Account} {signature message : Bytes}
    (hzero : signer.isZero = false) (hcheck : tx.check env signer.isTesting = .ok ())
    (haddresses : ∀ a ∈ tx.addresses, a.1.validateAddress env a.2 signer.isTesting = .ok ())
    (hsignatures : tx.signatures = [signature]) (hmessage : message = tx.message)
    (h : ((tx.signedBy signer).checkSignature env message signature >>= fun _ =>
      (pure (message ++ packBytes signature) : Except Stop Bytes)) = .ok packed) :
    PackedBy env tx signer packed := by
  obtain ⟨⟨⟩, hsigned, h⟩ := bind_eq_ok.mp h
  cases h
  subst hmessage
  refine ⟨hzero, hcheck, haddresses, ?_, ⟨signature, by rw [hsignatures]; rfl, hsigned⟩, ?_⟩
  · simpa [hsignatures] using Account.length_of_checkSignature hsigned
  · simp [layout, hsignatures]

/-- A record with two signatures. -/
theorem PackedBy.ofCountersigned {tx : Transaction} {signer second : Account}
    {signature countersignature message : Bytes} (hzero : signer.isZero = false)
    (hcheck : tx.check env signer.isTesting = .ok ())
    (haddresses : ∀ a ∈ tx.addresses, a.1.validateAddress env a.2 signer.isTesting = .ok ())
    (hsignatures : tx.signatures = [signature, countersignature]) (hmessage : message = tx.message)
    (h : ((tx.signedBy signer).checkSignature env message signature >>= fun _ =>
      second.checkSignature env (message ++ packBytes signature) countersignature >>= fun _ =>
        (pure (message ++ packBytes signature ++ packBytes countersignature) :
          Except Stop Bytes)) = .ok packed) : PackedBy env tx signer packed := by
  obtain ⟨⟨⟩, hsigned, h⟩ := bind_eq_ok.mp h
  obtain ⟨⟨⟩, hsecond, h⟩ := bind_eq_ok.mp h
  cases h
  subst hmessage
  refine ⟨hzero, hcheck, haddresses, ?_, ⟨signature, by rw [hsignatures]; rfl, hsigned⟩, ?_⟩
  · simpa [hsignatures] using And.intro (Account.length_of_checkSignature hsigned)
      (Account.length_of_checkSignature hsecond)
  · simp [layout, hsignatures]

/-- **A successful `Pack`** has checked the record, its addresses and its signatures, and returns
the layout of the record. -/
theorem pack_eq_ok {tx : Transaction} (h : tx.pack env signer = .ok packed) :
    PackedBy env tx signer.account packed := by
  cases tx with
  | oldBaseData tx =>
    obtain ⟨hz, h⟩ := requireAddress_bind h
    obtain ⟨⟨⟩, hcheck, h⟩ := bind_eq_ok.mp h
    obtain ⟨⟨⟩, hvalid, h⟩ := bind_eq_ok.mp h
    exact .ofSigned hz hcheck (by simpa [addresses] using hvalid) rfl
      (by simp [message, fields, tag]) h
  | assetData tx =>
    obtain ⟨hz, h⟩ := requireAddress_bind h
    obtain ⟨⟨⟩, hcheck, h⟩ := bind_eq_ok.mp h
    exact .ofSigned hz hcheck (by simp [addresses]) rfl (by simp [message, fields, tag]) h
  | bitmarkIssue tx =>
    obtain ⟨hz, h⟩ := requireAddress_bind h
    obtain ⟨⟨⟩, hcheck, h⟩ := bind_eq_ok.mp h
    exact .ofSigned hz hcheck (by simp [addresses]) rfl (by simp [message, fields, tag]) h
  | bitmarkTransferUnratified tx =>
    obtain ⟨hz, h⟩ := requireAddress_bind h
    obtain ⟨⟨⟩, hcheck, h⟩ := bind_eq_ok.mp h
    obtain ⟨escrow, hescrow, h⟩ := bind_eq_ok.mp h
    obtain ⟨rfl, hvalid⟩ := packEscrow_eq_ok hescrow
    exact .ofSigned hz hcheck hvalid rfl (by simp [message, fields, tag]) h
  | bitmarkTransferCountersigned tx =>
    obtain ⟨hz, h⟩ := requireAddress_bind h
    obtain ⟨⟨⟩, hcheck, h⟩ := bind_eq_ok.mp h
    obtain ⟨escrow, hescrow, h⟩ := bind_eq_ok.mp h
    obtain ⟨rfl, hvalid⟩ := packEscrow_eq_ok hescrow
    exact .ofCountersigned hz hcheck hvalid rfl (by simp [message, fields, tag]) h
  | blockFoundation tx =>
    obtain ⟨hz, h⟩ := requireAddress_bind h
    obtain ⟨⟨⟩, hcheck, h⟩ := bind_eq_ok.mp h
    obtain ⟨payments, hpayments, h⟩ := bind_eq_ok.mp h
    obtain rfl := Currency.Map.pack_of_check (BlockFoundation.payments_of_check hcheck) hpayments
    exact .ofSigned hz hcheck (by simp [addresses]) rfl (by simp [message, fields, tag]) h
  | blockOwnerTransfer tx =>
    obtain ⟨hz, h⟩ := requireAddress_bind h
    obtain ⟨⟨⟩, hcheck, h⟩ := bind_eq_ok.mp h
    obtain ⟨payments, hpayments, h⟩ := bind_eq_ok.mp h
    obtain ⟨escrow, hescrow, h⟩ := bind_eq_ok.mp h
    obtain ⟨rfl, hvalid⟩ := packEscrow_eq_ok hescrow
    obtain rfl := Currency.Map.pack_of_check (BlockOwnerTransfer.payments_of_check hcheck) hpayments
    exact .ofCountersigned hz hcheck hvalid rfl (by simp [message, fields, tag]) h
  | bitmarkShare tx =>
    obtain ⟨hz, h⟩ := requireAddress_bind h
    obtain ⟨⟨⟩, hcheck, h⟩ := bind_eq_ok.mp h
    exact .ofSigned hz hcheck (by simp [addresses]) rfl (by simp [message, fields, tag]) h
  | shareGrant tx =>
    obtain ⟨hz, h⟩ := requireAddress_bind h
    obtain ⟨⟨⟩, -, h⟩ := bind_eq_ok.mp h
    obtain ⟨⟨⟩, hcheck, h⟩ := bind_eq_ok.mp h
    exact .ofCountersigned hz hcheck (by simp [addresses]) rfl (by simp [message, fields, tag]) h
  | shareSwap tx =>
    obtain ⟨hz, h⟩ := requireAddress_bind h
    obtain ⟨⟨⟩, -, h⟩ := bind_eq_ok.mp h
    obtain ⟨⟨⟩, hcheck, h⟩ := bind_eq_ok.mp h
    exact .ofCountersigned hz hcheck (by simp [addresses]) rfl (by simp [message, fields, tag]) h

end Transaction

end Bitmarkd
