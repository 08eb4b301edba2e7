import Bitmarkd.Account
import Bitmarkd.Returns
import Bitmarkd.Util.Base58

/-!
# Currencies and payment maps

Packages `currency`, `currency/bitcoin` and `currency/litecoin`: the enumeration, the address
checks, sets of currencies, and the map from a currency to a payment address with its packed form.
Addresses are Go strings, that is byte strings.
-/

namespace Bitmarkd

open Lib Util

/-! ## Runes -/

/-- The length and second-byte range of a multi-byte rune with this first byte, as in the tables
of `unicode/utf8`; `none` for a byte that is a rune (or an error) of its own. -/
def runeLead (c : UInt8) : Option (Nat × UInt8 × UInt8) :=
  if 0xc2 ≤ c ∧ c ≤ 0xdf then some (2, 0x80, 0xbf)
  else if c = 0xe0 then some (3, 0xa0, 0xbf)
  else if c = 0xed then some (3, 0x80, 0x9f)
  else if 0xe1 ≤ c ∧ c ≤ 0xef then some (3, 0x80, 0xbf)
  else if c = 0xf0 then some (4, 0x90, 0xbf)
  else if 0xf1 ≤ c ∧ c ≤ 0xf3 then some (4, 0x80, 0xbf)
  else if c = 0xf4 then some (4, 0x80, 0x8f)
  else none

/-- The number of bytes of the first rune; an invalid encoding is one byte long. -/
def runeSize (s : Bytes) : Nat :=
  match s with
  | [] => 1
  | c :: rest =>
    match runeLead c with
    | none => 1
    | some (size, lo, hi) =>
      match rest.take (size - 1) with
      | [] => 1
      | second :: more =>
        if more.length + 2 = size ∧ lo ≤ second ∧ second ≤ hi ∧
            more.all (fun b => 0x80 ≤ b ∧ b ≤ 0xbf) then size
        else 1

/-- The loop of `runeCountInString`, with at most `fuel` runes to go. -/
def runeCountLoop : Nat → Bytes → Nat
  | 0, _ => 0
  | fuel + 1, s =>
    match s with
    | [] => 0
    | c :: rest => 1 + runeCountLoop fuel ((c :: rest).drop (runeSize (c :: rest)))

/-- `utf8.RuneCountInString`. -/
def runeCountInString (s : Bytes) : Nat := runeCountLoop s.length s

theorem runeSize_bounds (s : Bytes) : 1 ≤ runeSize s ∧ runeSize s ≤ 4 := by
  unfold runeSize
  split
  · decide
  · split
    · decide
    next size lo hi hlead =>
      have hsize : 1 ≤ size ∧ size ≤ 4 := by
        unfold runeLead at hlead
        split_ifs at hlead <;> cases hlead <;> decide
      split
      · decide
      · split
        · exact hsize
        · decide

theorem length_le_runeCountLoop {fuel : ℕ} {s : Bytes} (h : s.length ≤ fuel) :
    s.length ≤ 4 * runeCountLoop fuel s := by
  induction fuel generalizing s with
  | zero => omega
  | succ fuel ih =>
    cases s with
    | nil => simp
    | cons c rest =>
      obtain ⟨hlo, hhi⟩ := runeSize_bounds (c :: rest)
      have hdrop : ((c :: rest).drop (runeSize (c :: rest))).length =
          (c :: rest).length - runeSize (c :: rest) := List.length_drop
      have hrest := ih (s := (c :: rest).drop (runeSize (c :: rest))) (by omega)
      simp only [runeCountLoop]
      omega

/-- A rune has at most four bytes. -/
theorem length_le_runeCount (s : Bytes) : s.length ≤ 4 * runeCountInString s :=
  length_le_runeCountLoop le_rfl

theorem runeLead_ascii {c : UInt8} (hc : c < 0x80) : runeLead c = none := by
  have hlt : ∀ d : UInt8, 0x80 ≤ d → ¬ d ≤ c ∧ c ≠ d := fun d hd =>
    ⟨UInt8.not_le.mpr (UInt8.lt_of_lt_of_le hc hd), UInt8.ne_of_lt (UInt8.lt_of_lt_of_le hc hd)⟩
  simp [runeLead, (hlt 0xc2 (by decide)).1, (hlt 0xe0 (by decide)).2, (hlt 0xed (by decide)).2,
    (hlt 0xe1 (by decide)).1, (hlt 0xf0 (by decide)).2, (hlt 0xf1 (by decide)).1,
    (hlt 0xf4 (by decide)).2]

theorem runeCountLoop_ascii {fuel : ℕ} {s : Bytes} (h : s.length ≤ fuel)
    (hs : ∀ c ∈ s, c < 0x80) : runeCountLoop fuel s = s.length := by
  induction fuel generalizing s with
  | zero => simpa [runeCountLoop] using (Nat.le_zero.mp h).symm
  | succ fuel ih =>
    cases s with
    | nil => rfl
    | cons c rest =>
      rw [List.forall_mem_cons] at hs
      have hsize : runeSize (c :: rest) = 1 := by simp [runeSize, runeLead_ascii hs.1]
      simp only [runeCountLoop, hsize, List.drop_succ_cons, List.drop_zero, List.length_cons,
        ih (Nat.le_of_succ_le_succ h) hs.2]
      omega

/-- An ASCII string has one rune for each byte. -/
theorem runeCount_ascii {s : Bytes} (hs : ∀ c ∈ s, c < 0x80) : runeCountInString s = s.length :=
  runeCountLoop_ascii le_rfl hs

/-! ## Addresses -/

namespace Bitcoin

/-- `Version`: the four address versions. -/
inductive Version
  | livenet
  | livenetScript
  | testnet
  | testnetScript
deriving DecidableEq, Repr

/-- The version with this leading byte. -/
def Version.ofByte? (b : UInt8) : Option Version :=
  if b = 0 then some .livenet
  else if b = 5 then some .livenetScript
  else if b = 111 then some .testnet
  else if b = 196 then some .testnetScript
  else none

/-- `ValidateAddress`: the version and the twenty address bytes. -/
def validateAddress (env : Env) (address : Bytes) : Except Stop (Version × Bytes) :=
  let addr := fromBase58 address
  if addr.length ≠ 25 then fault .invalidBitcoinAddress
  else
    let d := env.sha256Sum (env.sha256Sum (addr.take 21)).bytes
    if d.bytes.take 4 ≠ addr.drop 21 then fault .invalidBitcoinAddress
    else
      match Version.ofByte? (addr.headD 0xff) with
      | none => fault .invalidBitcoinAddress
      | some version => .ok (version, (addr.drop 1).take 20)

/-- `IsTestnet`. -/
def isTestnet : Version → Bool
  | .testnet | .testnetScript => true
  | .livenet | .livenetScript => false

end Bitcoin

namespace Litecoin

/-- `Version`: the six address versions. -/
inductive Version
  | livenet
  | livenetScript
  | livenetScript2
  | testnet
  | testnetScript
  | testnetScript2
deriving DecidableEq, Repr

/-- The leading byte of an address of this version. -/
def Version.byte : Version → UInt8
  | .livenet => 48
  | .livenetScript => 5
  | .livenetScript2 => 50
  | .testnet => 111
  | .testnetScript => 196
  | .testnetScript2 => 58

/-- The version with this leading byte. -/
def Version.ofByte? (b : UInt8) : Option Version :=
  if b = 48 then some .livenet
  else if b = 5 then some .livenetScript
  else if b = 50 then some .livenetScript2
  else if b = 111 then some .testnet
  else if b = 196 then some .testnetScript
  else if b = 58 then some .testnetScript2
  else none

/-- `ValidateAddress`: the version and the twenty address bytes. -/
def validateAddress (env : Env) (address : Bytes) : Except Stop (Version × Bytes) :=
  let addr := fromBase58 address
  if addr.length ≠ 25 then fault .invalidLitecoinAddress
  else
    let d := env.sha256Sum (env.sha256Sum (addr.take 21)).bytes
    if d.bytes.take 4 ≠ addr.drop 21 then fault .invalidLitecoinAddress
    else
      match Version.ofByte? (addr.headD 0xff) with
      | none => fault .invalidLitecoinAddress
      | some version => .ok (version, (addr.drop 1).take 20)

/-- `IsTestnet`. -/
def isTestnet : Version → Bool
  | .testnet | .testnetScript | .testnetScript2 => true
  | .livenet | .livenetScript | .livenetScript2 => false

/-- The address string of a version and address bytes. -/
def compose (env : Env) (version : Version) (addressBytes : Bytes) : Bytes :=
  let addr := version.byte :: addressBytes
  let d := env.sha256Sum (env.sha256Sum addr).bytes
  toBase58 (addr ++ d.bytes.take 4)

/-- `FromBitcoin`: the litecoin address with the bytes of a bitcoin address. -/
def fromBitcoin (env : Env) (address : Bytes) : Except Stop Bytes := do
  let (version, addressBytes) ← Bitcoin.validateAddress env address
  let ltcVersion : Version := match version with
    | .livenet => .livenet
    | .livenetScript => .livenetScript
    | .testnet => .testnet
    | .testnetScript => .testnetScript
  return compose env ltcVersion addressBytes

end Litecoin

/-! ## Currencies -/

/-- `currency.Currency`. -/
inductive Currency
  | nothing
  | bitcoin
  | litecoin
deriving DecidableEq, Repr

namespace Currency

/-- `Uint64`. -/
def uint64 : Currency → UInt64
  | .nothing => 0
  | .bitcoin => 1
  | .litecoin => 2

/-- `FromUint64`. -/
def fromUint64 (n : UInt64) : Except Stop Currency :=
  if n = 0 then .ok .nothing
  else if n = 1 then .ok .bitcoin
  else if n = 2 then .ok .litecoin
  else fault .invalidCurrency

/-- `maxPaymentAddressLength`. -/
def maxPaymentAddressLength : Nat := 64

/-- `ValidateAddress`. -/
def validateAddress (env : Env) (currency : Currency) (address : Bytes) (testnet : Bool) :
    Except Stop Unit :=
  if runeCountInString address > maxPaymentAddressLength then fault .paymentAddressTooLong
  else
    match currency with
    | .nothing => .ok ()
    | .bitcoin => do
      let (version, _) ← Bitcoin.validateAddress env address
      if Bitcoin.isTestnet version ≠ testnet then fault .bitcoinAddressForWrongNetwork
      else .ok ()
    | .litecoin => do
      let (version, _) ← Litecoin.validateAddress env address
      if Litecoin.isTestnet version ≠ testnet then fault .litecoinAddressForWrongNetwork
      else .ok ()

theorem fromUint64_uint64 (c : Currency) : fromUint64 c.uint64 = .ok c := by
  cases c <;> rfl

section Addresses

variable {env : Env} {c : Currency} {address : Bytes} {testnet : Bool}

theorem runeCount_of_validateAddress (h : c.validateAddress env address testnet = .ok ()) :
    runeCountInString address ≤ 64 := by
  by_contra hlong
  unfold validateAddress at h
  rw [if_pos (by simpa [maxPaymentAddressLength] using hlong)] at h
  simp at h

/-- An address of a real currency is a base 58 string. -/
theorem fromBase58_of_validateAddress (hc : c ≠ .nothing)
    (h : c.validateAddress env address testnet = .ok ()) : fromBase58 address ≠ [] := by
  intro hnil
  simp only [validateAddress] at h
  split at h
  · simp at h
  · cases c with
    | nothing => exact hc rfl
    | bitcoin => simp [Bitcoin.validateAddress, hnil, bind_eq_ok] at h
    | litecoin => simp [Litecoin.validateAddress, hnil, bind_eq_ok] at h

theorem length_of_validateAddress (hc : c ≠ .nothing)
    (h : c.validateAddress env address testnet = .ok ()) : address.length ≤ 64 := by
  have hascii := fromBase58_ascii (fromBase58_of_validateAddress hc h)
  rw [← runeCount_ascii hascii]
  exact runeCount_of_validateAddress h

theorem validateAddress_returns (c : Currency) (address : Bytes) (testnet : Bool) :
    Returns (c.validateAddress env address testnet) := by
  have hbitcoin : Returns (Bitcoin.validateAddress env address) := by
    simp only [Bitcoin.validateAddress, returns_ite, returns_fault, implies_true, true_and]
    intros
    split <;> simp
  have hlitecoin : Returns (Litecoin.validateAddress env address) := by
    simp only [Litecoin.validateAddress, returns_ite, returns_fault, implies_true, true_and]
    intros
    split <;> simp
  cases c <;> simp [validateAddress, hbitcoin, hlitecoin]

end Addresses

/-! ## Sets -/

/-- `currency.Set`: a count and a bit mask. -/
structure Set where
  count : Nat
  bits : UInt64
deriving DecidableEq, Repr

/-- The empty set. -/
def Set.empty : Set := ⟨0, 0⟩

/-- `Add`: the new set, and whether the currency was already present. -/
def Set.add (set : Set) (c : Currency) : Set × Bool :=
  let n := (1 : UInt64) <<< c.uint64
  if n &&& set.bits ≠ 0 then (set, true) else (⟨set.count + 1, set.bits ||| n⟩, false)

/-- `MakeSet`. -/
def makeSet (currencies : List Currency) : Set :=
  currencies.foldl (fun s c => (s.add c).1) Set.empty

/-! ## Payment maps -/

/-- `currency.Map`: the address stored for each currency. -/
structure Map where
  nothing : Option Bytes
  bitcoin : Option Bytes
  litecoin : Option Bytes
deriving DecidableEq, Repr

namespace Map

/-- The empty map. -/
def empty : Map := ⟨none, none, none⟩

/-- Read a currency's address. -/
def get (m : Map) : Currency → Option Bytes
  | .nothing => m.nothing
  | .bitcoin => m.bitcoin
  | .litecoin => m.litecoin

/-- Store a currency's address. -/
def set (m : Map) (c : Currency) (address : Bytes) : Map :=
  match c with
  | .nothing => { m with nothing := some address }
  | .bitcoin => { m with bitcoin := some address }
  | .litecoin => { m with litecoin := some address }

/-- The entries, in the order of the currencies. -/
def entries (m : Map) : List (Currency × Bytes) :=
  [.nothing, .bitcoin, .litecoin].filterMap fun c => (m.get c).map (c, ·)

/-- The loop of `Pack` over the currencies that remain: the bytes and the number of items. -/
def packLoop (env : Env) (m : Map) (testnet : Bool) : List Currency → Except Stop (Bytes × Nat)
  | [] => .ok ([], 0)
  | currency :: rest =>
    let address := (m.get currency).getD []
    if address = [] then packLoop env m testnet rest
    else do
      validateAddress env currency address testnet
      let (buffer, n) ← packLoop env m testnet rest
      return (toVarint64 currency.uint64 ++ toVarint64 (UInt64.ofNat address.length) ++
        address ++ buffer, n + 1)

/-- `Pack`: the valid currencies with an address; an error if that is not the whole map. -/
def pack (env : Env) (m : Map) (testnet : Bool) : Except Stop Bytes := do
  let (buffer, n) ← packLoop env m testnet [.bitcoin, .litecoin]
  if m.entries.length ≠ n then fault .invalidCurrency else return buffer

end Map

/-- The loop of `UnpackMap` on what is left of the buffer, with at most `fuel` items to go. -/
def unpackMapLoop (env : Env) (testnet : Bool) :
    Nat → Bytes → Map → Set → Except Stop (Map × Set)
  | 0, _, m, cs => .ok (m, cs)
  | fuel + 1, buffer, m, cs =>
    if buffer = [] then .ok (m, cs)
    else do
      let (c, currencyLength) := fromVarint64 buffer
      failIf (currencyLength = 0) .invalidCurrency
      let currency ← fromUint64 c
      failIf (currency = .nothing) .invalidCurrency
      let buffer := buffer.drop currencyLength
      let (addressLength, addressOffset) := clippedVarint64 buffer 1 255
      failIf (addressOffset = 0) .invalidCount
      let buffer := buffer.drop addressOffset
      panicIf (addressLength > buffer.length) .indexOutOfRange
      let paymentAddress := buffer.take addressLength
      validateAddress env currency paymentAddress testnet
      unpackMapLoop env testnet fuel (buffer.drop addressLength)
        (m.set currency paymentAddress) (cs.add currency).1

/-- `UnpackMap`. -/
def unpackMap (env : Env) (buffer : Bytes) (testnet : Bool) : Except Stop (Map × Set) :=
  if buffer.length < 2 then fault .invalidBuffer
  else unpackMapLoop env testnet buffer.length buffer Map.empty Set.empty

end Currency

end Bitmarkd
