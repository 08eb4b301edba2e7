import Bitmarkd.Lib.Table
import Bitmarkd.Storage
import Bitmarkd.TransactionRecord.Unpack

/-!
# Payments

`reservoir/payment.go`: the payments a record needs before it may be mined. They go to the owners of
the block that has the issue and of the block that has the last transfer, in any one currency.
-/

namespace Bitmarkd

open Lib

namespace Currency

/-- `GetFee`. -/
def getFee : Currency → UInt64
  | .nothing => 0
  | .bitcoin => 10000
  | .litecoin => 100000

/-- `Index`. -/
def index : Currency → Except Stop Nat
  | .nothing => panicAt .currencyWithoutFee
  | .bitcoin => .ok 0
  | .litecoin => .ok 1

/-- The payment of the fee of a currency. -/
def payment (c : Currency) (address : Bytes) : Payment := ⟨c, address, c.getFee⟩

end Currency

/-- `PaymentAlternative`: payments in one currency. -/
abbrev PaymentAlternative := List Payment

/-- `PaymentSegment`: a payment for each currency. -/
structure PaymentSegment where
  bitcoin : Option Payment
  litecoin : Option Payment
deriving DecidableEq

/-- The payments, in the order of the currencies. -/
def PaymentSegment.toList (s : PaymentSegment) : List (Option Payment) := [s.bitcoin, s.litecoin]

/-- `getPayment`: the fees of the owner of a block. -/
def getPayment (env : Env) (v : View) (blockNumber : UInt64) :
    Except Stop (Option PaymentSegment) :=
  if blockNumber = 0 then .ok none
  else
    match v.get .blockOwnerPayment (be64 blockNumber) with
    | none => panicAt .noBlockPaymentData
    | some paymentData =>
      match Currency.unpackMap env paymentData env.isTesting with
      | .error _ => panicAt .blockPaymentDataError
      | .ok (cMap, _) => do
        panicIf (cMap.nothing.isSome) .currencyWithoutFee
        return some ⟨cMap.bitcoin.map Currency.bitcoin.payment,
          cMap.litecoin.map Currency.litecoin.payment⟩

/-- A payment that the code takes to be there. -/
def requirePayment : Option Payment → Except Stop Payment
  | none => panicAt .nilPointer
  | some p => .ok p

/-- The loop of `getPayments` that merges the payments for the last transfer into those for the
issue, for one currency. -/
def mergePayment (ip tp : Option Payment) : Except Stop PaymentAlternative := do
  let tp ← requirePayment tp
  let ip ← requirePayment ip
  panicIf (tp.currency ≠ ip.currency) .mismatchedCurrencies
  if tp.address = ip.address then return [{ ip with amount := ip.amount + tp.amount }]
  else return [ip, tp]

/-- `getPayments`. The payment of the previous transfer, if it has one, decides the currency. -/
def getPayments (env : Env) (v : View) (transferBlockNumber issueBlockNumber : UInt64)
    (previousPayment : Option Payment) : Except Stop (List PaymentAlternative) := do
  match ← getPayment env v issueBlockNumber with
  | none => panicAt .nilPointer
  | some issuePayment =>
    let payments ← match ← getPayment env v transferBlockNumber with
      | none => issuePayment.toList.mapM fun ip => do
        let ip ← requirePayment ip
        return [{ ip with amount := ip.amount * 2 }]
      | some transferPayment =>
        (issuePayment.toList.zip transferPayment.toList).mapM fun (ip, tp) => mergePayment ip tp
    match previousPayment with
    | none => return payments
    | some payment =>
      let i ← payment.currency.index
      match payments[i]? with
      | none => panicAt .indexOutOfRange
      | some alternative => return [alternative ++ [payment]]

/-- `PaymentDetail`: a payment that was seen on the chain of a currency. -/
structure PaymentDetail where
  currency : Currency
  txID : Bytes
  amounts : Table Bytes UInt64

/-- A payment is made by a detail. -/
def PaymentDetail.pays (detail : PaymentDetail) (item : Payment) : Bool :=
  item.currency = detail.currency ∧
    item.amount ≤ (detail.amounts.lookup item.address).getD 0

/-- The loop of `acceptablePayment`: all payments of some alternative are made. -/
def PaymentDetail.paysOne (detail : PaymentDetail) (payments : List PaymentAlternative) : Bool :=
  payments.any fun p => p.all detail.pays

end Bitmarkd
