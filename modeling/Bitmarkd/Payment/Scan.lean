import Bitmarkd.Currency.Litecoin
import Bitmarkd.Lib.Hex
import Bitmarkd.Lib.Tally
import Bitmarkd.Reservoir.Pool
import Bitmarkd.Sample

/-!
# Scanning currency transactions

`payment/p2p.go`, `payment/bitcoin.go` and `payment/litecoin.go`. A payment is found in a currency
transaction that has an output with a pay id, and what it pays to each address is summed up. Three
functions do this: `examineTransaction` on the scripts of a block from a peer, for both currencies,
and `inspectBitcoinTx` and `inspectLitecoinTx` on the JSON of a local node. A litecoin script
address has two forms, and what is paid to one counts for both.

`inspectBitcoinTx` and `inspectLitecoinTx` add up the outputs of an address; `examineTransaction`
keeps the last one. So **the scanners agree** with each other and with the sums exactly if all
outputs of an address but the last one are of nothing (`scanners_agree_iff`).
-/

namespace Bitmarkd

open Lib Util

/-! ## The source -/

/-- `PayId.UnmarshalText`. -/
def unmarshalPayId (text : Bytes) : Option PayId :=
  if text.length / 2 ≠ 48 then none else (hexDecode text).map (.ofSlice 48)

/-- An output of a transaction of a block. -/
structure TxOut where
  pkScript : Bytes
  value : UInt64

/-- `examineTransaction` on an output. The functions of the library that find the address of a
script are `addressOf`. -/
def examineOut (env : Env) (addressOf : Bytes → Option Bytes)
    (s : Option Bytes × Table Bytes UInt64) (txout : TxOut) : Option Bytes × Table Bytes UInt64 :=
  let (id, amounts) := s
  if txout.pkScript.take 2 = [106, 48] then (some (txout.pkScript.drop 2), amounts)
  else
    match addressOf txout.pkScript with
    | none => (id, amounts)
    | some addr =>
      let amounts := amounts.insert addr txout.value
      match Litecoin.transformAddress env addr with
      | .ok address2 =>
        if address2 ≠ addr then (id, amounts.insert address2 txout.value) else (id, amounts)
      | .error _ => (id, amounts)

/-- `examineTransaction`. -/
def examineTransaction (env : Env) (addressOf : Bytes → Option Bytes) (txOut : List TxOut) :
    Option Bytes × Table Bytes UInt64 :=
  txOut.foldl (examineOut env addressOf) (none, ∅)

/-- An output in the JSON of a local node, with the value that `satoshi.FromByteString` reads. -/
structure Vout where
  hex : Bytes
  addresses : List Bytes
  value : UInt64

/-- A transaction in the JSON of a local node. -/
structure JsonTransaction where
  txId : Bytes
  vout : List Vout

/-- `bitcoinOPReturnHexCode` and `litecoinOPReturnHexCode`: the text `6a30`. -/
def opReturnHexCode : Bytes := [0x36, 0x61, 0x33, 0x30]

/-- `bitcoinOPReturnRecordLength` and `litecoinOPReturnRecordLength`. -/
def opReturnRecordLength : ℕ := opReturnHexCode.length + 2 * 48

/-- The variables of the loop `scan_vouts`. -/
structure Scan where
  payId : PayId
  amounts : Table Bytes UInt64
  found : Bool

/-- The loop `scan_vouts` on an output; none if it returns. What is paid to an address is credited
to it, and to its `alternatives`. -/
def scanVout (alternatives : Bytes → List Bytes) (s : Scan) (vout : Vout) : Option Scan :=
  if vout.hex.length = opReturnRecordLength ∧ vout.hex.take 4 = opReturnHexCode then
    (unmarshalPayId (vout.hex.drop opReturnHexCode.length)).map fun payId =>
      { s with payId, found := true }
  else
    match vout.addresses with
    | [address] => some { s with
        amounts := s.amounts.tally ((address :: alternatives address).map (·, vout.value)) }
    | _ => some s

/-- The whole loop. -/
def scanVouts (alternatives : Bytes → List Bytes) (vouts : List Vout) : Option Scan :=
  vouts.foldlM (scanVout alternatives) ⟨.zero 48, ∅, false⟩

/-- `inspectBitcoinTx` and `inspectLitecoinTx`: the arguments of `SetTransferVerified`, if it is
called. -/
def inspectTx (currency : Currency) (alternatives : Bytes → List Bytes) (tx : JsonTransaction) :
    Option (PayId × PaymentDetail) :=
  if hexDecode tx.txId = none then none
  else
    (scanVouts alternatives tx.vout).bind fun s =>
      if s.found = false then none
      else if s.amounts.keys.card = 0 then none
      else some (s.payId, ⟨currency, tx.txId, s.amounts⟩)

/-- `inspectBitcoinTx`. -/
def inspectBitcoinTx : JsonTransaction → Option (PayId × PaymentDetail) :=
  inspectTx .bitcoin fun _ => []

/-- The other form of a litecoin address, if it has one. -/
def litecoinAlternatives (env : Env) (address : Bytes) : List Bytes :=
  match Litecoin.transformAddress env address with
  | .ok address2 => if address2 ≠ address then [address2] else []
  | .error _ => []

/-- `inspectLitecoinTx`. -/
def inspectLitecoinTx (env : Env) : JsonTransaction → Option (PayId × PaymentDetail) :=
  inspectTx .litecoin (litecoinAlternatives env)

/-! ## What is assumed of the decoders -/

/-- The two forms of an output say the same: the script in hexadecimal, the value, and the one
address. A script that starts with `OP_RETURN` has no address. -/
structure Decodes (addressOf : Bytes → Option Bytes) (txout : TxOut) (vout : Vout) : Prop where
  hex : vout.hex = hexEncode txout.pkScript
  value : vout.value = txout.value
  address : ∀ a, vout.addresses = [a] ↔ addressOf txout.pkScript = some a
  opReturn : txout.pkScript.head? = some 106 → addressOf txout.pkScript = none

/-! ## The specification -/

/-- The output pays the address. -/
def paysTo (addressOf : Bytes → Option Bytes) (a : Bytes) (txout : TxOut) : Bool :=
  (addressOf txout.pkScript).any (· = a)

/-- The output pays the address or its alternative form. -/
def paysEither (env : Env) (addressOf : Bytes → Option Bytes) (a : Bytes) (txout : TxOut) : Bool :=
  (addressOf txout.pkScript).any fun x => x = a ∨ Litecoin.transformAddress env a = .ok x

/-- The values of the outputs that pay an address. -/
def paid (pays : TxOut → Bool) (txOut : List TxOut) : List UInt64 :=
  (txOut.filter pays).map (·.value)

/-- What should be found for an address: the sum of some values, if there is one. -/
def sumOf (values : List UInt64) : Option ℕ :=
  if values = [] then none else some (Table.total values)

/-- All values but the last are of nothing. -/
def OnlyLast (values : List UInt64) : Prop := ∀ v ∈ values.dropLast, v = 0

/-- What a scanner of JSON reports, if there is a payment to report: it found a pay id, and these
amounts. -/
def Reports (report : Option (PayId × PaymentDetail)) (currency : Currency) (tx : JsonTransaction)
    (s : Scan) : Prop :=
  report = if (hexDecode tx.txId).isSome ∧ s.found ∧ s.amounts.keys.card ≠ 0 then
    some (s.payId, ⟨currency, tx.txId, s.amounts⟩) else none

/-- The scanners agree on a litecoin transaction: they compute the same amounts, the sums of what is
paid to an address or its alternative form. -/
def AgreeLitecoin (env : Env) (addressOf : Bytes → Option Bytes) (txOut : List TxOut)
    (tx : JsonTransaction) : Prop :=
  ∃ s, scanVouts (litecoinAlternatives env) tx.vout = some s ∧
    Reports (inspectLitecoinTx env tx) .litecoin tx s ∧
    (examineTransaction env addressOf txOut).2 = s.amounts ∧
    ∀ a, (s.amounts.lookup a).map UInt64.toNat = sumOf (paid (paysEither env addressOf a) txOut)

/-- The scanners agree on a bitcoin transaction: for every address that is paid, both compute the
sum of what is paid to it. -/
def AgreeBitcoin (env : Env) (addressOf : Bytes → Option Bytes) (txOut : List TxOut)
    (tx : JsonTransaction) : Prop :=
  ∃ s, scanVouts (fun _ => []) tx.vout = some s ∧ Reports (inspectBitcoinTx tx) .bitcoin tx s ∧
    ∀ a, paid (paysTo addressOf a) txOut ≠ [] →
      ((examineTransaction env addressOf txOut).2.lookup a).map UInt64.toNat =
          some (Table.total (paid (paysTo addressOf a) txOut)) ∧
        (s.amounts.lookup a).map UInt64.toNat =
          some (Table.total (paid (paysTo addressOf a) txOut))

/-- Not one of the newer script addresses of litecoin, which no bitcoin address looks like. -/
def OldVersion (env : Env) (a : Bytes) : Prop := ∀ version addressBytes,
  Litecoin.validateAddress env a = .ok (version, addressBytes) →
    version ≠ .livenetScript2 ∧ version ≠ .testnetScript2

/-! ## Pay ids -/

/-- The text of a pay id output is that of a script with a pay id. -/
theorem exists_payId {script : Bytes} (hlength : (hexEncode script).length = opReturnRecordLength)
    (hcode : (hexEncode script).take 4 = opReturnHexCode) :
    script.head? = some 106 ∧
      ∃ payId, unmarshalPayId ((hexEncode script).drop opReturnHexCode.length) = some payId := by
  rw [length_hexEncode] at hlength
  obtain ⟨x, y, rest, rfl⟩ : ∃ x y rest, script = x :: y :: rest := by
    match script, hlength with
    | x :: y :: rest, _ => exact ⟨x, y, rest, rfl⟩
  have hsplit : hexEncode (x :: y :: rest) =
      hexEncode [x] ++ (hexEncode [y] ++ hexEncode rest) := by
    simp [hexEncode]
  have hone (x : UInt8) : (hexEncode [x]).length = 2 := length_hexEncode [x]
  have hfirst : hexEncode [x] = [0x36, 0x61] := by
    have h := congrArg (List.take 2) hcode
    rw [hsplit, List.take_take, Nat.min_eq_left (by decide), List.take_left' (hone x)] at h
    exact h
  have hx : ∀ x : UInt8, hexEncode [x] = [0x36, 0x61] → x = 106 := by decide +kernel
  refine ⟨by rw [hx x hfirst]; rfl, ?_⟩
  have hdrop : (hexEncode (x :: y :: rest)).drop 4 = hexEncode rest := by
    rw [hsplit, ← List.append_assoc]
    exact List.drop_left' (by simp [hone])
  have hrest : (hexEncode rest).length / 2 = 48 := by
    rw [length_hexEncode]
    simp [opReturnRecordLength, opReturnHexCode] at hlength
    omega
  refine ⟨.ofSlice 48 rest, ?_⟩
  rw [show opReturnHexCode.length = 4 from rfl, hdrop, unmarshalPayId,
    if_neg (not_not.mpr hrest), hexDecode_hexEncode]
  rfl

/-! ## What the scanners compute -/

/-- What an output credits. -/
def credits (addressOf : Bytes → Option Bytes) (alternatives : Bytes → List Bytes) (txout : TxOut) :
    List (Bytes × UInt64) :=
  match addressOf txout.pkScript with
  | none => []
  | some x => (x :: alternatives x).map (·, txout.value)

section Scan

variable {env : Env} {addressOf : Bytes → Option Bytes} {alternatives : Bytes → List Bytes}
  {txout : TxOut} {vout : Vout} {txOut : List TxOut} {vouts : List Vout} {tx : JsonTransaction}

theorem scanVout_eq (alternatives : Bytes → List Bytes) (h : Decodes addressOf txout vout)
    (s : Scan) :
    ∃ s', scanVout alternatives s vout = some s' ∧
      s'.amounts = s.amounts.tally (credits addressOf alternatives txout) := by
  unfold scanVout
  split
  next hcode =>
    rw [h.hex] at hcode ⊢
    obtain ⟨hhead, payId, hpayId⟩ := exists_payId hcode.1 hcode.2
    refine ⟨{ s with payId, found := true }, by rw [hpayId]; rfl, ?_⟩
    rw [credits, h.opReturn hhead]
    rfl
  next =>
    split
    next address haddress =>
      refine ⟨_, rfl, ?_⟩
      rw [credits, (h.address address).mp haddress, h.value]
    next hnot =>
      refine ⟨s, rfl, ?_⟩
      rw [credits]
      cases hx : addressOf txout.pkScript with
      | none => rfl
      | some x => exact absurd ((h.address x).mpr hx) (hnot x)

theorem scanVouts_eq (alternatives : Bytes → List Bytes)
    (h : List.Forall₂ (Decodes addressOf) txOut vouts) :
    ∃ s, scanVouts alternatives vouts = some s ∧
      s.amounts = Table.tally ∅ (txOut.flatMap (credits addressOf alternatives)) := by
  have hloop (s : Scan) : ∃ s', vouts.foldlM (scanVout alternatives) s = some s' ∧
      s'.amounts = s.amounts.tally (txOut.flatMap (credits addressOf alternatives)) := by
    induction h generalizing s with
    | nil => exact ⟨s, rfl, rfl⟩
    | cons hout _ ih =>
      obtain ⟨s₁, hs₁, hamounts⟩ := scanVout_eq alternatives hout s
      obtain ⟨s', hs', hamounts'⟩ := ih s₁
      refine ⟨s', by rw [List.foldlM_cons, hs₁]; exact hs', ?_⟩
      rw [hamounts', hamounts, List.flatMap_cons, Table.tally, Table.tally, Table.tally,
        List.foldl_append]
  exact hloop _

/-- A scanner of JSON reports what its loop has found. -/
theorem reports_inspectTx (currency : Currency) {s : Scan}
    (hs : scanVouts alternatives tx.vout = some s) :
    Reports (inspectTx currency alternatives tx) currency tx s := by
  unfold Reports inspectTx
  rw [hs, Option.bind_some]
  cases hexDecode tx.txId with
  | none => simp
  | some _ => cases s.found <;> simp [ite_not]

theorem examineOut_eq (h : Decodes addressOf txout vout) (s : Option Bytes × Table Bytes UInt64) :
    (examineOut env addressOf s txout).2 =
      s.2.assign (credits addressOf (litecoinAlternatives env) txout) := by
  unfold examineOut credits
  dsimp only
  by_cases hcode : txout.pkScript.take 2 = [106, 48]
  · have hhead : txout.pkScript.head? = some 106 := by
      have hfirst := List.head?_take (l := txout.pkScript) (i := 2)
      rwa [hcode, if_neg (by decide), eq_comm] at hfirst
    rw [if_pos hcode, h.opReturn hhead]
    rfl
  · rw [if_neg hcode]
    cases addressOf txout.pkScript with
    | none => rfl
    | some x =>
      dsimp only
      unfold litecoinAlternatives
      cases Litecoin.transformAddress env x with
      | error e => rfl
      | ok x' =>
        dsimp only
        split_ifs <;> rfl

theorem examineTransaction_eq (h : List.Forall₂ (Decodes addressOf) txOut vouts) :
    (examineTransaction env addressOf txOut).2 =
      Table.assign ∅ (txOut.flatMap (credits addressOf (litecoinAlternatives env))) := by
  have hloop (s : Option Bytes × Table Bytes UInt64) :
      (txOut.foldl (examineOut env addressOf) s).2 =
        s.2.assign (txOut.flatMap (credits addressOf (litecoinAlternatives env))) := by
    induction h generalizing s with
    | nil => rfl
    | cons hout _ ih =>
      rw [List.foldl_cons, ih, examineOut_eq hout, List.flatMap_cons, Table.assign, Table.assign,
        Table.assign, List.foldl_append]
  exact hloop _

/-! ### The values of an address -/

theorem valuesAt_credits_litecoin (a : Bytes) :
    Table.valuesAt a (credits addressOf (litecoinAlternatives env) txout) =
      if paysEither env addressOf a txout then [txout.value] else [] := by
  unfold credits paysEither
  cases addressOf txout.pkScript with
  | none => rfl
  | some x =>
    simp only [Option.any_some, decide_eq_true_eq, Litecoin.transformAddress_comm (a := a)]
    unfold litecoinAlternatives
    cases Litecoin.transformAddress env x with
    | error e => simp [Table.valuesAt_cons]
    | ok x' =>
      by_cases hx : x' = x
      · simp [Table.valuesAt_cons, hx]
      · by_cases hxa : x = a
        · subst hxa
          simp [Table.valuesAt_cons, hx]
        · simp [Table.valuesAt_cons, hx, hxa]

theorem valuesAt_credits_bitcoin (a : Bytes) :
    Table.valuesAt a (credits addressOf (fun _ => []) txout) =
      if paysTo addressOf a txout then [txout.value] else [] := by
  unfold credits paysTo
  cases addressOf txout.pkScript with
  | none => rfl
  | some x => simp [Table.valuesAt_cons]

theorem valuesAt_flatMap {f : TxOut → List (Bytes × UInt64)} {pays : TxOut → Bool} {a : Bytes}
    (h : ∀ txout, Table.valuesAt a (f txout) = if pays txout then [txout.value] else []) :
    Table.valuesAt a (txOut.flatMap f) = paid pays txOut := by
  induction txOut with
  | nil => rfl
  | cons txout txOut ih =>
    rw [List.flatMap_cons, Table.valuesAt_append, h, ih, paid, paid, List.filter_cons]
    split_ifs <;> rfl

theorem total_paid_le (pays : TxOut → Bool) (txOut : List TxOut) :
    Table.total (paid pays txOut) ≤ Table.total (txOut.map (·.value)) := by
  induction txOut with
  | nil => simp [paid]
  | cons txout txOut ih =>
    unfold paid at ih ⊢
    rw [List.filter_cons, List.map_cons, Table.total_cons]
    split_ifs
    · rw [List.map_cons, Table.total_cons]
      omega
    · omega

/-- The last value is the sum exactly if the others are of nothing. -/
theorem getLast?_eq_sumOf_iff (values : List UInt64) :
    values.getLast?.map UInt64.toNat = sumOf values ↔ OnlyLast values := by
  rcases List.eq_nil_or_concat values with rfl | ⟨front, last, rfl⟩
  · simp [sumOf, OnlyLast]
  · have htotal : Table.total (front ++ [last]) = Table.total front + last.toNat := by
      simp [Table.total]
    have hzero : Table.total front = 0 ↔ ∀ v ∈ front, v = 0 := by
      simp [Table.total, List.sum_eq_zero_iff, ← UInt64.toNat_inj]
    rw [List.concat_eq_append, sumOf, if_neg (by simp), htotal, OnlyLast, List.dropLast_concat,
      ← hzero]
    simp

/-! ### Agreement -/

theorem lookup_examineTransaction (h : List.Forall₂ (Decodes addressOf) txOut vouts) (a : Bytes) :
    (examineTransaction env addressOf txOut).2.lookup a =
      (paid (paysEither env addressOf a) txOut).getLast? := by
  rw [examineTransaction_eq h, Table.lookup_assign, Finmap.lookup_empty, Option.or_none,
    valuesAt_flatMap fun _ => valuesAt_credits_litecoin a]

theorem lookup_tally_credits {pays : TxOut → Bool} {a : Bytes}
    (hmoney : Table.total (txOut.map (·.value)) < 2 ^ 64)
    (hcredits : ∀ txout, Table.valuesAt a (credits addressOf alternatives txout) =
      if pays txout then [txout.value] else []) :
    ((Table.tally ∅ (txOut.flatMap (credits addressOf alternatives))).lookup a).map UInt64.toNat =
      sumOf (paid pays txOut) := by
  have hle := total_paid_le pays txOut
  rw [Table.lookup_tally, valuesAt_flatMap hcredits, sumOf]
  · simp
  · rw [valuesAt_flatMap hcredits]
    simp only [Finmap.lookup_empty, Option.getD_none, UInt64.toNat_zero]
    omega

theorem agreeLitecoin_iff (h : List.Forall₂ (Decodes addressOf) txOut tx.vout)
    (hmoney : Table.total (txOut.map (·.value)) < 2 ^ 64) :
    AgreeLitecoin env addressOf txOut tx ↔
      ∀ a, OnlyLast (paid (paysEither env addressOf a) txOut) := by
  obtain ⟨s, hs, hamounts⟩ := scanVouts_eq (litecoinAlternatives env) h
  have hsum (a : Bytes) : (s.amounts.lookup a).map UInt64.toNat =
      sumOf (paid (paysEither env addressOf a) txOut) := by
    rw [hamounts]
    exact lookup_tally_credits hmoney fun _ => valuesAt_credits_litecoin a
  constructor
  · intro hagree a
    obtain ⟨s', hs', -, hequal, -⟩ := hagree
    cases hs.symm.trans hs'
    rw [← getLast?_eq_sumOf_iff, ← lookup_examineTransaction h, hequal, hsum a]
  · intro hlast
    refine ⟨s, hs, reports_inspectTx _ hs, Finmap.ext_lookup fun a => ?_, hsum⟩
    apply Option.map_injective (fun x y => UInt64.toNat_inj.mp)
    rw [lookup_examineTransaction h, hsum a, getLast?_eq_sumOf_iff]
    exact hlast a

/-- Where no address is a newer script address, the outputs that pay an address that is paid, or its
alternative form, all pay the address. -/
theorem paid_paysEither (hold : ∀ txout ∈ txOut, ∀ x, addressOf txout.pkScript = some x →
    OldVersion env x) {a : Bytes} (ha : paid (paysTo addressOf a) txOut ≠ []) :
    paid (paysEither env addressOf a) txOut = paid (paysTo addressOf a) txOut := by
  have haold : OldVersion env a := by
    obtain ⟨v, hv⟩ := List.exists_mem_of_ne_nil _ ha
    obtain ⟨txout, htxout, -⟩ := List.mem_map.mp hv
    obtain ⟨hmem, hpays⟩ := List.mem_filter.mp htxout
    exact hold txout hmem a (by simpa [paysTo, Option.any_eq_true] using hpays)
  unfold paid
  congr 1
  apply List.filter_congr
  intro txout hmem
  unfold paysEither paysTo
  cases hx : addressOf txout.pkScript with
  | none => rfl
  | some x =>
    simp only [Option.any_some, decide_eq_decide, or_iff_left_iff_imp]
    intro htransform
    obtain ⟨version, addressBytes, hlength, hva, hvx⟩ :=
      Litecoin.transformAddress_eq_ok.mp htransform
    -- Of the two forms of an address, if they differ, one is a newer script address.
    have ha := haold version addressBytes (Litecoin.validateAddress_eq_ok.mpr ⟨hlength, hva⟩)
    have hx := hold txout hmem x hx version.transform addressBytes
      (Litecoin.validateAddress_eq_ok.mpr ⟨hlength, hvx⟩)
    have hversion : version.transform = version := by
      cases version <;> simp_all [Litecoin.Version.transform]
    rw [hvx, hva, hversion]

theorem agreeBitcoin_iff (h : List.Forall₂ (Decodes addressOf) txOut tx.vout)
    (hmoney : Table.total (txOut.map (·.value)) < 2 ^ 64)
    (hold : ∀ txout ∈ txOut, ∀ x, addressOf txout.pkScript = some x → OldVersion env x) :
    AgreeBitcoin env addressOf txOut tx ↔ ∀ a, OnlyLast (paid (paysTo addressOf a) txOut) := by
  obtain ⟨s, hs, hamounts⟩ := scanVouts_eq (fun _ => []) h
  have hsum (a : Bytes) : (s.amounts.lookup a).map UInt64.toNat =
      sumOf (paid (paysTo addressOf a) txOut) := by
    rw [hamounts]
    exact lookup_tally_credits hmoney fun _ => valuesAt_credits_bitcoin a
  have hsome {a : Bytes} (ha : paid (paysTo addressOf a) txOut ≠ []) :
      sumOf (paid (paysTo addressOf a) txOut) =
        some (Table.total (paid (paysTo addressOf a) txOut)) := if_neg ha
  constructor
  · intro hagree a
    obtain ⟨s', -, -, hboth⟩ := hagree
    by_cases ha : paid (paysTo addressOf a) txOut = []
    · simp [ha, OnlyLast]
    · rw [← getLast?_eq_sumOf_iff, ← paid_paysEither hold ha, ← lookup_examineTransaction h,
        (hboth a ha).1, paid_paysEither hold ha, hsome ha]
  · intro hlast
    refine ⟨s, hs, reports_inspectTx _ hs, fun a ha => ⟨?_, by rw [hsum, hsome ha]⟩⟩
    rw [lookup_examineTransaction h, paid_paysEither hold ha, ← hsome ha, getLast?_eq_sumOf_iff]
    exact hlast a

/-- **The payment scanners** compute the same amounts, the sums of what is paid, exactly if for
every address all its outputs but the last are of nothing: `examineTransaction` keeps only the last.
-/
theorem scanners_agree_iff (h : List.Forall₂ (Decodes addressOf) txOut tx.vout)
    (hmoney : Table.total (txOut.map (·.value)) < 2 ^ 64) :
    (AgreeLitecoin env addressOf txOut tx ↔
        ∀ a, OnlyLast (paid (paysEither env addressOf a) txOut)) ∧
      ((∀ txout ∈ txOut, ∀ x, addressOf txout.pkScript = some x → OldVersion env x) →
        (AgreeBitcoin env addressOf txOut tx ↔
          ∀ a, OnlyLast (paid (paysTo addressOf a) txOut))) :=
  ⟨agreeLitecoin_iff h hmoney, fun hold => agreeBitcoin_iff h hmoney hold⟩

end Scan

namespace Sample

/-- Two scripts of one byte, the first of which pays the sample's address. -/
def addressOf (script : Bytes) : Option Bytes :=
  if script = [0x76] then some address else if script = [0x77] then some [0x32] else none

/-- Outputs by their script and value. -/
def outs (l : List (Bytes × UInt64)) : List TxOut := l.map fun x => ⟨x.1, x.2⟩

/-- The same outputs in JSON. -/
def json (l : List (Bytes × UInt64)) : JsonTransaction :=
  ⟨[0x30, 0x31], l.map fun x => ⟨hexEncode x.1, (addressOf x.1).toList, x.2⟩⟩

theorem decodes (l : List (Bytes × UInt64)) :
    List.Forall₂ (Decodes addressOf) (outs l) (json l).vout := by
  induction l with
  | nil => exact .nil
  | cons x l ih =>
    refine .cons ⟨rfl, rfl, fun a => Option.toList_eq_singleton_iff, fun h => ?_⟩ ih
    unfold addressOf
    dsimp only at h ⊢
    split_ifs with h₁ h₂
    · simp [h₁] at h
    · simp [h₂] at h
    · rfl

/-- The addresses have one form each. -/
theorem transformAddress_eq_ok_iff {a x : Bytes} (hx : x = address ∨ x = [0x32]) :
    Litecoin.transformAddress env a = .ok x → x = a := by
  rw [Litecoin.transformAddress_comm]
  have haddress : Litecoin.transformAddress env address = .ok address := by decide +kernel
  have hother : (Litecoin.transformAddress env [0x32]).toOption = none := by decide +kernel
  rcases hx with rfl | rfl
  · rw [haddress]
    exact Except.ok.inj
  · intro h
    rw [h] at hother
    cases hother

theorem oldVersion_outs (l : List (Bytes × UInt64)) : ∀ txout ∈ outs l, ∀ x,
    addressOf txout.pkScript = some x → OldVersion env x := by
  have hvalid : Litecoin.validateAddress env address =
      .ok (.testnet, ((fromBase58 address).drop 1).take 20) := by
    decide +kernel
  have hother : (Litecoin.validateAddress env [0x32]).toOption = none := by decide +kernel
  intro txout _ x hx version addressBytes h
  unfold addressOf at hx
  split_ifs at hx <;> cases hx
  · cases hvalid.symm.trans h
    exact ⟨by simp, by simp⟩
  · rw [h] at hother
    cases hother

/-- A pay id, nothing and then 5 to the first address, and 3 to the second. -/
def mixed : List (Bytes × UInt64) :=
  [(106 :: 48 :: List.replicate 48 9, 0), ([0x76], 0), ([0x76], 5), ([0x77], 3)]

theorem onlyLast_mixed {pays : Bytes → TxOut → Bool}
    (hpays : ∀ a txout, pays a txout = paysTo addressOf a txout) (a : Bytes) :
    OnlyLast (paid (pays a) (outs mixed)) := by
  rw [show pays a = paysTo addressOf a from funext (hpays a)]
  by_cases ha : a = address
  · have hpaid : paid (paysTo addressOf address) (outs mixed) = [0, 5] := by decide +kernel
    simp [ha, hpaid, OnlyLast]
  · by_cases ha' : a = [0x32]
    · have hpaid : paid (paysTo addressOf [0x32]) (outs mixed) = [3] := by decide +kernel
      simp [ha', hpaid, OnlyLast]
    · have hpaid : paid (paysTo addressOf a) (outs mixed) = [] := by
        simp [paid, outs, mixed, paysTo, addressOf, Ne.symm ha, Ne.symm ha']
      simp [hpaid, OnlyLast]

theorem paysEither_eq (a : Bytes) (txout : TxOut) :
    paysEither env addressOf a txout = paysTo addressOf a txout := by
  unfold paysEither paysTo addressOf
  split_ifs
  · simpa using transformAddress_eq_ok_iff (Or.inl rfl)
  · simpa using transformAddress_eq_ok_iff (Or.inr rfl)
  · rfl

/-- All scanners find 5 for the first address and 3 for the second. -/
theorem scanners_agree_iff_mixed : AgreeLitecoin env addressOf (outs mixed) (json mixed) ∧
    AgreeBitcoin env addressOf (outs mixed) (json mixed) ∧
    (inspectLitecoinTx env (json mixed)).isSome ∧
    (inspectBitcoinTx (json mixed)).map (fun x =>
      (x.2.amounts.lookup address, x.2.amounts.lookup [0x32])) = some (some 5, some 3) := by
  obtain ⟨hlitecoin, hbitcoin⟩ := @scanners_agree_iff env _ _ _ (decodes mixed) (by decide +kernel)
  exact ⟨hlitecoin.mpr (onlyLast_mixed paysEither_eq),
    (hbitcoin (oldVersion_outs mixed)).mpr (onlyLast_mixed fun _ _ => rfl), by decide +kernel,
    by decide +kernel⟩

/-- A pay id, and two outputs to one address, of 1 and of 2. -/
def repeated : List (Bytes × UInt64) :=
  [(106 :: 48 :: List.replicate 48 9, 0), ([0x76], 1), ([0x76], 2)]

/-- **Two outputs to one address**: the p2p scanner finds 2, the others 3. -/
theorem repeated_address : List.Forall₂ (Decodes addressOf) (outs repeated) (json repeated).vout ∧
    (examineTransaction env addressOf (outs repeated)).2.lookup address = some 2 ∧
    (inspectLitecoinTx env (json repeated)).map (·.2.amounts.lookup address) = some (some 3) ∧
    (inspectBitcoinTx (json repeated)).map (·.2.amounts.lookup address) = some (some 3) ∧
    ¬ AgreeLitecoin env addressOf (outs repeated) (json repeated) ∧
    ¬ AgreeBitcoin env addressOf (outs repeated) (json repeated) := by
  have hpaid : paid (paysTo addressOf address) (outs repeated) = [1, 2] := by decide +kernel
  have hlast : ¬ OnlyLast (paid (paysTo addressOf address) (outs repeated)) := by
    rw [hpaid]
    exact fun h => absurd (h 1 (by simp)) (by decide)
  refine ⟨decodes _, by decide +kernel, by decide +kernel, by decide +kernel, ?_, ?_⟩
  · rw [agreeLitecoin_iff (decodes _) (by decide +kernel)]
    intro h
    exact hlast (funext (paysEither_eq address) ▸ h address)
  · rw [agreeBitcoin_iff (decodes _) (by decide +kernel) (oldVersion_outs _)]
    exact fun h => hlast (h address)

end Sample

end Bitmarkd
