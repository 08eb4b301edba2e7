import Bitmarkd.Reservoir.Structure

/-!
# What a payment has to cover

`acceptablePayment` compares the amount that was paid to an address with each payment of an
alternative by itself, so it asks for the largest payment to an address (`peak`). What is due to the
address is their sum (`due`), and the two differ where two payments go to one address.

`getPayments` merges the payments to the owners of the two blocks if they have the same address
(`getPayments_fees`), but keeps the payment of the previous transfer apart.
-/

namespace Bitmarkd

open Lib

namespace PaymentAlternative

/-- The sum of the payments of an alternative to an address. -/
def due (alternative : PaymentAlternative) (address : Bytes) : ℕ :=
  ((alternative.filter fun item => item.address = address).map fun item => item.amount.toNat).sum

/-- The largest payment of an alternative to an address. -/
def peak : PaymentAlternative → Bytes → ℕ
  | [], _ => 0
  | item :: rest, address =>
    max (if item.address = address then item.amount.toNat else 0) (peak rest address)

/-- All payments are in a currency. -/
def IsIn (alternative : PaymentAlternative) (currency : Currency) : Prop :=
  ∀ item ∈ alternative, item.currency = currency

/-- What is due to any address is at most the largest payment that another alternative has for
it. -/
def Within (alternative other : PaymentAlternative) : Prop :=
  ∀ item ∈ alternative, alternative.due item.address ≤ other.peak item.address

instance (alternative : PaymentAlternative) (currency : Currency) :
    Decidable (alternative.IsIn currency) :=
  inferInstanceAs (Decidable (∀ item ∈ alternative, item.currency = currency))

instance (alternative other : PaymentAlternative) : Decidable (alternative.Within other) :=
  inferInstanceAs
    (Decidable (∀ item ∈ alternative, alternative.due item.address ≤ other.peak item.address))

variable {alternative rest : PaymentAlternative} {item : Payment} {address : Bytes}

theorem due_cons : due (item :: rest) address =
    (if item.address = address then item.amount.toNat else 0) + due rest address := by
  by_cases h : item.address = address <;> simp [due, h]

theorem due_append : due (alternative ++ rest) address =
    due alternative address + due rest address := by
  simp [due]

theorem peak_append : peak (alternative ++ rest) address =
    max (peak alternative address) (peak rest address) := by
  induction alternative with
  | nil => simp [peak]
  | cons first others ih => rw [List.cons_append, peak, peak, ih, max_assoc]

theorem amount_le_peak (h : item ∈ alternative) :
    item.amount.toNat ≤ alternative.peak item.address := by
  induction alternative with
  | nil => cases h
  | cons first rest ih =>
    rw [peak]
    rcases List.mem_cons.mp h with rfl | h
    · exact le_max_of_le_left (by rw [if_pos rfl])
    · exact le_max_of_le_right (ih h)

theorem peak_le_due : alternative.peak address ≤ alternative.due address := by
  induction alternative with
  | nil => exact Nat.zero_le _
  | cons first rest ih =>
    rw [peak, due_cons]
    omega

theorem due_eq_zero (h : address ∉ alternative.map Payment.address) :
    alternative.due address = 0 := by
  induction alternative with
  | nil => rfl
  | cons first rest ih =>
    rw [List.map_cons, List.mem_cons, not_or] at h
    rw [due_cons, if_neg (Ne.symm h.1), ih h.2]

/-- If no address occurs twice, only one payment goes to an address. -/
theorem due_le_peak (hnodup : (alternative.map Payment.address).Nodup) :
    alternative.due address ≤ alternative.peak address := by
  induction alternative with
  | nil => exact Nat.zero_le _
  | cons first rest ih =>
    obtain ⟨hfirst, hrest⟩ := List.nodup_cons.mp hnodup
    rw [due_cons, peak]
    by_cases h : first.address = address
    · rw [due_eq_zero (h ▸ hfirst), Nat.add_zero]
      exact le_max_left _ _
    · rw [if_neg h, Nat.zero_add]
      exact le_max_of_le_right (ih hrest)

end PaymentAlternative

namespace PaymentDetail

open PaymentAlternative

/-- The amount that was paid to an address. -/
def paidTo (detail : PaymentDetail) (address : Bytes) : ℕ :=
  ((detail.amounts.lookup address).getD 0).toNat

/-- All payments are in the currency of the detail, and everything that is due is paid. -/
def Covers (detail : PaymentDetail) (alternative : PaymentAlternative) : Prop :=
  ∀ item ∈ alternative, item.currency = detail.currency ∧
    alternative.due item.address ≤ detail.paidTo item.address

instance (detail : PaymentDetail) (alternative : PaymentAlternative) :
    Decidable (detail.Covers alternative) :=
  inferInstanceAs (Decidable (∀ item ∈ alternative, item.currency = detail.currency ∧
    alternative.due item.address ≤ detail.paidTo item.address))

/-- The least payment that `acceptablePayment` takes for an alternative. -/
def least (currency : Currency) : PaymentAlternative → PaymentDetail
  | [] => ⟨currency, [], ∅⟩
  | item :: rest =>
    { least currency rest with
      amounts := (least currency rest).amounts.insert item.address
        (.ofNat (max item.amount.toNat ((least currency rest).paidTo item.address))) }

variable {detail : PaymentDetail} {alternative : PaymentAlternative} {item : Payment}
  {currency : Currency} {address : Bytes}

theorem currency_least : (least currency alternative).currency = currency := by
  induction alternative with
  | nil => rfl
  | cons first rest ih => exact ih

theorem paidTo_least : (least currency alternative).paidTo address = alternative.peak address := by
  induction alternative with
  | nil => rfl
  | cons first rest ih =>
    rw [paidTo, least, Table.lookup_insert, peak]
    by_cases h : first.address = address
    · have hlt : max first.amount.toNat ((least currency rest).paidTo address) < 2 ^ 64 :=
        max_lt first.amount.toNat_lt (UInt64.toNat_lt _)
      rw [if_pos h.symm, if_pos h, h, Option.getD_some, UInt64.toNat_ofNat_of_lt' hlt, ih]
    · rw [if_neg (Ne.symm h), if_neg h, Nat.zero_max]
      exact ih

theorem pays_iff : detail.pays item = true ↔
    item.currency = detail.currency ∧ item.amount.toNat ≤ detail.paidTo item.address := by
  rw [pays, decide_eq_true_eq, UInt64.le_iff_toNat_le, paidTo]

/-- An alternative is accepted if it is in the right currency and the largest payment to each
address is covered. -/
theorem all_pays_iff : alternative.all detail.pays = true ↔
    alternative.IsIn detail.currency ∧
      ∀ address, alternative.peak address ≤ detail.paidTo address := by
  induction alternative with
  | nil => simp [IsIn, peak]
  | cons first rest ih =>
    rw [List.all_cons, Bool.and_eq_true, ih, pays_iff]
    constructor
    · rintro ⟨⟨hcurrency, hamount⟩, hin, hpeak⟩
      refine ⟨List.forall_mem_cons.mpr ⟨hcurrency, hin⟩, fun address => ?_⟩
      rw [peak]
      split_ifs with h
      · exact max_le (h ▸ hamount) (hpeak address)
      · exact max_le (Nat.zero_le _) (hpeak address)
    · rintro ⟨hin, hpeak⟩
      obtain ⟨hcurrency, hin⟩ := List.forall_mem_cons.mp hin
      refine ⟨⟨hcurrency, ?_⟩, hin, fun address => ?_⟩
      · exact (amount_le_peak List.mem_cons_self).trans (hpeak _)
      · exact (le_max_right _ _).trans (hpeak address)

/-- A payment that covers everything is accepted. -/
theorem Covers.pays (h : detail.Covers alternative) : alternative.all detail.pays = true := by
  rw [List.all_eq_true]
  intro item hitem
  obtain ⟨hcurrency, hdue⟩ := h item hitem
  refine pays_iff.mpr ⟨hcurrency, ?_⟩
  exact ((amount_le_peak hitem).trans peak_le_due).trans hdue

end PaymentDetail

open PaymentAlternative

/-! ## Acceptance -/

theorem acceptablePayment_iff_pays {r : Reservoir} (hauto : r.autoVerify = false)
    {detail : PaymentDetail} {payments : List PaymentAlternative} :
    r.acceptablePayment (some detail) payments = true ↔
      ∃ alternative ∈ payments, alternative.all detail.pays = true := by
  rw [Reservoir.acceptablePayment, hauto, Bool.false_or, Option.any_some, PaymentDetail.paysOne,
    List.any_eq_true]

/-- Whatever was paid, it is accepted exactly if it covers everything that some alternative asks
for. -/
def Reservoir.AcceptsCovered (r : Reservoir) (payments : List PaymentAlternative) : Prop :=
  ∀ detail : PaymentDetail, r.acceptablePayment (some detail) payments = true ↔
    ∃ alternative ∈ payments, detail.Covers alternative

/-- The payments to one address are not split up: for every alternative there is one in the same
currency that asks for no more than the largest payments of the first. -/
def Unsplit (payments : List PaymentAlternative) : Prop :=
  ∀ alternative ∈ payments, ∀ currency, alternative.IsIn currency →
    ∃ other ∈ payments, other.IsIn currency ∧ other.Within alternative

theorem acceptsCovered_iff {r : Reservoir} (hauto : r.autoVerify = false)
    {payments : List PaymentAlternative} : r.AcceptsCovered payments ↔ Unsplit payments := by
  constructor
  · intro h alternative hmem currency hin
    -- the least payment that is accepted has to cover some alternative
    have hpays : alternative.all (PaymentDetail.least currency alternative).pays = true := by
      refine PaymentDetail.all_pays_iff.mpr ⟨?_, fun address => ?_⟩
      · rwa [PaymentDetail.currency_least]
      · rw [PaymentDetail.paidTo_least]
    obtain ⟨other, hother, hcovers⟩ :=
      (h _).mp ((acceptablePayment_iff_pays hauto).mpr ⟨alternative, hmem, hpays⟩)
    refine ⟨other, hother, fun item hitem => ?_, fun item hitem => ?_⟩
    · rw [(hcovers item hitem).1, PaymentDetail.currency_least]
    · rw [← PaymentDetail.paidTo_least]
      exact (hcovers item hitem).2
  · intro h detail
    rw [acceptablePayment_iff_pays hauto]
    constructor
    · rintro ⟨alternative, hmem, hpays⟩
      obtain ⟨hin, hpeak⟩ := PaymentDetail.all_pays_iff.mp hpays
      obtain ⟨other, hother, hin', hwithin⟩ := h alternative hmem _ hin
      refine ⟨other, hother, fun item hitem => ⟨hin' item hitem, ?_⟩⟩
      exact (hwithin item hitem).trans (hpeak _)
    · rintro ⟨alternative, hmem, hcovers⟩
      exact ⟨alternative, hmem, hcovers.pays⟩

/-! ## The alternatives of `getPayments` -/

/-- The fees in a currency: no address occurs twice, and no payment is of nothing. -/
structure Fees (currency : Currency) (alternative : PaymentAlternative) : Prop where
  nodup : (alternative.map Payment.address).Nodup
  isIn : alternative.IsIn currency
  amount : ∀ item ∈ alternative, item.amount ≠ 0

section Alternatives

variable {env : Env} {v : View} {transferBlockNumber issueBlockNumber : UInt64}
  {payments : List PaymentAlternative} {alternative : PaymentAlternative} {currency : Currency}

theorem requirePayment_eq_ok {p : Option Payment} {item : Payment} :
    requirePayment p = .ok item ↔ p = some item := by
  cases p <;> simp [requirePayment]

/-- The payments that `getPayment` makes for a currency. -/
theorem getPayment_slots {blockNumber : UInt64} {segment : PaymentSegment}
    (h : getPayment env v blockNumber = .ok (some segment)) :
    (∀ p, segment.bitcoin = some p → ∃ address, p = Currency.bitcoin.payment address) ∧
      ∀ p, segment.litecoin = some p → ∃ address, p = Currency.litecoin.payment address := by
  unfold getPayment at h
  split_ifs at h
  · cases h
  split at h
  · cases h
  · split at h
    · cases h
    · obtain ⟨-, -, h⟩ := bind_eq_ok.mp h
      cases h
      constructor <;>
      · intro p hp
        obtain ⟨address, -, rfl⟩ := Option.map_eq_some_iff.mp hp
        exact ⟨address, rfl⟩

theorem fees_double (hc : currency = .bitcoin ∨ currency = .litecoin) (address : Bytes) :
    Fees currency [⟨currency, address, currency.getFee + currency.getFee⟩] := by
  refine ⟨List.nodup_singleton _, ?_, ?_⟩
  · simp [IsIn]
  · rcases hc with rfl | rfl <;> simp [Currency.getFee]

/-- What the last transfer adds to the fees for the issue. -/
theorem mergePayment_fees (hc : currency = .bitcoin ∨ currency = .litecoin) {ip tp : Option Payment}
    (hip : ∀ p, ip = some p → ∃ address, p = currency.payment address)
    (htp : ∀ p, tp = some p → ∃ address, p = currency.payment address)
    (h : mergePayment ip tp = .ok alternative) : Fees currency alternative := by
  obtain ⟨p, hp, h⟩ := bind_eq_ok.mp h
  obtain ⟨address, rfl⟩ := htp p (requirePayment_eq_ok.mp hp)
  obtain ⟨p, hp, h⟩ := bind_eq_ok.mp h
  obtain ⟨address', rfl⟩ := hip p (requirePayment_eq_ok.mp hp)
  obtain ⟨⟨⟩, -, h⟩ := bind_eq_ok.mp h
  split_ifs at h with hsame
  · cases h
    exact fees_double hc address'
  · cases h
    refine ⟨?_, ?_, ?_⟩
    · have hne : address' ≠ address := fun heq => hsame heq.symm
      simpa [Currency.payment] using hne
    · simp [IsIn, Currency.payment]
    · rcases hc with rfl | rfl <;> simp [Currency.payment, Currency.getFee]

/-- What is paid for the issue alone. -/
theorem doublePayment_fees (hc : currency = .bitcoin ∨ currency = .litecoin) {ip : Option Payment}
    (hip : ∀ p, ip = some p → ∃ address, p = currency.payment address)
    (h : (do
      let ip ← requirePayment ip
      return [{ ip with amount := ip.amount * 2 }] : Except Stop PaymentAlternative) =
        .ok alternative) : Fees currency alternative := by
  obtain ⟨p, hp, h⟩ := bind_eq_ok.mp h
  obtain ⟨address, rfl⟩ := hip p (requirePayment_eq_ok.mp hp)
  cases h
  have hdouble : currency.getFee * 2 = currency.getFee + currency.getFee := by
    cases currency <;> rfl
  simp only [Currency.payment, hdouble]
  exact fees_double hc address

/-- Without a payment of the previous transfer the alternatives are the fees in each currency. -/
theorem getPayments_fees
    (h : getPayments env v transferBlockNumber issueBlockNumber none = .ok payments) :
    ∃ bitcoin litecoin, payments = [bitcoin, litecoin] ∧ Fees .bitcoin bitcoin ∧
      Fees .litecoin litecoin := by
  obtain ⟨issuePayment, hissue, h⟩ := bind_eq_ok.mp h
  cases issuePayment with
  | none => simp at h
  | some issuePayment =>
    obtain ⟨hbitcoin, hlitecoin⟩ := getPayment_slots hissue
    obtain ⟨transferPayment, htransfer, h⟩ := bind_eq_ok.mp h
    cases transferPayment with
    | none =>
      obtain ⟨payments', hpayments, h⟩ := bind_eq_ok.mp h
      cases h
      cases mapM_eq_ok hpayments with
      | cons hb hrest =>
        cases hrest with
        | cons hl hnil =>
          cases hnil
          exact ⟨_, _, rfl, doublePayment_fees (.inl rfl) hbitcoin hb,
            doublePayment_fees (.inr rfl) hlitecoin hl⟩
    | some transferPayment =>
      obtain ⟨hbitcoin', hlitecoin'⟩ := getPayment_slots htransfer
      obtain ⟨payments', hpayments, h⟩ := bind_eq_ok.mp h
      cases h
      cases mapM_eq_ok hpayments with
      | cons hb hrest =>
        cases hrest with
        | cons hl hnil =>
          cases hnil
          exact ⟨_, _, rfl, mergePayment_fees (.inl rfl) hbitcoin hbitcoin' hb,
            mergePayment_fees (.inr rfl) hlitecoin hlitecoin' hl⟩

theorem Fees.unsplit {bitcoin litecoin : PaymentAlternative} (hb : Fees .bitcoin bitcoin)
    (hl : Fees .litecoin litecoin) : Unsplit [bitcoin, litecoin] := by
  intro alternative hmem currency hin
  refine ⟨alternative, hmem, hin, fun item _ => ?_⟩
  simp only [List.mem_cons, List.not_mem_nil, or_false] at hmem
  rcases hmem with rfl | rfl
  · exact due_le_peak hb.nodup
  · exact due_le_peak hl.nodup

/-- The payment of the previous transfer goes to an address of its own, or is of nothing. -/
def Apart (p : Payment) (fees : PaymentAlternative) : Prop :=
  p.amount = 0 ∨ ∀ item ∈ fees, item.address ≠ p.address

theorem Fees.unsplit_append_iff {p : Payment} (h : Fees p.currency alternative) :
    Unsplit [alternative ++ [p]] ↔ Apart p alternative := by
  have hdue {address : Bytes} : due [p] address =
      peak [p] address := by
    rw [due_cons, peak]
    simp [due, peak]
  have hpeak : peak [p] p.address = p.amount.toNat := by
    simp [peak]
  constructor
  · intro hunsplit
    by_contra hboth
    simp only [Apart, not_or, not_forall, not_not] at hboth
    obtain ⟨hamount, item, hitem, haddress⟩ := hboth
    have hin : IsIn (alternative ++ [p]) p.currency := by
      intro other hother
      rcases List.mem_append.mp hother with hother | hother
      · exact h.isIn other hother
      · rw [List.mem_singleton.mp hother]
    obtain ⟨other, hother, -, hwithin⟩ := hunsplit _ List.mem_cons_self _ hin
    cases List.mem_singleton.mp hother
    have hle := hwithin p (by simp)
    rw [due_append, peak_append, hdue, hpeak] at hle
    have hpos : 0 < alternative.peak p.address := by
      refine Nat.lt_of_lt_of_le (Nat.pos_of_ne_zero ?_)
        (haddress ▸ amount_le_peak hitem)
      exact fun hzero => h.amount item hitem (UInt64.toNat_inj.mp hzero)
    have hpos' : 0 < p.amount.toNat :=
      Nat.pos_of_ne_zero fun hzero => hamount (UInt64.toNat_inj.mp hzero)
    have hge : alternative.peak p.address ≤ alternative.due p.address := peak_le_due
    omega
  · intro hapart other hother currency hin
    refine ⟨other, hother, hin, fun item _ => ?_⟩
    cases List.mem_singleton.mp hother
    rw [due_append, peak_append, hdue]
    have hle : alternative.due item.address ≤ alternative.peak item.address := due_le_peak h.nodup
    rcases eq_or_ne item.address p.address with heq | hne
    · rw [heq] at hle ⊢
      rcases hapart with hzero | hapart
      · rw [hpeak, hzero]
        simpa using hle
      · have hnone : p.address ∉ alternative.map Payment.address := by
          rintro hmem
          obtain ⟨item', hitem', heq'⟩ := List.mem_map.mp hmem
          exact hapart item' hitem' heq'
        rw [due_eq_zero hnone, Nat.zero_add]
        exact le_max_right _ _
    · have hzero : peak [p] item.address = 0 := by
        simp [peak, hne.symm]
      rw [hzero]
      simpa using hle

theorem getPayments_eq_bind (p : Payment) :
    getPayments env v transferBlockNumber issueBlockNumber (some p) =
      getPayments env v transferBlockNumber issueBlockNumber none >>= fun payments => do
        let i ← p.currency.index
        match payments[i]? with
        | none => panicAt .indexOutOfRange
        | some alternative => return [alternative ++ [p]] := by
  rw [getPayments, getPayments]
  rcases getPayment env v issueBlockNumber with _ | _ | issuePayment
  · rfl
  · rfl
  · show (getPayment env v transferBlockNumber >>= _) =
      (getPayment env v transferBlockNumber >>= _) >>= _
    rcases getPayment env v transferBlockNumber with _ | _ | transferPayment
    · rfl
    · simp only [bind, Except.bind]
      split <;> rfl
    · simp only [bind, Except.bind]
      split <;> rfl

/-- With a payment of the previous transfer there is one alternative, that of its currency. -/
theorem getPayments_some {p : Payment}
    (h : getPayments env v transferBlockNumber issueBlockNumber (some p) = .ok payments) :
    ∃ all, getPayments env v transferBlockNumber issueBlockNumber none = .ok all ∧
      ∃ fees ∈ all, Fees p.currency fees ∧ payments = [fees ++ [p]] := by
  rw [getPayments_eq_bind] at h
  obtain ⟨all, hall, h⟩ := bind_eq_ok.mp h
  refine ⟨all, hall, ?_⟩
  obtain ⟨bitcoin, litecoin, rfl, hb, hl⟩ := getPayments_fees hall
  obtain ⟨k, hk, h⟩ := bind_eq_ok.mp h
  obtain ⟨currency, address, amount⟩ := p
  cases currency with
  | nothing => cases hk
  | bitcoin =>
    cases hk
    cases h
    exact ⟨bitcoin, List.mem_cons_self, hb, rfl⟩
  | litecoin =>
    cases hk
    cases h
    exact ⟨litecoin, List.mem_cons_of_mem _ List.mem_cons_self, hl, rfl⟩

end Alternatives

/-- **When a payment is accepted exactly if it covers everything due**: whatever was paid, exactly
if the payments to one address are not split up. For the alternatives of `getPayments` that is so
without a payment of the previous transfer, and with one exactly if it goes to none of the addresses
of the fees, or is of nothing. -/
theorem acceptablePayment_iff_covers {r : Reservoir} (hauto : r.autoVerify = false) :
    (∀ payments, r.AcceptsCovered payments ↔ Unsplit payments) ∧
    ∀ env v transferBlockNumber issueBlockNumber payments,
      (getPayments env v transferBlockNumber issueBlockNumber none = .ok payments →
        r.AcceptsCovered payments) ∧
      ∀ p, getPayments env v transferBlockNumber issueBlockNumber (some p) = .ok payments →
        ∃ all, getPayments env v transferBlockNumber issueBlockNumber none = .ok all ∧
          ∃ fees ∈ all, payments = [fees ++ [p]] ∧
            (r.AcceptsCovered payments ↔ Apart p fees) := by
  refine ⟨fun payments => acceptsCovered_iff hauto, fun env v _ _ payments => ⟨?_, ?_⟩⟩
  · intro h
    obtain ⟨bitcoin, litecoin, rfl, hb, hl⟩ := getPayments_fees h
    exact (acceptsCovered_iff hauto).mpr (hb.unsplit hl)
  · intro p h
    obtain ⟨all, hall, fees, hmem, hfees, rfl⟩ := getPayments_some h
    exact ⟨all, hall, fees, hmem, rfl, (acceptsCovered_iff hauto).trans hfees.unsplit_append_iff⟩

namespace Sample

/-- The previous transfer asks for a payment to another address than that of the fees. -/
theorem acceptablePayment_iff_covers_apart :
    (Reservoir.empty false).AcceptsCovered
      [[⟨.bitcoin, address, 20000⟩, ⟨.bitcoin, [1], 30000⟩]] := by
  obtain ⟨all, hall, fees, hmem, hpayments, hiff⟩ :=
    ((acceptablePayment_iff_covers (r := Reservoir.empty false) rfl).2 env holdings 0 2
      [[⟨.bitcoin, address, 20000⟩, ⟨.bitcoin, [1], 30000⟩]]).2 ⟨.bitcoin, [1], 30000⟩
      (by decide +kernel)
  refine hiff.mpr (Or.inr ?_)
  have hfees : fees = [⟨.bitcoin, address, 20000⟩] := by
    simpa using (List.append_cancel_right
      (show [⟨.bitcoin, address, 20000⟩] ++ [⟨.bitcoin, [1], 30000⟩] = fees ++ _ by
        simpa using hpayments)).symm
  rw [hfees]
  decide +kernel

/-- The owner of the blocks is also paid by the previous transfer: 20000 and 30000 are due, and
30000 is accepted. -/
theorem underpaid_accepted :
    ∃ payments, getPayments env holdings 0 2 (some ⟨.bitcoin, address, 30000⟩) = .ok payments ∧
      ¬ ((Reservoir.empty false).acceptablePayment
          (some ⟨.bitcoin, [], (∅ : Table Bytes UInt64).insert address 30000⟩) payments = true ↔
        ∃ alternative ∈ payments, PaymentDetail.Covers
          ⟨.bitcoin, [], (∅ : Table Bytes UInt64).insert address 30000⟩ alternative) := by
  refine ⟨[[⟨.bitcoin, address, 20000⟩, ⟨.bitcoin, address, 30000⟩]], by decide +kernel, ?_⟩
  decide +kernel

end Sample

end Bitmarkd
