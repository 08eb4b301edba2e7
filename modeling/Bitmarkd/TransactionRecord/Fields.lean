import Bitmarkd.TransactionRecord.Layout

/-!
# Reading the fields of a record

What each field reader of `Unpack` does with the bytes that `Pack` writes for the field: it takes
them off and returns the field, under a condition on the field, and stops if the condition does not
hold. The decoders of the records are sequences of these readers.
-/

namespace Bitmarkd

open Lib Util Reader

/-! ## Fields -/

theorem readUint64_reads (value : UInt64) : ReadsIff True readUint64 (toVarint64 value) value := by
  refine .of_reads (fun rest => ?_) trivial
  simp only [readUint64, fromVarint64_toVarint64, length_toVarint64_ne_zero, if_false,
    List.drop_left]

theorem readLength_reads {minimum k : ℕ} (hk : k < 2 ^ 63) (hmin : minimum < 8192) :
    ReadsIff (minimum ≤ k ∧ k ≤ 8192) (readLength minimum) (toVarint64 (UInt64.ofNat k)) k where
  reads h rest := by
    simp only [readLength, clippedVarint64_toVarint64 hk hmin, if_pos h,
      length_toVarint64_ne_zero, if_false, List.drop_left]
  rejects h rest y hy := by
    simp [readLength, clippedVarint64_toVarint64 hk hmin, if_neg h] at hy

/-- A field of up to 8192 bytes. -/
theorem readField_reads {minimum : ℕ} {data : Bytes} (hlen : data.length ≤ 8192)
    (hmin : minimum ≤ 1) :
    ReadsIff (minimum ≤ data.length) (readField minimum) (packBytes data) data :=
  ((readLength_reads (by omega) (by omega)).bind (.take _ data)).congr (by simp [hlen])

/-- A field that may not be empty. -/
theorem readField_one_reads {data : Bytes} (hlen : data.length ≤ 8192) :
    ReadsIff (data ≠ []) (readField 1) (packBytes data) data :=
  (readField_reads hlen le_rfl).congr (by simp [Nat.one_le_iff_ne_zero])

theorem readName_reads {name : Bytes} (hlen : name.length ≤ 8192) :
    ReadsIff True readName (packBytes name) name := by
  refine .of_reads (fun rest => ?_) trivial
  have htake := (ReadsIff.take (.panic .indexOutOfRange : Stop) name).reads trivial rest
  have hclip := @clippedVarint64_toVarint64 0 8192 name.length (by omega) (by omega) (name ++ rest)
  rw [if_pos ⟨Nat.zero_le _, hlen⟩] at hclip
  simp only [readName, packBytes, List.append_assoc, hclip, List.drop_left, htake]

theorem readAccount_reads (testnet : Bool) (a : Account) :
    ReadsIff (a.isTesting = testnet) (readAccount testnet) (packBytes a.bytes) a := by
  have hlen : a.bytes.length ≤ 8192 := a.length_bytes_le.trans (by decide)
  have hdecode : ReadsIff (Account.accountFromBytes a.bytes = .ok a)
      (Reader.lift (Account.accountFromBytes a.bytes)) [] a :=
    .lift a (by simp [Account.accountFromBytes_bytes])
  have h : ReadsIff _ (readAccount testnet) _ a :=
    .bind (readField_one_reads hlen) (.bind hdecode (.ite a))
  refine ReadsIff.congr (h.of_eq (by simp)) ?_
  have hne : a.bytes ≠ [] := List.cons_ne_nil _ _
  simp [Account.accountFromBytes_bytes, hne]

theorem readDigest_reads (d : Digest) : ReadsIff True readDigest (packBytes d.bytes) d := by
  have hlen : d.bytes.length ≤ 8192 := by
    rw [d.length_eq]
    decide
  have h : ReadsIff _ readDigest _ d :=
    .bind (readField_one_reads hlen) (.lift d (by simp [digestFromBytes]))
  refine ReadsIff.congr (h.of_eq (List.append_nil _)) ?_
  simp [digestFromBytes, List.ne_nil_of_length_pos, d.length_eq]

theorem readAssetIdentifier_reads (d : AssetIdentifier) :
    ReadsIff True readAssetIdentifier (packBytes d.bytes) d := by
  have hlen : d.bytes.length ≤ 8192 := by
    rw [d.length_eq]
    decide
  have h : ReadsIff _ readAssetIdentifier _ d :=
    .bind (readField_one_reads hlen) (.lift d (by simp [assetIdentifierFromBytes]))
  refine ReadsIff.congr (h.of_eq (List.append_nil _)) ?_
  simp [assetIdentifierFromBytes, List.ne_nil_of_length_pos, d.length_eq]

theorem readCurrency_reads (c : Currency) :
    ReadsIff True readCurrency (toVarint64 c.uint64) c := by
  have h : ReadsIff _ readCurrency _ c :=
    .bind (readUint64_reads c.uint64) (.lift c (by simp [Currency.fromUint64_uint64]))
  exact ReadsIff.congr (h.of_eq (List.append_nil _)) (by simp [Currency.fromUint64_uint64])

theorem unpackEscrow_reads {escrow : Option Payment}
    (hlen : ∀ a ∈ escrowAddresses escrow, a.2.length ≤ 8192) :
    ReadsIff (∀ a ∈ escrowAddresses escrow, a.2 ≠ []) unpackEscrow (escrowBytes escrow) escrow := by
  cases escrow with
  | none => exact .of_reads (fun rest => rfl) (by simp [escrowAddresses])
  | some payment =>
    have hlen' : payment.address.length ≤ 8192 := hlen _ List.mem_cons_self
    have hflag : ReadsIff True readByte [1] 1 := .of_reads (fun rest => rfl) trivial
    have h : ReadsIff _ unpackEscrow _ (some payment) :=
      .bind hflag (.bind (readCurrency_reads payment.currency) (.bind (readField_one_reads hlen')
        (.bind (readUint64_reads payment.amount) (.pure (some payment)))))
    refine ReadsIff.congr (h.of_eq ?_) ?_
    · simp [escrowBytes]
    · simp [escrowAddresses]

/-! ## Payment maps -/

/-- One entry of a packed payment map. -/
theorem unpackMapLoop_entry {env : Env} {testnet : Bool} {fuel : ℕ} {c : Currency}
    {address rest : Bytes} {m : Currency.Map} {cs : Currency.Set} (hc : c ≠ .nothing)
    (hne : address ≠ []) (hlen : address.length ≤ 255) :
    Currency.unpackMapLoop env testnet (fuel + 1)
        (toVarint64 c.uint64 ++ (packBytes address ++ rest)) m cs =
      (c.validateAddress env address testnet >>= fun _ =>
        Currency.unpackMapLoop env testnet fuel rest (m.set c address) (cs.add c).1) := by
  have hbuffer : toVarint64 c.uint64 ++ (packBytes address ++ rest) ≠ [] := by
    intro h
    exact toVarint64_ne_nil _ (List.append_eq_nil_iff.mp h).1
  have hclip := @clippedVarint64_toVarint64 1 255 address.length (by omega) (by omega)
    (address ++ rest)
  rw [if_pos ⟨Nat.one_le_iff_ne_zero.mpr (by simpa using hne), hlen⟩] at hclip
  rw [Currency.unpackMapLoop, if_neg hbuffer]
  simp only [fromVarint64_toVarint64, length_toVarint64_ne_zero, Currency.fromUint64_uint64, hc,
    List.drop_left, packBytes, List.append_assoc, hclip, failIf, panicIf, List.take_left, bind,
    Except.bind]
  simp

/-- The map that `checkPayments` accepts, with addresses of up to 255 bytes. -/
def Currency.Map.Standard (m : Currency.Map) : Prop :=
  ∃ b l : Bytes, m = ⟨none, some b, some l⟩ ∧ b ≠ [] ∧ b.length ≤ 255 ∧ l ≠ [] ∧ l.length ≤ 255

theorem length_packBytes_le (data : Bytes) : (packBytes data).length ≤ 9 + data.length := by
  have h := length_toVarint64_le (UInt64.ofNat data.length)
  rw [packBytes, List.length_append]
  omega

namespace Currency.Map.Standard

variable {env : Env} {testnet : Bool} {version : UInt64} {b l : Bytes}

theorem bytes_eq (hb : b ≠ []) (hl : l ≠ []) :
    Currency.Map.bytes ⟨none, some b, some l⟩ =
      toVarint64 Currency.bitcoin.uint64 ++ (packBytes b ++
        (toVarint64 Currency.litecoin.uint64 ++ (packBytes l ++ []))) := by
  simp [Currency.Map.bytes, Currency.Map.get, hb, hl]

theorem length_le {m : Currency.Map} (h : m.Standard) : m.bytes.length ≤ 8192 := by
  obtain ⟨b, l, rfl, hb, hb', hl, hl'⟩ := h
  have h₁ := length_packBytes_le b
  have h₂ := length_packBytes_le l
  have h₃ := length_toVarint64_le Currency.bitcoin.uint64
  have h₄ := length_toVarint64_le Currency.litecoin.uint64
  simp only [bytes_eq hb hl, List.length_append, List.length_nil]
  omega

theorem unpackMap_bytes {m : Currency.Map} (h : m.Standard) :
    Currency.unpackMap env m.bytes testnet = (do
      Currency.bitcoin.validateAddress env (m.bitcoin.getD []) testnet
      Currency.litecoin.validateAddress env (m.litecoin.getD []) testnet
      return (m, Currency.makeSet [.bitcoin, .litecoin])) := by
  obtain ⟨b, l, rfl, hb, hb', hl, hl'⟩ := h
  have hlength : ∃ fuel, (Currency.Map.bytes ⟨none, some b, some l⟩).length = fuel + 1 + 1 := by
    have h₁ := length_toVarint64_ne_zero Currency.bitcoin.uint64
    have h₂ := length_toVarint64_ne_zero Currency.litecoin.uint64
    refine ⟨(Currency.Map.bytes ⟨none, some b, some l⟩).length - 2, ?_⟩
    simp only [bytes_eq hb hl, List.length_append]
    omega
  obtain ⟨fuel, hfuel⟩ := hlength
  rw [Currency.unpackMap, if_neg (by omega), hfuel, bytes_eq hb hl,
    unpackMapLoop_entry (by decide) hb hb']
  refine congrArg _ (funext fun _ => ?_)
  rw [unpackMapLoop_entry (by decide) hl hl']
  refine congrArg _ (funext fun _ => ?_)
  cases fuel <;> rfl

/-- The check of a map of this form. -/
theorem checkPayments_eq_ok_iff {m : Currency.Map} (h : m.Standard) :
    checkPayments env version testnet m = .ok () ↔ version = 1 ∧
      Currency.bitcoin.validateAddress env (m.bitcoin.getD []) testnet = .ok () ∧
      Currency.litecoin.validateAddress env (m.litecoin.getD []) testnet = .ok () := by
  constructor
  · intro hcheck
    obtain ⟨b, l, rfl, hb, hl⟩ := checkPayments_eq_ok hcheck
    refine ⟨?_, hb, hl⟩
    unfold checkPayments at hcheck
    split at hcheck
    · simp at hcheck
    next required hrequired =>
      obtain ⟨⟨⟩, hone, -⟩ := bind_eq_ok.mp hcheck
      exact (paymentVersions_eq_some.mp ⟨hrequired, failIf_eq_ok.mp hone⟩).1
  · obtain ⟨b, l, rfl, -, -, -, -⟩ := h
    rintro ⟨rfl, hb, hl⟩
    have hrequired := (paymentVersions_eq_some.mpr ⟨rfl, rfl⟩).1
    simp only [Option.getD_some] at hb hl
    simp only [checkPayments, hrequired, Currency.Map.entries, Currency.Map.get,
      List.filterMap_cons, List.filterMap_nil, Option.map_some, Option.map_none,
      checkPaymentsLoop, hb, hl, bind, Except.bind]
    decide

/-- The map of a block record of this version. -/
theorem unpackMap_reads {m : Currency.Map} (h : m.Standard) :
    ReadsIff (checkPayments env 1 testnet m = .ok ())
      (readField 1 >>= fun field =>
        Reader.lift (Currency.unpackMap env field testnet) >>= fun found =>
          if found.2 ≠ Currency.makeSet [.bitcoin, .litecoin] then
            Reader.fail (.fault .invalidCurrencyAddress)
          else pure (1, found.1))
      (packBytes m.bytes) ((1 : UInt64), m) := by
  have hne : m.bytes ≠ [] := by
    obtain ⟨b, l, rfl, hb, -, hl, -⟩ := h
    intro hnil
    rw [bytes_eq hb hl] at hnil
    exact toVarint64_ne_nil _ (List.append_eq_nil_iff.mp hnil).1
  have hlift : ReadsIff (Currency.unpackMap env m.bytes testnet =
      .ok (m, Currency.makeSet [.bitcoin, .litecoin]))
      (Reader.lift (Currency.unpackMap env m.bytes testnet)) []
      (m, Currency.makeSet [.bitcoin, .litecoin]) := by
    refine .lift _ fun found hfound => ?_
    rw [h.unpackMap_bytes] at hfound
    obtain ⟨⟨⟩, -, hfound⟩ := bind_eq_ok.mp hfound
    obtain ⟨⟨⟩, -, hfound⟩ := bind_eq_ok.mp hfound
    exact (Except.ok.inj hfound).symm
  refine ReadsIff.congr (.of_eq (.bind (readField_one_reads h.length_le) (.bind hlift (.ite _)))
    (by simp)) ?_
  simp [hne, h.unpackMap_bytes, h.checkPayments_eq_ok_iff, bind_eq_ok, pure, Except.pure,
    Unique.exists_iff]

/-- The version and the map of a block record. -/
theorem readPayments_reads {m : Currency.Map} (h : m.Standard) :
    ReadsIff (checkPayments env version testnet m = .ok ()) (readPayments env testnet)
      (toVarint64 version ++ packBytes m.bytes) (version, m) := by
  refine ReadsIff.congr (.bind (d := checkPayments env version testnet m = .ok ())
    (readUint64_reads version) ?_) (by simp)
  by_cases hversion : version = 1
  · subst hversion
    exact h.unpackMap_reads
  · refine ⟨fun hcheck => absurd (h.checkPayments_eq_ok_iff.mp hcheck).1 hversion, fun _ => ?_⟩
    intro rest y hy
    cases hrequired : paymentVersions[version.toNat]? with
    | none =>
      rw [hrequired] at hy
      cases hy
    | some required =>
      simp only [hrequired] at hy
      split at hy
      · cases hy
      next hone => exact hversion (paymentVersions_eq_some.mp ⟨hrequired, hone⟩).1

end Currency.Map.Standard

theorem Currency.Map.Standard.of_check {env : Env} {version : UInt64} {testnet : Bool}
    {m : Currency.Map} (h : checkPayments env version testnet m = .ok ()) : m.Standard := by
  obtain ⟨b, l, rfl, hb, hl⟩ := checkPayments_eq_ok h
  have hb' := Currency.length_of_validateAddress (by decide) hb
  have hl' := Currency.length_of_validateAddress (by decide) hl
  refine ⟨b, l, rfl, ?_, by omega, ?_, by omega⟩
  · rintro rfl
    exact validateAddress_nil (by decide) hb
  · rintro rfl
    exact validateAddress_nil (by decide) hl

end Bitmarkd
