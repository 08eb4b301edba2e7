import Bitmarkd.Sample

/-!
# The packed form of a payment map

`currency/mapped.go`. A packed map is a sequence of items: a currency, the length of the address,
and the address (`Item`). `Pack` writes one item for each entry, in the order of the currencies and
with the shortest form of each number. `UnpackMap` reads any sequence of items
(`unpackMap_of_encodes`).

**What is packed unpacks** to the same map, unless it is empty. But **not everything that unpacks is
packed**: of two items for one currency the second overwrites the first, items may come in any
order, numbers may be padded, and where the buffer ends inside an address `UnpackMap` goes beyond
its end. Apart from these, what `UnpackMap` returns stands for the buffer
(`currency_map_faithful_iff`).
-/

namespace Bitmarkd.Currency

open Lib Util

/-! ## Items -/

/-- One encoded entry: the bytes of its currency, the bytes of the length, and the address. -/
structure Item where
  code : Bytes
  currency : Currency
  lengthCode : Bytes
  address : Bytes
deriving DecidableEq

/-- The bytes before an address: a currency and the length of the address. -/
structure Heads (code : Bytes) (currency : Currency) (lengthCode : Bytes) (k : ℕ) : Prop where
  read : fromVarint64 code = (currency.uint64, code.length)
  ne_nil : code ≠ []
  real : currency ≠ .nothing
  readLength : clippedVarint64 lengthCode 1 255 = (k, lengthCode.length)
  length_ne_nil : lengthCode ≠ []

namespace Item

def bytes (i : Item) : Bytes := i.code ++ i.lengthCode ++ i.address

/-- The entry of the map that the item stands for. -/
def entry (i : Item) : Currency × Bytes := (i.currency, i.address)

structure Valid (env : Env) (testnet : Bool) (i : Item) : Prop where
  heads : Heads i.code i.currency i.lengthCode i.address.length
  address : i.currency.validateAddress env i.address testnet = .ok ()

/-- The item that `Pack` writes. -/
def packed (entry : Currency × Bytes) : Item :=
  ⟨toVarint64 entry.1.uint64, entry.1, toVarint64 (UInt64.ofNat entry.2.length), entry.2⟩

end Item

/-- The bytes of a list of items. -/
def itemBytes (items : List Item) : Bytes := (items.map Item.bytes).flatten

/-- The buffer is a sequence of items. -/
structure Encodes (env : Env) (testnet : Bool) (items : List Item) (buffer : Bytes) : Prop where
  valid : ∀ i ∈ items, i.Valid env testnet
  bytes : itemBytes items = buffer

/-- The buffer ends inside the address of an item. -/
def CutShort (env : Env) (testnet : Bool) (buffer : Bytes) : Prop :=
  ∃ items code currency lengthCode k part, (∀ i ∈ items, i.Valid env testnet) ∧
    Heads code currency lengthCode k ∧ part.length < k ∧
    buffer = itemBytes items ++ (code ++ lengthCode ++ part)

/-- The items are in the order of the currencies, and as `Pack` writes them. -/
structure Canonical (items : List Item) : Prop where
  ordered : items.Pairwise fun i j => i.currency.uint64 < j.currency.uint64
  packed : ∀ i ∈ items, i = Item.packed i.entry

/-- The items that `Pack` writes for a map. -/
def Map.items (m : Map) : List Item := m.entries.map Item.packed

theorem itemBytes_nil : itemBytes [] = [] := rfl

theorem itemBytes_cons (i : Item) (items : List Item) :
    itemBytes (i :: items) = i.bytes ++ itemBytes items := by
  rw [itemBytes, List.map_cons, List.flatten_cons, itemBytes]

section Reading

variable {env : Env} {testnet : Bool} {code lengthCode buffer rest : Bytes} {currency : Currency}
  {k fuel : ℕ} {m : Map} {cs : Set}

theorem fromUint64_eq_ok {n : UInt64} (h : fromUint64 n = .ok currency) : n = currency.uint64 := by
  unfold fromUint64 at h
  split_ifs at h with h₀ h₁ h₂
  · cases h
    exact h₀
  · cases h
    exact h₁
  · cases h
    exact h₂
  · cases h

theorem Heads.fromVarint64_append (h : Heads code currency lengthCode k) (rest : Bytes) :
    fromVarint64 (code ++ rest) = (currency.uint64, code.length) := by
  have hread := (fromVarint64_stable h.read (by simpa using h.ne_nil)).2 rest
  rwa [List.take_length] at hread

theorem Heads.clippedVarint64_append (h : Heads code currency lengthCode k) (rest : Bytes) :
    clippedVarint64 (lengthCode ++ rest) 1 255 = (k, lengthCode.length) := by
  have hread := (clippedVarint64_stable h.readLength (by simpa using h.length_ne_nil)).2 rest
  rwa [List.take_length] at hread

/-- A turn of the loop, after the numbers before the address have been read. -/
theorem unpackMapLoop_heads (h : Heads code currency lengthCode k) :
    unpackMapLoop env testnet (fuel + 1) (code ++ lengthCode ++ rest) m cs = (do
      panicIf (k > rest.length) .indexOutOfRange
      validateAddress env currency (rest.take k) testnet
      unpackMapLoop env testnet fuel (rest.drop k) (m.set currency (rest.take k))
        (cs.add currency).1) := by
  have hne : code ++ lengthCode ++ rest ≠ [] := by simp [h.ne_nil]
  have hcode := h.fromVarint64_append (lengthCode ++ rest)
  have hlength := h.clippedVarint64_append rest
  have hcount : code.length ≠ 0 := by simpa using h.ne_nil
  have hoffset : lengthCode.length ≠ 0 := by simpa using h.length_ne_nil
  rw [unpackMapLoop, if_neg hne, List.append_assoc, hcode]
  simp only [failIf, hcount, fromUint64_uint64, h.real, List.drop_left, hlength, hoffset, if_false,
    bind, Except.bind]

/-- A turn of the loop on an item. -/
theorem unpackMapLoop_item {i : Item} (h : i.Valid env testnet) :
    unpackMapLoop env testnet (fuel + 1) (i.bytes ++ rest) m cs =
      unpackMapLoop env testnet fuel rest (m.set i.currency i.address) (cs.add i.currency).1 := by
  have hlength : ¬ i.address.length > (i.address ++ rest).length := by simp
  rw [Item.bytes, List.append_assoc, unpackMapLoop_heads h.heads, panicIf, if_neg hlength,
    List.take_left, List.drop_left]
  simp only [h.address, bind, Except.bind]

/-- A turn of the loop on an address that is cut short. -/
theorem unpackMapLoop_cut {part : Bytes} (h : Heads code currency lengthCode k)
    (hpart : part.length < k) :
    unpackMapLoop env testnet (fuel + 1) (code ++ lengthCode ++ part) m cs =
      panicAt .indexOutOfRange := by
  rw [unpackMapLoop_heads h, panicIf, if_pos hpart]
  rfl

theorem Item.Valid.length_pos {i : Item} (h : i.Valid env testnet) : 0 < i.bytes.length := by
  rw [Item.bytes, List.append_assoc, List.length_append]
  have hpos := List.length_pos_iff.mpr h.heads.ne_nil
  omega

/-- Of two items at the front of the same bytes the first is the second. -/
theorem Item.Valid.unique {i i' : Item} {rest rest' : Bytes} (h : i.Valid env testnet)
    (h' : i'.Valid env testnet) (hbytes : i.bytes ++ rest = i'.bytes ++ rest') :
    i = i' ∧ rest = rest' := by
  obtain ⟨code, currency, lengthCode, address⟩ := i
  obtain ⟨code', currency', lengthCode', address'⟩ := i'
  simp only [Item.bytes, List.append_assoc] at hbytes
  have hcode := h.heads.fromVarint64_append (lengthCode ++ (address ++ rest))
  rw [hbytes, h'.heads.fromVarint64_append] at hcode
  obtain ⟨hcurrency, hcodeLength⟩ := Prod.mk.inj hcode
  obtain ⟨rfl, hafter⟩ := List.append_inj hbytes hcodeLength.symm
  have hlength := h.heads.clippedVarint64_append (address ++ rest)
  dsimp only at hlength
  rw [hafter, h'.heads.clippedVarint64_append] at hlength
  obtain ⟨haddress, hlengthLength⟩ := Prod.mk.inj hlength
  obtain ⟨rfl, hlast⟩ := List.append_inj hafter hlengthLength.symm
  obtain ⟨rfl, hrest⟩ := List.append_inj hlast haddress.symm
  have hsame : currency = currency' := by
    have hok := fromUint64_uint64 currency
    rw [← hcurrency, fromUint64_uint64] at hok
    exact (Except.ok.inj hok).symm
  exact ⟨by rw [hsame], hrest⟩

/-- The loop on a sequence of items sets them one after the other. -/
theorem unpackMapLoop_items (m : Map) (cs : Set) {items : List Item}
    (h : ∀ i ∈ items, i.Valid env testnet) (hfuel : (itemBytes items ++ rest).length ≤ fuel) :
    ∃ fuel', rest.length ≤ fuel' ∧ unpackMapLoop env testnet fuel (itemBytes items ++ rest) m cs =
      unpackMapLoop env testnet fuel' rest (items.foldl (fun m i => m.set i.currency i.address) m)
        (items.foldl (fun cs i => (cs.add i.currency).1) cs) := by
  induction items generalizing fuel m cs with
  | nil => exact ⟨fuel, hfuel, rfl⟩
  | cons i items ih =>
    obtain ⟨hi, hitems⟩ := List.forall_mem_cons.mp h
    have hpos := hi.length_pos
    rw [itemBytes_cons, List.append_assoc] at hfuel ⊢
    rw [List.length_append] at hfuel
    obtain ⟨fuel, rfl⟩ : ∃ n, fuel = n + 1 := ⟨fuel - 1, by omega⟩
    rw [unpackMapLoop_item hi]
    exact ih _ _ hitems (by omega)

theorem unpackMapLoop_nil : unpackMapLoop env testnet fuel [] m cs = .ok (m, cs) := by
  cases fuel with
  | zero => rfl
  | succ fuel => rw [unpackMapLoop, if_pos rfl]

/-- **What a turn of the loop finds**: it returns an error, the buffer ends inside an address, or
there is an item. -/
theorem unpackMapLoop_cases (env : Env) (testnet : Bool) (fuel : ℕ) (hne : buffer ≠ []) :
    (∃ e, ∀ m cs, unpackMapLoop env testnet (fuel + 1) buffer m cs = fault e) ∨
    CutShort env testnet buffer ∨
    ∃ (i : Item) (rest : Bytes), i.Valid env testnet ∧ buffer = i.bytes ++ rest := by
  rcases hread : fromVarint64 buffer with ⟨c, count⟩
  by_cases hcount : count = 0
  · refine Or.inl ⟨.invalidCurrency, fun m cs => ?_⟩
    rw [unpackMapLoop, if_neg hne, hread]
    simp only [failIf, hcount, if_true, bind, Except.bind, fault]
  rcases hcurrency : fromUint64 c with e | currency
  · have he : e = .fault .invalidCurrency := by
      unfold fromUint64 at hcurrency
      split_ifs at hcurrency
      cases hcurrency
      rfl
    refine Or.inl ⟨.invalidCurrency, fun m cs => ?_⟩
    rw [unpackMapLoop, if_neg hne, hread]
    simp only [failIf, hcount, if_false, hcurrency, he, bind, Except.bind, fault]
  obtain rfl := fromUint64_eq_ok hcurrency
  by_cases hreal : currency = .nothing
  · refine Or.inl ⟨.invalidCurrency, fun m cs => ?_⟩
    rw [unpackMapLoop, if_neg hne, hread]
    simp only [failIf, hcount, if_false, fromUint64_uint64, hreal, if_true, bind, Except.bind,
      fault]
  rcases hlength : clippedVarint64 (buffer.drop count) 1 255 with ⟨k, offset⟩
  by_cases hoffset : offset = 0
  · refine Or.inl ⟨.invalidCount, fun m cs => ?_⟩
    rw [unpackMapLoop, if_neg hne, hread]
    simp only [failIf, hcount, if_false, hcurrency, hreal, hlength, hoffset, if_true, bind,
      Except.bind, fault]
  -- the bytes of the currency, those of the length, and the rest
  obtain ⟨hcodeLe, hcode⟩ := fromVarint64_stable hread hcount
  obtain ⟨hlengthLe, hlengthCode⟩ := clippedVarint64_stable hlength hoffset
  have hcodeLength : (buffer.take count).length = count := List.length_take_of_le hcodeLe
  have hcodeLength' : ((buffer.drop count).take offset).length = offset :=
    List.length_take_of_le hlengthLe
  have hheads : Heads (buffer.take count) currency ((buffer.drop count).take offset) k := by
    refine ⟨?_, ?_, hreal, ?_, ?_⟩
    · simpa [hcodeLength] using hcode []
    · exact List.ne_nil_of_length_pos (by omega)
    · simpa [hcodeLength'] using hlengthCode []
    · exact List.ne_nil_of_length_pos (by omega)
  have hbuffer : buffer = buffer.take count ++ (buffer.drop count).take offset ++
      (buffer.drop count).drop offset := by
    rw [List.append_assoc, List.take_append_drop, List.take_append_drop]
  generalize hrest : (buffer.drop count).drop offset = rest at hbuffer
  by_cases hpart : rest.length < k
  · exact Or.inr (Or.inl ⟨[], _, _, _, k, rest, by simp, hheads, hpart, hbuffer⟩)
  have htake : (rest.take k).length = k := List.length_take_of_le (Nat.le_of_not_lt hpart)
  rcases haddress : currency.validateAddress env (rest.take k) testnet with e | ⟨⟩
  · obtain ⟨f, rfl⟩ := validateAddress_returns currency (rest.take k) testnet e haddress
    refine Or.inl ⟨f, fun m cs => ?_⟩
    rw [hbuffer, unpackMapLoop_heads hheads]
    simp only [panicIf, gt_iff_lt, hpart, if_false, haddress, bind, Except.bind, fault]
  · refine Or.inr (Or.inr ⟨⟨buffer.take count, currency, (buffer.drop count).take offset,
      rest.take k⟩, rest.drop k, ⟨?_, haddress⟩, ?_⟩)
    · rwa [htake]
    · rw [Item.bytes, List.append_assoc _ (rest.take k), List.take_append_drop]
      exact hbuffer

/-- **What the loop finds.** -/
theorem unpackMapLoop_outcome (env : Env) (testnet : Bool) (hfuel : buffer.length ≤ fuel) :
    (∃ e, ∀ m cs, unpackMapLoop env testnet fuel buffer m cs = fault e) ∨
    CutShort env testnet buffer ∨ ∃ items, Encodes env testnet items buffer := by
  induction fuel generalizing buffer with
  | zero =>
    have hnil := List.length_eq_zero_iff.mp (Nat.le_zero.mp hfuel)
    exact Or.inr (Or.inr ⟨[], by simp, by rw [hnil]; rfl⟩)
  | succ fuel ih =>
    by_cases hne : buffer = []
    · exact Or.inr (Or.inr ⟨[], by simp, by rw [hne]; rfl⟩)
    rcases unpackMapLoop_cases env testnet fuel hne with hfault | hcut | ⟨i, rest, hi, rfl⟩
    · exact Or.inl hfault
    · exact Or.inr (Or.inl hcut)
    · have hpos := hi.length_pos
      rw [List.length_append] at hfuel
      have hrest : rest.length ≤ fuel := by omega
      rcases ih hrest with ⟨e, he⟩ | hcut | ⟨items, hitems⟩
      · refine Or.inl ⟨e, fun m cs => ?_⟩
        rw [unpackMapLoop_item hi, he]
      · obtain ⟨items, code, currency, lengthCode, k, part, hvalid, hheads, hpart, rfl⟩ := hcut
        refine Or.inr (Or.inl ⟨i :: items, code, currency, lengthCode, k, part, ?_, hheads, hpart,
          ?_⟩)
        · exact List.forall_mem_cons.mpr ⟨hi, hvalid⟩
        · rw [itemBytes_cons, List.append_assoc i.bytes]
      · refine Or.inr (Or.inr ⟨i :: items, List.forall_mem_cons.mpr ⟨hi, hitems.valid⟩, ?_⟩)
        rw [itemBytes_cons, hitems.bytes]

/-- The map and the set of a list of items. -/
def readItems (items : List Item) : Map × Set :=
  (items.foldl (fun m i => m.set i.currency i.address) Map.empty,
    items.foldl (fun cs i => (cs.add i.currency).1) Set.empty)

theorem two_le_length_heads (h : Heads code currency lengthCode k) (part : Bytes) :
    2 ≤ (code ++ lengthCode ++ part).length := by
  have hcode := List.length_pos_iff.mpr h.ne_nil
  have hlength := List.length_pos_iff.mpr h.length_ne_nil
  simp only [List.length_append]
  omega

theorem unpackMap_of_encodes {items : List Item} (h : Encodes env testnet items buffer)
    (hne : items ≠ []) : unpackMap env buffer testnet = .ok (readItems items) := by
  have hlength : 2 ≤ buffer.length := by
    obtain ⟨i, items, rfl⟩ := List.exists_cons_of_ne_nil hne
    have hi := two_le_length_heads (h.valid i List.mem_cons_self).heads i.address
    rw [← h.bytes, itemBytes_cons, List.length_append]
    exact hi.trans (Nat.le_add_right _ _)
  obtain ⟨fuel, -, hloop⟩ := unpackMapLoop_items Map.empty Set.empty h.valid
    (by rw [List.append_nil, h.bytes] : (itemBytes items ++ []).length ≤ buffer.length)
  rw [List.append_nil, h.bytes, unpackMapLoop_nil] at hloop
  rw [unpackMap, if_neg (Nat.not_lt.mpr hlength), hloop]
  rfl

theorem unpackMap_of_cutShort (h : CutShort env testnet buffer) :
    unpackMap env buffer testnet = panicAt .indexOutOfRange := by
  obtain ⟨items, code, currency, lengthCode, k, part, hvalid, hheads, hpart, rfl⟩ := h
  have hlength := two_le_length_heads hheads part
  obtain ⟨fuel, hfuel, hloop⟩ := unpackMapLoop_items Map.empty Set.empty hvalid
    (le_refl (itemBytes items ++ (code ++ lengthCode ++ part)).length)
  obtain ⟨fuel, rfl⟩ : ∃ n, fuel = n + 1 := ⟨fuel - 1, by omega⟩
  rw [unpackMap, if_neg, hloop, unpackMapLoop_cut hheads hpart]
  rw [List.length_append]
  omega

/-- A buffer is a sequence of items in one way. -/
theorem Encodes.unique {items items' : List Item} (h : Encodes env testnet items buffer)
    (h' : Encodes env testnet items' buffer) : items = items' := by
  obtain ⟨hvalid, rfl⟩ := h
  obtain ⟨hvalid', hbytes⟩ := h'
  induction items generalizing items' with
  | nil =>
    cases items' with
    | nil => rfl
    | cons i' items' =>
      have hpos := (hvalid' i' List.mem_cons_self).length_pos
      have hlength := congrArg List.length hbytes
      rw [itemBytes_cons, List.length_append, itemBytes_nil, List.length_nil] at hlength
      omega
  | cons i items ih =>
    obtain ⟨hi, hitems⟩ := List.forall_mem_cons.mp hvalid
    cases items' with
    | nil =>
      have hpos := hi.length_pos
      have hlength := congrArg List.length hbytes
      rw [itemBytes_cons, List.length_append, itemBytes_nil, List.length_nil] at hlength
      omega
    | cons i' items' =>
      obtain ⟨hi', hitems'⟩ := List.forall_mem_cons.mp hvalid'
      rw [itemBytes_cons, itemBytes_cons] at hbytes
      obtain ⟨rfl, hrest⟩ := hi.unique hi' hbytes.symm
      rw [ih hitems hitems' hrest.symm]

end Reading

/-! ## Packing -/

section Packing

variable {env : Env} {testnet : Bool} {m : Map} {buffer : Bytes}

/-- An item that `Pack` writes is valid if the address is. -/
theorem valid_packed {c : Currency} {address : Bytes} (hc : c ≠ .nothing) (hne : address ≠ [])
    (h : c.validateAddress env address testnet = .ok ()) :
    (Item.packed (c, address)).Valid env testnet := by
  have hlong := length_of_validateAddress hc h
  have hpos := List.length_pos_iff.mpr hne
  have hclip := @clippedVarint64_toVarint64 1 255 address.length (by omega) (by decide) []
  rw [List.append_nil, if_pos ⟨hpos, by omega⟩] at hclip
  have hread := fromVarint64_toVarint64 c.uint64 []
  rw [List.append_nil] at hread
  exact ⟨⟨hread, toVarint64_ne_nil _, hc, hclip, toVarint64_ne_nil _⟩, h⟩

theorem Item.Valid.address_ne_nil {i : Item} (h : i.Valid env testnet) : i.address ≠ [] := by
  intro hnil
  have hlength := h.heads.readLength
  have hcount : i.lengthCode.length ≠ 0 := by simpa using h.heads.length_ne_nil
  rw [hnil, List.length_nil] at hlength
  unfold clippedVarint64 at hlength
  rw [if_neg (by decide)] at hlength
  dsimp only at hlength
  split_ifs at hlength with h₁ h₂
  · exact hcount (Prod.mk.inj hlength).2.symm
  · exact hcount (Prod.mk.inj hlength).2.symm
  · have hvalue := (Prod.mk.inj hlength).1
    omega

/-- The entries of some currencies. -/
def Map.present (m : Map) (cs : List Currency) : List (Currency × Bytes) :=
  cs.filterMap fun c => (m.get c).map (c, ·)

/-- Those that have an address. -/
def Map.addressed (m : Map) (cs : List Currency) : List (Currency × Bytes) :=
  (m.present cs).filter fun e => e.2 ≠ []

theorem packLoop_eq_ok_iff {cs : List Currency} {n : ℕ} :
    m.packLoop env testnet cs = .ok (buffer, n) ↔
      (∀ e ∈ m.addressed cs, e.1.validateAddress env e.2 testnet = .ok ()) ∧
      itemBytes ((m.addressed cs).map Item.packed) = buffer ∧ (m.addressed cs).length = n := by
  induction cs generalizing buffer n with
  | nil => simp [Map.packLoop, Map.addressed, Map.present, itemBytes, eq_comm]
  | cons c cs ih =>
    rcases hget : m.get c with _ | address
    · have hsame : m.addressed (c :: cs) = m.addressed cs := by
        simp [Map.addressed, Map.present, hget]
      rw [hsame, ← ih]
      simp [Map.packLoop, hget]
    by_cases hne : address = []
    · have hsame : m.addressed (c :: cs) = m.addressed cs := by
        simp [Map.addressed, Map.present, hget, hne]
      rw [hsame, ← ih]
      simp [Map.packLoop, hget, hne]
    have hcons : m.addressed (c :: cs) = (c, address) :: m.addressed cs := by
      simp [Map.addressed, Map.present, hget, hne]
    have hloop : m.packLoop env testnet (c :: cs) = (do
        validateAddress env c address testnet
        let rest ← m.packLoop env testnet cs
        return ((Item.packed (c, address)).bytes ++ rest.1, rest.2 + 1)) := by
      simp [Map.packLoop, hget, hne, Item.bytes, Item.packed]
    rw [hcons, hloop, List.forall_mem_cons, List.map_cons, itemBytes_cons, List.length_cons,
      bind_eq_ok]
    constructor
    · rintro ⟨⟨⟩, haddress, h⟩
      obtain ⟨⟨rest, k⟩, hrest, h⟩ := bind_eq_ok.mp h
      obtain ⟨hvalid, rfl, rfl⟩ := ih.mp hrest
      cases h
      exact ⟨⟨haddress, hvalid⟩, rfl, rfl⟩
    · rintro ⟨⟨haddress, hvalid⟩, rfl, rfl⟩
      exact ⟨(), haddress, bind_eq_ok.mpr ⟨_, ih.mpr ⟨hvalid, rfl, rfl⟩, rfl⟩⟩

/-- The scan of `Pack` goes through all entries of a map that has no address for no currency. -/
theorem length_entries_eq_iff : m.entries.length = (m.addressed [.bitcoin, .litecoin]).length ↔
    m.entries = m.addressed [.bitcoin, .litecoin] := by
  refine ⟨fun h => ?_, fun h => by rw [← h]⟩
  obtain ⟨nothing, bitcoin, litecoin⟩ := m
  cases nothing with
  | some address =>
    have hle := List.length_filter_le (fun e : Currency × Bytes => e.2 ≠ [])
      (Map.present ⟨some address, bitcoin, litecoin⟩ [.bitcoin, .litecoin])
    have hcons : Map.entries ⟨some address, bitcoin, litecoin⟩ =
        (.nothing, address) ::
          Map.present ⟨some address, bitcoin, litecoin⟩ [.bitcoin, .litecoin] := rfl
    rw [hcons, List.length_cons, Map.addressed] at h
    omega
  | none =>
    have hsame : Map.entries ⟨none, bitcoin, litecoin⟩ =
        Map.present ⟨none, bitcoin, litecoin⟩ [.bitcoin, .litecoin] := rfl
    rw [hsame] at h ⊢
    exact (List.filter_sublist.eq_of_length h.symm).symm

/-- **`Pack` writes the items of the map**, if they are valid. -/
theorem pack_eq_ok_iff : m.pack env testnet = .ok buffer ↔ Encodes env testnet m.items buffer := by
  have hpack : m.pack env testnet = .ok buffer ↔
      m.packLoop env testnet [.bitcoin, .litecoin] = .ok (buffer, m.entries.length) := by
    unfold Map.pack
    rw [bind_eq_ok]
    constructor
    · rintro ⟨⟨buffer', n⟩, hloop, h⟩
      dsimp only at h
      split_ifs at h with hn
      · cases h
      · cases h
        rw [hloop, not_ne_iff.mp hn]
    · intro hloop
      exact ⟨_, hloop, by simp [pure, Except.pure]⟩
  rw [hpack, packLoop_eq_ok_iff]
  constructor
  · rintro ⟨hvalid, hbytes, hlength⟩
    have hentries := length_entries_eq_iff.mp hlength.symm
    rw [← hentries] at hvalid hbytes
    refine ⟨?_, hbytes⟩
    intro i hi
    obtain ⟨⟨c, address⟩, he, rfl⟩ := List.mem_map.mp hi
    have haddress := hvalid _ he
    rw [hentries] at he
    obtain ⟨hpresent, hne⟩ := List.mem_filter.mp he
    obtain ⟨c', hc', hget⟩ := List.mem_filterMap.mp hpresent
    obtain ⟨address', -, hpair⟩ := Option.map_eq_some_iff.mp hget
    cases hpair
    refine valid_packed ?_ (by simpa using hne) haddress
    rintro rfl
    simp at hc'
  · intro h
    have hvalid : ∀ e ∈ m.entries, (Item.packed e).Valid env testnet := by
      intro e he
      exact h.valid _ (List.mem_map_of_mem he)
    have hentries : m.entries = m.addressed [.bitcoin, .litecoin] := by
      obtain ⟨nothing, bitcoin, litecoin⟩ := m
      cases nothing with
      | some address =>
        have hfirst : (Currency.nothing, address) ∈
            Map.entries ⟨some address, bitcoin, litecoin⟩ := List.mem_cons_self
        exact absurd rfl (hvalid _ hfirst).heads.real
      | none =>
        refine (List.filter_eq_self.mpr ?_).symm
        intro e he
        exact decide_eq_true (hvalid e he).address_ne_nil
    refine ⟨?_, ?_, by rw [hentries]⟩
    · intro e he
      rw [← hentries] at he
      exact (hvalid e he).address
    · rw [← hentries]
      exact h.bytes

theorem canonical_items (m : Map) : Canonical m.items := by
  refine ⟨?_, ?_⟩
  · obtain ⟨_ | nothing, _ | bitcoin, _ | litecoin⟩ := m <;>
      simp [Map.items, Map.entries, Map.get, Item.packed, uint64]
  · intro i hi
    obtain ⟨e, -, rfl⟩ := List.mem_map.mp hi
    rfl

theorem readItems_items (m : Map) :
    readItems m.items = (m, makeSet (m.entries.map Prod.fst)) := by
  obtain ⟨_ | nothing, _ | bitcoin, _ | litecoin⟩ := m
  all_goals rfl

theorem uint64_lt {c c' : Currency} (hc : c ≠ .nothing) (h : c.uint64 < c'.uint64) :
    c = .bitcoin ∧ c' = .litecoin := by
  cases c <;> cases c' <;> simp_all [uint64]

/-- In the order of the currencies there is at most one item for each, as in a map. -/
theorem Canonical.exists_map {items : List Item} (h : Canonical items)
    (hreal : ∀ i ∈ items, i.currency ≠ .nothing) : ∃ m : Map, items = m.items := by
  obtain ⟨hordered, hpacked⟩ := h
  match items, hordered, hpacked, hreal with
  | [], _, _, _ => exact ⟨Map.empty, rfl⟩
  | [i], _, hpacked, hreal =>
    have hi := hpacked i List.mem_cons_self
    rcases hc : i.currency with _ | _ | _
    · exact absurd hc (hreal i List.mem_cons_self)
    · refine ⟨⟨none, some i.address, none⟩, ?_⟩
      rw [hi, Item.entry, hc]
      rfl
    · refine ⟨⟨none, none, some i.address⟩, ?_⟩
      rw [hi, Item.entry, hc]
      rfl
  | [i, j], hordered, hpacked, hreal =>
    have hi := hpacked i List.mem_cons_self
    have hj := hpacked j (by simp)
    rw [List.pairwise_cons] at hordered
    obtain ⟨hci, hcj⟩ := uint64_lt (hreal i List.mem_cons_self) (hordered.1 j List.mem_cons_self)
    refine ⟨⟨none, some i.address, some j.address⟩, ?_⟩
    rw [hi, hj, Item.entry, Item.entry, hci, hcj]
    rfl
  | i :: j :: k :: rest, hordered, _, hreal =>
    rw [List.pairwise_cons, List.pairwise_cons] at hordered
    have hij := uint64_lt (hreal i List.mem_cons_self) (hordered.1 j List.mem_cons_self)
    have hjk := uint64_lt (hreal j (by simp)) (hordered.2.1 k List.mem_cons_self)
    rw [hij.2] at hjk
    cases hjk.1

end Packing

/-! ## What unpacking loses -/

/-- `UnpackMap` returns an error, or a map with one entry for each item of the buffer, which packs
to the buffer again. -/
def UnpacksFaithfully (env : Env) (testnet : Bool) (buffer : Bytes) : Prop :=
  (∃ e, unpackMap env buffer testnet = fault e) ∨
  ∃ m cs items, unpackMap env buffer testnet = .ok (m, cs) ∧ Encodes env testnet items buffer ∧
    m.entries.Perm (items.map Item.entry) ∧ m.pack env testnet = .ok buffer

/-- **The codec of payment maps.** Packing and unpacking gives the map and its currencies back, if
it has an entry. Unpacking stands for the buffer, exactly if the buffer does not end inside an
address, and its items, if it is a sequence of items, are those that `Pack` writes. -/
theorem currency_map_faithful_iff (env : Env) (testnet : Bool) :
    (∀ m buffer, m.pack env testnet = .ok buffer →
      (unpackMap env buffer testnet = .ok (m, makeSet (m.entries.map Prod.fst)) ↔
        m ≠ Map.empty)) ∧
    ∀ buffer, UnpacksFaithfully env testnet buffer ↔
      ¬ CutShort env testnet buffer ∧
        ∀ items, Encodes env testnet items buffer → Canonical items := by
  have hempty : ∀ m : Map, m.items = [] ↔ m = Map.empty := by
    rintro ⟨_ | nothing, _ | bitcoin, _ | litecoin⟩ <;>
      simp [Map.items, Map.entries, Map.get, Map.empty]
  refine ⟨?_, ?_⟩
  · intro m buffer hpack
    have hencodes := pack_eq_ok_iff.mp hpack
    by_cases hm : m = Map.empty
    · have hbuffer : buffer = [] := by
        rw [← hencodes.bytes, (hempty m).mpr hm, itemBytes_nil]
      simp [hm, hbuffer, unpackMap]
    · rw [unpackMap_of_encodes hencodes (mt (hempty m).mp hm), readItems_items]
      simp [hm]
  · intro buffer
    constructor
    · rintro (⟨e, he⟩ | ⟨m, cs, items, hok, hitems, -, hpack⟩)
      · refine ⟨fun hcut => ?_, fun items hitems => ?_⟩
        · rw [unpackMap_of_cutShort hcut] at he
          cases he
        · by_cases hne : items = []
          · rw [hne]
            exact ⟨List.Pairwise.nil, by simp⟩
          · rw [unpackMap_of_encodes hitems hne] at he
            cases he
      · refine ⟨fun hcut => ?_, fun items' hitems' => ?_⟩
        · rw [unpackMap_of_cutShort hcut] at hok
          cases hok
        · rw [hitems'.unique (pack_eq_ok_iff.mp hpack)]
          exact canonical_items m
    · rintro ⟨hcut, hcanonical⟩
      by_cases hlength : buffer.length < 2
      · exact Or.inl ⟨.invalidBuffer, by rw [unpackMap, if_pos hlength]⟩
      rcases unpackMapLoop_outcome env testnet (le_refl buffer.length) with
        ⟨e, he⟩ | hcut' | ⟨items, hitems⟩
      · exact Or.inl ⟨e, by rw [unpackMap, if_neg hlength, he]⟩
      · exact absurd hcut' hcut
      · obtain ⟨m, rfl⟩ := (hcanonical items hitems).exists_map
          fun i hi => (hitems.valid i hi).heads.real
        have hne : m.items ≠ [] := by
          intro hnil
          rw [← hitems.bytes, hnil] at hlength
          exact hlength (by decide)
        refine Or.inr ⟨m, makeSet (m.entries.map Prod.fst), m.items, ?_, hitems, ?_,
          pack_eq_ok_iff.mpr hitems⟩
        · rw [unpackMap_of_encodes hitems hne, readItems_items]
        · rw [Map.items, List.map_map]
          exact .of_eq (List.map_id _).symm

end Bitmarkd.Currency

namespace Bitmarkd.Sample

open Lib Currency

/-- The bitcoin address twice. -/
def doubled : Bytes := itemBytes [Item.packed (.bitcoin, address), Item.packed (.bitcoin, address)]

theorem unpackMap_doubled : unpackMap env doubled true =
    .ok (⟨none, some address, none⟩, makeSet [.bitcoin]) := by
  decide +kernel

theorem pack_doubled : Map.pack env ⟨none, some address, none⟩ true ≠ .ok doubled := by
  decide +kernel

/-- An address that is cut short makes `UnpackMap` panic, and of two entries for one currency one is
dropped. -/
theorem unpackMap_unfaithful :
    unpackMap env [0x01, 0x05] true = panicAt .indexOutOfRange ∧
      ¬ UnpacksFaithfully env true [0x01, 0x05] ∧ ¬ UnpacksFaithfully env true doubled := by
  have hpanic : unpackMap env [0x01, 0x05] true = panicAt .indexOutOfRange := by decide +kernel
  refine ⟨hpanic, ?_, ?_⟩
  · rintro (⟨e, he⟩ | ⟨m, cs, items, hok, -⟩)
    · rw [hpanic] at he
      cases he
    · rw [hpanic] at hok
      cases hok
  · rintro (⟨e, he⟩ | ⟨m, cs, items, hok, -, -, hpack⟩)
    · rw [unpackMap_doubled] at he
      cases he
    · rw [unpackMap_doubled] at hok
      cases hok
      exact pack_doubled hpack

end Bitmarkd.Sample
