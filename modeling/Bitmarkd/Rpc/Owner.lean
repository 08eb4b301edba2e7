import Bitmarkd.Ledger.OwnerList
import Bitmarkd.Storage.Cursor
import Bitmarkd.Sample

/-!
# Listing the bitmarks of an owner

`ownership.ListBitmarksFor` reads one page of an owner's list, and the RPC `Owner.Bitmarks` adds the
records it refers to. A client goes on with the position it is told, until that is zero.

**One page.** The cursor starts at the owner and a position. All keys of one owner come in a row, so
the loop, which stops at the first key of another owner, reads the owner's next positions.

**All pages.** Zero means the end. The next position is one more than the last one of the page, but
zero if that last one is zero. So if a page has room for one item only, and the owner has an item at
position zero and others behind it, the client stops after the first item
(`bitmarks_paging_iff`, `Sample.bitmarks_stops_early`).
-/

namespace Bitmarkd

open Lib

/-! ## The code -/

/-- What the pools hold, as the RPCs read them. -/
def Database.view (db : Database) : View := fun k => db.lookup k

/-- `ownership.Record`; the asset id of an asset or a share is part of the item. -/
structure OwnedRecord where
  n : UInt64
  txId : Digest
  issueTxId : Digest
  item : OwnedItem
  blockNumber : Option UInt64
deriving DecidableEq

/-- `uint64ByteSize`. -/
def uint64ByteSize : ℕ := 8

/-- The record that is made for an item at a position. -/
def ownedRecord (n : UInt64) (txId : Digest) (od : OwnerData) : OwnedRecord :=
  { n, txId, issueTxId := od.issueTxId, item := od.item
    blockNumber := match od.item with
      | .block => some od.issueBlockNumber
      | .asset _ | .share _ => none }

/-- The loop of `listBitmarksFor`. -/
def listLoop (v : View) (ownerBytes : Bytes) : List Element → Except Stop (List OwnedRecord)
  | [] => .ok []
  | item :: items =>
    let n := item.key.length
    if n ≤ uint64ByteSize then panicAt .splitCannotBeZero
    else
      let split := n - uint64ByteSize
      if item.key.take split ≠ ownerBytes then .ok []
      else do
        -- the error of `DigestFromBytes` is ignored
        let txId := (FixedBytes.ofBytes? 32 item.value).getD (.zero 32)
        let ownerData ← getOwnerData v txId
        let records ← listLoop v ownerBytes items
        return ownedRecord (ofBE64 (item.key.drop split)) txId ownerData :: records

/-- `listBitmarksFor`. -/
def listBitmarksFor (db : Database) (owner : Account) (start : UInt64) (count : ℤ) :
    Except Stop (List OwnedRecord) := do
  let (items, _) ←
    ((newFetchCursor .ownerList).seek (owner.bytes ++ be64 start)).fetch db count
  listLoop db.view owner.bytes items

/-- `MaximumBitmarksCount`. -/
def maximumBitmarksCount : ℤ := 100

/-- `ratelimit.LimitN`, without the waiting: a reservation of at most the burst is never refused. -/
def limitN (count maximumCount : ℤ) : Except Stop Unit :=
  failIf (count ≤ 0 ∨ count > maximumCount) .invalidCount

/-- `RecordName`, which has a name for every record. -/
def recordName : Transaction → String
  | .oldBaseData _ => "BaseData"
  | .assetData _ => "AssetData"
  | .bitmarkIssue _ => "BitmarkIssue"
  | .bitmarkTransferUnratified _ => "BitmarkTransferUnratified"
  | .bitmarkTransferCountersigned _ => "BitmarkTransferCountersigned"
  | .blockFoundation _ => "BlockFoundation"
  | .blockOwnerTransfer _ => "BlockOwnerTransfer"
  | .bitmarkShare _ => "ShareBalance"
  | .shareGrant _ => "ShareGrant"
  | .shareSwap _ => "ShareSwap"

/-- What a record of the reply is about: a transaction, an asset, or the asset id that is zero. -/
inductive RecordKey
  | tx (txId : Digest)
  | asset (assetId : AssetIdentifier)
deriving DecidableEq

/-- The `Data` of a record of the reply. -/
inductive RecordData
  | transaction (tx : Transaction)
  | blockAsset (number : UInt64)

/-- `BitmarksRecord`. -/
structure BitmarksRecord where
  record : String
  txId : Option Digest
  inBlock : UInt64
  assetId : Option AssetIdentifier
  data : RecordData

/-- `BitmarksReply`; the map of records is a list of its entries. -/
structure BitmarksReply where
  next : UInt64
  data : List OwnedRecord
  tx : List (RecordKey × BitmarksRecord)

/-- Read and unpack a record of a pool. -/
def unpackStored (env : Env) (v : View) (p : Pool) (key : Bytes) (missing : Fault) :
    Except Stop (UInt64 × Transaction) := do
  match ← v.getNB p key with
  | none => fault missing
  | some (inBlock, packed) =>
    let (tx, _) ← unpack env packed env.isTesting
    return (inBlock, tx)

/-- The loop of `Bitmarks` over tx ids. -/
def bitmarksTx (env : Env) (v : View) (txId : Digest) :
    Except Stop (RecordKey × BitmarksRecord) := do
  let (inBlock, tx) ←
    unpackStored env v .transactions txId.bytes .linkToInvalidOrUnconfirmedTransaction
  return (.tx txId, ⟨recordName tx, some txId, inBlock, none, .transaction tx⟩)

/-- The loop of `Bitmarks` over asset ids. -/
def bitmarksAsset (env : Env) (v : View) (assetId : AssetIdentifier) :
    Except Stop (RecordKey × BitmarksRecord) :=
  if assetId = .zero 64 then return (.asset assetId, ⟨"Block", none, 0, none, .blockAsset 0⟩)
  else do
    let (inBlock, tx) ← unpackStored env v .assets assetId.bytes .assetNotFound
    return (.asset assetId, ⟨recordName tx, none, inBlock, some assetId, .transaction tx⟩)

/-- The asset that an item belongs to. -/
def OwnedItem.assetId? : OwnedItem → Option AssetIdentifier
  | .asset assetId | .share assetId => some assetId
  | .block => none

/-- `Owner.Bitmarks`. The ids are gone through in the order of the list; the source has them in a
map. -/
def bitmarks (env : Env) (db : Database) (owner : Account) (start : UInt64) (count : ℤ) :
    Except Stop BitmarksReply := do
  limitN count maximumBitmarksCount
  let ownershipData ← listBitmarksFor db owner start count
  let txIds := (ownershipData.flatMap fun r => [r.txId, r.issueTxId]).dedup
  let assetIds := (ownershipData.filterMap fun r => r.item.assetId?).dedup
  let current := (ownershipData.getLast?.map (·.n)).getD 0
  let txs ← txIds.mapM (bitmarksTx env db.view)
  let assets ← assetIds.mapM (bitmarksAsset env db.view)
  return {
    next := if current = 0 then 0 else current + 1
    data := ownershipData
    tx := txs ++ assets }

/-- A client that goes on with the next position until it is zero: the positions and tx ids that it
is told. -/
def pageThrough (env : Env) (db : Database) (owner : Account) (count : ℤ) :
    ℕ → UInt64 → Except Stop (List (UInt64 × Digest))
  | 0, _ => .error .outOfSteps
  | calls + 1, start => do
    let reply ← bitmarks env db owner start count
    let data := reply.data.map fun r => (r.n, r.txId)
    if reply.next = 0 then return data
    else
      let rest ← pageThrough env db owner count calls reply.next
      return data ++ rest

/-! ## The keys of an owner -/

theorem append_lt_append {a b x y : Bytes} (h : a < b) (hne : ¬ a <+: b) : a ++ x < b ++ y := by
  induction a generalizing b with
  | nil => exact absurd List.nil_prefix hne
  | cons c a ih =>
    cases b with
    | nil => exact absurd h (by simp)
    | cons d b =>
      rw [List.cons_append, List.cons_append, List.cons_lt_cons_iff]
      rcases List.cons_lt_cons_iff.mp h with hlt | ⟨rfl, hlt⟩
      · exact Or.inl hlt
      · refine Or.inr ⟨rfl, ih hlt fun hpre => hne ?_⟩
        exact List.cons_prefix_cons.mpr ⟨rfl, hpre⟩

/-- No account is written as the beginning of another one. -/
theorem eq_of_bytes_isPrefix {o o' : Account} (h : o.bytes <+: o'.bytes) : o = o' := by
  have hvariant : o.keyVariant = o'.keyVariant := (List.cons_prefix_cons.mp h).1
  have hlength : o.bytes.length = o'.bytes.length := by
    rw [Account.bytes, Account.bytes, List.length_cons, List.length_cons, o.length_eq, o'.length_eq,
      (Account.keyVariant_inj hvariant).1]
  exact Account.bytes_inj.mp (h.eq_of_length hlength)

section

variable {o o' : Account} {n m : UInt64}

theorem listKey_lt_iff : listKey o n < listKey o m ↔ n < m := by
  rw [listKey, listKey, lt_iff_beValue_lt (by simp), beValue_append, beValue_append, length_be64,
    length_be64, Nat.add_lt_add_iff_left, beValue_be64, beValue_be64, UInt64.lt_iff_toNat_lt]

theorem listKey_le_iff : listKey o n ≤ listKey o m ↔ n ≤ m := by
  rw [← not_lt, listKey_lt_iff, UInt64.not_lt]

/-- The keys of one owner come in a row. -/
theorem listKey_lt_of_ne (hne : o ≠ o') (h : listKey o n ≤ listKey o' m) (k l : UInt64) :
    listKey o k < listKey o' l := by
  have hprefix : ¬ o.bytes <+: o'.bytes := fun hp => hne (eq_of_bytes_isPrefix hp)
  have hprefix' : ¬ o'.bytes <+: o.bytes := fun hp => hne (eq_of_bytes_isPrefix hp).symm
  rcases lt_trichotomy o.bytes o'.bytes with hlt | heq | hgt
  · exact append_lt_append hlt hprefix
  · exact absurd (Account.bytes_inj.mp heq) hne
  · exact absurd (append_lt_append hgt hprefix') (not_lt.mpr h)

end

/-! ## One page -/

/-- The list of an owner: positions and tx ids, in the order of the positions. -/
structure OwnerEntries (db : Database) (o : Account) (l : List (UInt64 × Digest)) : Prop where
  ascending : Ascending Prod.fst l
  mem : ∀ n t, (n, t) ∈ l ↔ db.view.get .ownerList (listKey o n) = some t.bytes

/-- The entries from a position on. -/
def entriesFrom (l : List (UInt64 × Digest)) (start : UInt64) : List (UInt64 × Digest) :=
  l.filter fun x => start ≤ x.1

theorem mem_entriesFrom {l : List (UInt64 × Digest)} {start : UInt64} {x : UInt64 × Digest} :
    x ∈ entriesFrom l start ↔ x ∈ l ∧ start ≤ x.1 := by
  rw [entriesFrom, List.mem_filter, decide_eq_true_iff]

theorem OwnerEntries.ascending_from {db : Database} {o : Account} {l : List (UInt64 × Digest)}
    (h : OwnerEntries db o l) (start : UInt64) : Ascending Prod.fst (entriesFrom l start) :=
  h.ascending.sublist List.filter_sublist

theorem OwnerEntries.unique {db : Database} {o : Account} {l l' : List (UInt64 × Digest)}
    (h : OwnerEntries db o l) (h' : OwnerEntries db o l') : l = l' :=
  Ascending.ext h.ascending h'.ascending fun x => (h.mem x.1 x.2).trans (h'.mem x.1 x.2).symm

/-- The element of pool `OwnerList` for an entry. -/
def listElement (o : Account) (x : UInt64 × Digest) : Element := ⟨listKey o x.1, x.2.bytes⟩

theorem listElement_inj {o : Account} {x y : UInt64 × Digest} :
    listElement o x = listElement o y ↔ x = y := by
  constructor
  · intro h
    obtain ⟨hkey, hvalue⟩ := Element.mk.inj h
    exact Prod.ext (listKey_inj.mp hkey).2 (FixedBytes.bytes_inj.mp hvalue)
  · rintro rfl
    rfl

/-- The key of the element is one of this owner. -/
def ownedBy (o : Account) (e : Element) : Bool :=
  e.key.take (e.key.length - uint64ByteSize) = o.bytes

section

variable {env : Env} {db : Database} {o : Account} {l : List (UInt64 × Digest)} {L : List Element}
  {start : UInt64}

theorem ownedBy_listElement (o' : Account) (x : UInt64 × Digest) :
    ownedBy o (listElement o' x) = true ↔ o' = o := by
  rw [ownedBy, listElement, decide_eq_true_iff, listKey, List.length_append, length_be64,
    uint64ByteSize, Nat.add_sub_cancel, List.take_left, Account.bytes_inj]

theorem exists_listElement (hdb : ListEntries db.view) {P : Bytes → Prop}
    (hL : Lists db .ownerList P L) {e : Element} (he : e ∈ L) : ∃ o x, e = listElement o x := by
  obtain ⟨o, n, t, hk, hb⟩ := hdb ((hL.mem e).mp he).1
  exact ⟨o, (n, t), by rw [listElement, ← hk, ← hb]⟩

/-- The first elements from a position on are the owner's. -/
theorem takeWhile_ownedBy (hdb : ListEntries db.view)
    (hL : Lists db .ownerList (listKey o start ≤ ·) L) :
    L.takeWhile (ownedBy o) = L.filter (ownedBy o) := by
  refine takeWhile_eq_filter (hL.ascending.imp_of_mem ?_)
  intro e f he hf hlt hown
  obtain ⟨oe, x, rfl⟩ := exists_listElement hdb hL he
  obtain ⟨of, y, rfl⟩ := exists_listElement hdb hL hf
  obtain rfl := (ownedBy_listElement of y).mp hown
  rw [ownedBy_listElement]
  by_contra hne
  have hle := ((hL.mem _).mp he).2
  exact absurd hlt (not_lt.mpr (listKey_lt_of_ne (Ne.symm hne) hle y.1 x.1).le)

/-- The owner's elements from a position on are the entries from there on. -/
theorem filter_ownedBy (hdb : ListEntries db.view) (hl : OwnerEntries db o l)
    (hL : Lists db .ownerList (listKey o start ≤ ·) L) :
    L.filter (ownedBy o) = (entriesFrom l start).map (listElement o) := by
  have hasc : Ascending Element.key ((entriesFrom l start).map (listElement o)) :=
    List.pairwise_map.mpr ((hl.ascending_from start).imp fun hlt => listKey_lt_iff.mpr hlt)
  refine Ascending.ext (hL.ascending.sublist List.filter_sublist) hasc fun e => ?_
  rw [List.mem_filter, List.mem_map]
  constructor
  · rintro ⟨he, hown⟩
    obtain ⟨o', x, rfl⟩ := exists_listElement hdb hL he
    obtain rfl := (ownedBy_listElement o' x).mp hown
    obtain ⟨hlookup, hle⟩ := (hL.mem _).mp he
    exact ⟨x, mem_entriesFrom.mpr ⟨(hl.mem x.1 x.2).mpr hlookup, listKey_le_iff.mp hle⟩, rfl⟩
  · rintro ⟨x, hx, rfl⟩
    obtain ⟨hx, hle⟩ := mem_entriesFrom.mp hx
    exact ⟨(hL.mem _).mpr ⟨(hl.mem x.1 x.2).mp hx, listKey_le_iff.mpr hle⟩,
      (ownedBy_listElement o x).mpr rfl⟩

/-- Every owner has a list. -/
theorem exists_ownerEntries (hdb : ListEntries db.view) (o : Account) :
    ∃ l, OwnerEntries db o l := by
  obtain ⟨L, hL⟩ := exists_lists db .ownerList (listKey o 0)
  have hall : ∀ e ∈ L.filter (ownedBy o), ∃ x, listElement o x = e := by
    intro e he
    obtain ⟨he, hown⟩ := List.mem_filter.mp he
    obtain ⟨o', x, rfl⟩ := exists_listElement hdb hL he
    obtain rfl := (ownedBy_listElement o' x).mp hown
    exact ⟨x, rfl⟩
  obtain ⟨l, hl⟩ : L.filter (ownedBy o) ∈ Set.range (List.map (listElement o)) := by
    rw [Set.range_list_map]
    exact hall
  have hasc : Ascending Element.key (L.filter (ownedBy o)) :=
    hL.ascending.sublist List.filter_sublist
  rw [← hl] at hasc
  refine ⟨l, (List.pairwise_map.mp hasc).imp fun hlt => listKey_lt_iff.mp hlt, fun n t => ?_⟩
  have hmem : (n, t) ∈ l ↔ listElement o (n, t) ∈ L.filter (ownedBy o) := by
    rw [← hl, List.mem_map]
    constructor
    · exact fun h => ⟨_, h, rfl⟩
    · rintro ⟨x, h, heq⟩
      rwa [← listElement_inj.mp heq]
  have hzero : listKey o 0 ≤ listKey o n := listKey_le_iff.mpr (UInt64.zero_le)
  rw [hmem, List.mem_filter, ownedBy_listElement, hL.mem]
  exact ⟨fun h => h.1.1, fun h => ⟨⟨h, hzero⟩, rfl⟩⟩

/-- The record of an entry. -/
def entryRecord (v : View) (x : UInt64 × Digest) : Except Stop OwnedRecord := do
  let ownerData ← getOwnerData v x.2
  return ownedRecord x.1 x.2 ownerData

theorem listLoop_eq {v : View} {items : List Element} {page : List (UInt64 × Digest)}
    (hitems : ∀ e ∈ items, ∃ o x, e = listElement o x)
    (hpage : items.takeWhile (ownedBy o) = page.map (listElement o)) :
    listLoop v o.bytes items = page.mapM (entryRecord v) := by
  induction items generalizing page with
  | nil =>
    obtain rfl := List.map_eq_nil_iff.mp hpage.symm
    rfl
  | cons e items ih =>
    obtain ⟨hfirst, hrest⟩ := List.forall_mem_cons.mp hitems
    obtain ⟨o', ⟨n, t⟩, rfl⟩ := hfirst
    have hlength : (listKey o' n).length = o'.bytes.length + 8 := by
      rw [listKey, List.length_append, length_be64]
    have hlong : ¬ (listKey o' n).length ≤ uint64ByteSize := by
      rw [hlength, Account.bytes, List.length_cons, uint64ByteSize]
      omega
    have hsplit : (listKey o' n).length - uint64ByteSize = o'.bytes.length := by
      rw [hlength, uint64ByteSize, Nat.add_sub_cancel]
    have htake : (listKey o' n).take o'.bytes.length = o'.bytes := by
      rw [listKey, List.take_left]
    have hdrop : (listKey o' n).drop o'.bytes.length = be64 n := by
      rw [listKey, List.drop_left]
    simp only [listLoop, listElement, hlong, if_false, hsplit, htake, hdrop, ofBE64_be64,
      FixedBytes.ofBytes?_bytes, Option.getD_some]
    by_cases ho : o' = o
    · subst ho
      rw [List.takeWhile_cons_of_pos ((ownedBy_listElement o' (n, t)).mpr rfl)] at hpage
      cases page with
      | nil => cases hpage
      | cons x page =>
        obtain ⟨hhead, htail⟩ := List.cons.inj hpage
        obtain rfl := listElement_inj.mp hhead
        rw [if_neg (not_not.mpr rfl), ih hrest htail, List.mapM_cons, entryRecord]
        simp only [bind_assoc, pure_bind]
    · have hother : ¬ ownedBy o (listElement o' (n, t)) = true := fun h =>
        ho ((ownedBy_listElement o' _).mp h)
      rw [List.takeWhile_cons_of_neg hother] at hpage
      obtain rfl := List.map_eq_nil_iff.mp hpage.symm
      rw [if_pos (fun h => ho (Account.bytes_inj.mp h))]
      rfl

/-- **One page** of the list: the entries from a position on, as many as are asked for. -/
theorem listBitmarksFor_eq (hdb : ListEntries db.view) (hl : OwnerEntries db o l)
    (start : UInt64) {count : ℕ} (hcount : 0 < count) :
    listBitmarksFor db o start count =
      ((entriesFrom l start).take count).mapM (entryRecord db.view) := by
  obtain ⟨L, hL⟩ := exists_lists db .ownerList (listKey o start)
  have hpositive : ¬ (count : ℤ) ≤ 0 := by omega
  have hfetch : ∃ cursor, ((newFetchCursor .ownerList).seek (listKey o start)).fetch db count =
      .ok (L.take count, cursor) := by
    have hiterating := hL.iterating count
    simp only [FetchCursor.fetch, FetchCursor.seek, newFetchCursor, hpositive, if_false,
      Int.toNat_natCast, hiterating]
    cases (L.take count).getLast? with
    | none => exact ⟨_, rfl⟩
    | some last => exact ⟨_, rfl⟩
  obtain ⟨cursor, hfetch⟩ := hfetch
  have hloop : listBitmarksFor db o start count = listLoop db.view o.bytes (L.take count) := by
    rw [listBitmarksFor]
    change (((newFetchCursor .ownerList).seek (listKey o start)).fetch db count >>= _) = _
    rw [hfetch]
    rfl
  rw [hloop]
  refine listLoop_eq (fun e he => exists_listElement hdb hL (List.mem_of_mem_take he)) ?_
  rw [takeWhile_take, takeWhile_ownedBy hdb hL, filter_ownedBy hdb hl hL, List.map_take]

end

/-! ## The reply -/

/-- The record can be read and unpacked. -/
def Found (env : Env) (v : View) (p : Pool) (key : Bytes) : Prop :=
  ∃ n packed tx len, v.getNB p key = .ok (some (n, packed)) ∧
    unpack env packed env.isTesting = .ok (tx, len)

/-- What the reply says of an item of this kind can be found. -/
def OwnedItem.Found (env : Env) (v : View) (item : OwnedItem) : Prop :=
  ∀ assetId ∈ item.assetId?, assetId ≠ .zero 64 → Bitmarkd.Found env v .assets assetId.bytes

/-- All that the reply says of an entry can be found: its owner data, its record, that of the issue,
and the asset. -/
def Resolves (env : Env) (v : View) (t : Digest) : Prop :=
  ∃ d, getOwnerData v t = .ok d ∧ Found env v .transactions t.bytes ∧
    Found env v .transactions d.issueTxId.bytes ∧ d.item.Found env v

/-- The next position of a page. -/
def nextPosition (page : List (UInt64 × Digest)) : UInt64 :=
  let current := (page.getLast?.map Prod.fst).getD 0
  if current = 0 then 0 else current + 1

/-- A loop succeeds just when every round does. -/
theorem exists_mapM_eq_ok {α β : Type} {f : α → Except Stop β} {l : List α} :
    (∃ l', l.mapM f = .ok l') ↔ ∀ a ∈ l, ∃ b, f a = .ok b := by
  induction l with
  | nil => exact ⟨fun _ a ha => (nomatch ha), fun _ => ⟨[], rfl⟩⟩
  | cons a l ih =>
    rw [List.forall_mem_cons, ← ih, List.mapM_cons]
    constructor
    · rintro ⟨l', h⟩
      obtain ⟨b, hb, h⟩ := bind_eq_ok.mp h
      obtain ⟨bs, hbs, -⟩ := bind_eq_ok.mp h
      exact ⟨⟨b, hb⟩, bs, hbs⟩
    · rintro ⟨⟨b, hb⟩, bs, hbs⟩
      exact ⟨b :: bs, bind_eq_ok.mpr ⟨b, hb, bind_eq_ok.mpr ⟨bs, hbs, rfl⟩⟩⟩

section

variable {env : Env} {v : View}

theorem exists_unpackStored {p : Pool} {key : Bytes} (missing : Fault) :
    (∃ r, unpackStored env v p key missing = .ok r) ↔ Found env v p key := by
  constructor
  · rintro ⟨r, h⟩
    obtain ⟨found, hfound, h⟩ := bind_eq_ok.mp h
    cases found with
    | none => cases h
    | some x =>
      obtain ⟨⟨tx, len⟩, hunpack, -⟩ := bind_eq_ok.mp h
      exact ⟨x.1, x.2, tx, len, hfound, hunpack⟩
  · rintro ⟨n, packed, tx, len, hfound, hunpack⟩
    exact ⟨(n, tx), bind_eq_ok.mpr ⟨_, hfound, bind_eq_ok.mpr ⟨_, hunpack, rfl⟩⟩⟩

theorem exists_bitmarksTx {t : Digest} :
    (∃ r, bitmarksTx env v t = .ok r) ↔ Found env v .transactions t.bytes := by
  rw [← exists_unpackStored .linkToInvalidOrUnconfirmedTransaction]
  constructor
  · rintro ⟨r, h⟩
    obtain ⟨x, hx, -⟩ := bind_eq_ok.mp h
    exact ⟨x, hx⟩
  · rintro ⟨x, hx⟩
    exact ⟨_, bind_eq_ok.mpr ⟨x, hx, rfl⟩⟩

theorem exists_bitmarksAsset {assetId : AssetIdentifier} :
    (∃ r, bitmarksAsset env v assetId = .ok r) ↔
      (assetId ≠ .zero 64 → Found env v .assets assetId.bytes) := by
  unfold bitmarksAsset
  split
  next hzero => exact ⟨fun _ h => absurd hzero h, fun _ => ⟨_, rfl⟩⟩
  next hzero =>
    rw [← exists_unpackStored .assetNotFound]
    constructor
    · rintro ⟨r, h⟩ -
      obtain ⟨x, hx, -⟩ := bind_eq_ok.mp h
      exact ⟨x, hx⟩
    · intro h
      obtain ⟨x, hx⟩ := h hzero
      exact ⟨_, bind_eq_ok.mpr ⟨x, hx, rfl⟩⟩

/-- The page of a list of records. -/
def pageOf (data : List OwnedRecord) : List (UInt64 × Digest) := data.map fun r => (r.n, r.txId)

theorem pageOf_mapM {page : List (UInt64 × Digest)} {data : List OwnedRecord}
    (h : page.mapM (entryRecord v) = .ok data) : pageOf data = page ∧
      ∀ r ∈ data, ∃ d, getOwnerData v r.txId = .ok d ∧ r = ownedRecord r.n r.txId d := by
  have hall := mapM_eq_ok h
  clear h
  induction hall with
  | nil => exact ⟨rfl, by simp⟩
  | @cons x r page data hr _ ih =>
    obtain ⟨d, hd, hr⟩ := bind_eq_ok.mp hr
    cases hr
    refine ⟨?_, List.forall_mem_cons.mpr ⟨⟨d, hd, rfl⟩, ih.2⟩⟩
    rw [pageOf, List.map_cons]
    exact congrArg ((x.1, x.2) :: ·) ih.1

theorem current_eq (data : List OwnedRecord) :
    (data.getLast?.map (·.n)).getD 0 = ((pageOf data).getLast?.map Prod.fst).getD 0 := by
  rw [pageOf, List.getLast?_map]
  cases data.getLast? <;> rfl

end

section

variable {env : Env} {db : Database} {o : Account} {l : List (UInt64 × Digest)} {start : UInt64}
  {count : ℕ}

/-- **The reply to a call** has the page and its next position, and there is one just when
everything it says can be found. -/
theorem bitmarks_spec (env : Env) (hdb : ListEntries db.view) (hl : OwnerEntries db o l)
    (start : UInt64) (hpos : 0 < count) (hmax : count ≤ 100) :
    (∀ reply, bitmarks env db o start count = .ok reply →
      pageOf reply.data = (entriesFrom l start).take count ∧
      reply.next = nextPosition ((entriesFrom l start).take count)) ∧
    ((∃ reply, bitmarks env db o start count = .ok reply) ↔
      ∀ x ∈ (entriesFrom l start).take count, Resolves env db.view x.2) := by
  have hlist := listBitmarksFor_eq hdb hl start hpos
  generalize (entriesFrom l start).take count = page at hlist
  have hlimit : limitN count maximumBitmarksCount = .ok () := by
    rw [limitN, failIf_eq_ok, maximumBitmarksCount]
    omega
  refine ⟨fun reply h => ?_, fun ⟨reply, h⟩ x hx => ?_, fun h => ?_⟩
  · obtain ⟨-, -, h⟩ := bind_eq_ok.mp h
    obtain ⟨data, hdata, h⟩ := bind_eq_ok.mp h
    obtain ⟨txs, -, h⟩ := bind_eq_ok.mp h
    obtain ⟨assets, -, h⟩ := bind_eq_ok.mp h
    cases h
    rw [hlist] at hdata
    have hpage := (pageOf_mapM hdata).1
    refine ⟨hpage, ?_⟩
    rw [nextPosition, ← hpage]
    dsimp only
    rw [current_eq]
  · obtain ⟨-, -, h⟩ := bind_eq_ok.mp h
    obtain ⟨data, hdata, h⟩ := bind_eq_ok.mp h
    obtain ⟨txs, htxs, h⟩ := bind_eq_ok.mp h
    obtain ⟨assets, hassets, -⟩ := bind_eq_ok.mp h
    rw [hlist] at hdata
    obtain ⟨hpage, hrecords⟩ := pageOf_mapM hdata
    rw [← hpage] at hx
    obtain ⟨r, hr, rfl⟩ := List.mem_map.mp hx
    obtain ⟨d, hd, hrd⟩ := hrecords r hr
    have htx := fun t => exists_mapM_eq_ok.mp ⟨txs, htxs⟩ t
    have hasset := fun a => exists_mapM_eq_ok.mp ⟨assets, hassets⟩ a
    have hissue : r.issueTxId = d.issueTxId := by rw [hrd]; rfl
    have hitem : r.item = d.item := by rw [hrd]; rfl
    refine ⟨d, hd, ?_, ?_, fun assetId hid => ?_⟩
    · exact exists_bitmarksTx.mp (htx r.txId
        (List.mem_dedup.mpr (List.mem_flatMap.mpr ⟨r, hr, by simp⟩)))
    · rw [← hissue]
      exact exists_bitmarksTx.mp (htx r.issueTxId
        (List.mem_dedup.mpr (List.mem_flatMap.mpr ⟨r, hr, by simp⟩)))
    · rw [← hitem] at hid
      exact exists_bitmarksAsset.mp (hasset assetId
        (List.mem_dedup.mpr (List.mem_filterMap.mpr ⟨r, hr, hid⟩)))
  · obtain ⟨data, hdata⟩ : ∃ data, page.mapM (entryRecord db.view) = .ok data := by
      refine exists_mapM_eq_ok.mpr fun x hx => ?_
      obtain ⟨d, hd, -⟩ := h x hx
      exact ⟨_, bind_eq_ok.mpr ⟨d, hd, rfl⟩⟩
    obtain ⟨hpage, hrecords⟩ := pageOf_mapM hdata
    have hresolves : ∀ r ∈ data, Found env db.view .transactions r.txId.bytes ∧
        Found env db.view .transactions r.issueTxId.bytes ∧ r.item.Found env db.view := by
      intro r hr
      obtain ⟨d, hd, hrd⟩ := hrecords r hr
      have hx : (r.n, r.txId) ∈ page := by
        rw [← hpage]
        exact List.mem_map.mpr ⟨r, hr, rfl⟩
      obtain ⟨d', hd', htx, hissue, hitem⟩ := h _ hx
      cases hd.symm.trans hd'
      rw [hrd]
      exact ⟨htx, hissue, hitem⟩
    obtain ⟨txs, htxs⟩ : ∃ txs, ((data.flatMap fun r => [r.txId, r.issueTxId]).dedup).mapM
        (bitmarksTx env db.view) = .ok txs := by
      refine exists_mapM_eq_ok.mpr fun t ht => exists_bitmarksTx.mpr ?_
      obtain ⟨r, hr, hmem⟩ := List.mem_flatMap.mp (List.mem_dedup.mp ht)
      obtain ⟨htx, hissue, -⟩ := hresolves r hr
      rcases List.mem_cons.mp hmem with rfl | hmem
      · exact htx
      · rw [List.mem_singleton.mp hmem]
        exact hissue
    obtain ⟨assets, hassets⟩ : ∃ assets, ((data.filterMap fun r => r.item.assetId?).dedup).mapM
        (bitmarksAsset env db.view) = .ok assets := by
      refine exists_mapM_eq_ok.mpr fun a ha => exists_bitmarksAsset.mpr ?_
      obtain ⟨r, hr, hmem⟩ := List.mem_filterMap.mp (List.mem_dedup.mp ha)
      exact (hresolves r hr).2.2 a hmem
    refine ⟨_, bind_eq_ok.mpr ⟨(), hlimit, bind_eq_ok.mpr ⟨data, ?_, bind_eq_ok.mpr ⟨txs, htxs,
      bind_eq_ok.mpr ⟨assets, hassets, rfl⟩⟩⟩⟩⟩
    rw [hlist, hdata]

theorem pageThrough_succ_eq_ok (hdb : ListEntries db.view) (hl : OwnerEntries db o l)
    (hpos : 0 < count) (hmax : count ≤ 100) {calls : ℕ} {data : List (UInt64 × Digest)} :
    pageThrough env db o count (calls + 1) start = .ok data ↔
      (∀ x ∈ (entriesFrom l start).take count, Resolves env db.view x.2) ∧
      (nextPosition ((entriesFrom l start).take count) = 0 ∧
          data = (entriesFrom l start).take count ∨
        nextPosition ((entriesFrom l start).take count) ≠ 0 ∧ ∃ rest, pageThrough env db o count
            calls (nextPosition ((entriesFrom l start).take count)) = .ok rest ∧
          data = (entriesFrom l start).take count ++ rest) := by
  obtain ⟨hreply, hok⟩ := bitmarks_spec env hdb hl start hpos hmax
  constructor
  · intro h
    obtain ⟨reply, hcall, h⟩ := bind_eq_ok.mp h
    obtain ⟨hpage, hnext⟩ := hreply reply hcall
    refine ⟨hok.mp ⟨reply, hcall⟩, ?_⟩
    change (if reply.next = 0 then _ else _) = _ at h
    rw [← hnext]
    split at h
    next hzero =>
      refine Or.inl ⟨hzero, ?_⟩
      rw [← hpage]
      exact (Except.ok.inj h).symm
    next hzero =>
      obtain ⟨rest, hrest, h⟩ := bind_eq_ok.mp h
      refine Or.inr ⟨hzero, rest, hrest, ?_⟩
      rw [← hpage]
      exact (Except.ok.inj h).symm
  · rintro ⟨hresolves, h⟩
    obtain ⟨reply, hcall⟩ := hok.mpr hresolves
    obtain ⟨hpage, hnext⟩ := hreply reply hcall
    refine bind_eq_ok.mpr ⟨reply, hcall, ?_⟩
    change (if reply.next = 0 then _ else _) = _
    change pageOf reply.data = (entriesFrom l start).take count at hpage
    rcases h with ⟨hzero, rfl⟩ | ⟨hzero, rest, hrest, rfl⟩
    · rw [if_pos (hnext.trans hzero), ← hpage]
      rfl
    · rw [if_neg (by rw [hnext]; exact hzero), ← hpage]
      refine bind_eq_ok.mpr ⟨rest, ?_, rfl⟩
      rw [hnext]
      exact hrest

/-- What a client is told can be found. -/
theorem resolves_of_pageThrough (hdb : ListEntries db.view) (hl : OwnerEntries db o l)
    (hpos : 0 < count) (hmax : count ≤ 100) {calls : ℕ} {data : List (UInt64 × Digest)}
    (h : pageThrough env db o count calls start = .ok data) :
    ∀ x ∈ data, Resolves env db.view x.2 := by
  induction calls generalizing start data with
  | zero => cases h
  | succ calls ih =>
    obtain ⟨hpage, ⟨-, rfl⟩ | ⟨-, rest, hrest, rfl⟩⟩ :=
      (pageThrough_succ_eq_ok hdb hl hpos hmax).mp h
    · exact hpage
    · intro x hx
      rcases List.mem_append.mp hx with hx | hx
      · exact hpage x hx
      · exact ih hrest x hx

theorem succ_le_iff_lt {x y : UInt64} (h : x + 1 ≠ 0) : x + 1 ≤ y ↔ x < y := by
  have hne : (x + 1).toNat ≠ 0 := fun h0 => h (UInt64.toNat_inj.mp h0)
  have hx := x.toNat_lt
  rw [UInt64.le_iff_toNat_le, UInt64.lt_iff_toNat_lt]
  rw [UInt64.toNat_add] at hne ⊢
  have hone : (1 : UInt64).toNat = 1 := rfl
  rw [hone] at hne ⊢
  omega

theorem le_of_succ_eq_zero {x y : UInt64} (h : x + 1 = 0) : y ≤ x := by
  have heq := congrArg UInt64.toNat h
  have hx := x.toNat_lt
  have hy := y.toNat_lt
  rw [UInt64.le_iff_toNat_le]
  rw [UInt64.toNat_add] at heq
  have hone : (1 : UInt64).toNat = 1 := rfl
  have hzero : (0 : UInt64).toNat = 0 := rfl
  rw [hone, hzero] at heq
  omega

theorem nextPosition_eq {page : List (UInt64 × Digest)} {x : UInt64 × Digest}
    (h : page.getLast? = some x) : nextPosition page = if x.1 = 0 then 0 else x.1 + 1 := by
  rw [nextPosition, h]
  rfl

/-- The entries after a page. -/
theorem entriesFrom_succ (hl : OwnerEntries db o l) {x : UInt64 × Digest}
    (hx : x ∈ ((entriesFrom l start).take count).getLast?) (hsucc : x.1 + 1 ≠ 0) :
    entriesFrom l (x.1 + 1) = (entriesFrom l start).drop count := by
  have hasc := hl.ascending_from start
  have hstart : start ≤ x.1 :=
    (mem_entriesFrom.mp (List.mem_of_mem_take (List.mem_of_getLast? hx))).2
  refine Ascending.ext (hl.ascending_from _) (hasc.sublist (List.drop_sublist _ _)) fun y => ?_
  rw [hasc.mem_drop hx, mem_entriesFrom, mem_entriesFrom, succ_le_iff_lt hsucc]
  constructor
  · rintro ⟨hy, hlt⟩
    exact ⟨⟨hy, UInt64.le_trans hstart (UInt64.le_of_lt hlt)⟩, hlt⟩
  · rintro ⟨⟨hy, -⟩, hlt⟩
    exact ⟨hy, hlt⟩

/-- A page with room for one item, and an owner with an item at position zero and others. -/
def StopsEarly (count : ℕ) (l : List (UInt64 × Digest)) : Prop :=
  count = 1 ∧ 1 < l.length ∧ ∃ t, (0, t) ∈ l

/-- A page that ends at position zero has only that position. -/
theorem eq_singleton_of_getLast?_zero {page : List (UInt64 × Digest)} {x : UInt64 × Digest}
    (hasc : Ascending Prod.fst page) (hlast : page.getLast? = some x) (hx : x.1 = 0) :
    page = [x] := by
  obtain ⟨init, rfl⟩ := List.getLast?_eq_some_iff.mp hlast
  cases init with
  | nil => rfl
  | cons a init =>
    have hlt : a.1 < x.1 :=
      (List.pairwise_append.mp hasc).2.2 a List.mem_cons_self x List.mem_cons_self
    rw [hx] at hlt
    exact absurd hlt UInt64.not_lt_zero

/-- Nothing comes after a page whose next position is zero, unless the client stops early. -/
theorem drop_eq_nil_of_nextPosition (hl : OwnerEntries db o l) (hpos : 0 < count)
    (hearly : start ≠ 0 ∨ ¬ StopsEarly count l)
    (hzero : nextPosition ((entriesFrom l start).take count) = 0) :
    (entriesFrom l start).drop count = [] := by
  have hasc := hl.ascending_from start
  cases hlast : ((entriesFrom l start).take count).getLast? with
  | none =>
    rcases List.take_eq_nil_iff.mp (List.getLast?_eq_none_iff.mp hlast) with hcount | hnil
    · exact absurd hcount hpos.ne'
    · rw [hnil, List.drop_nil]
  | some x =>
    refine List.eq_nil_iff_forall_not_mem.mpr fun y hy => ?_
    obtain ⟨hyl, hlt⟩ := (hasc.mem_drop hlast y).mp hy
    rw [nextPosition_eq hlast] at hzero
    split at hzero
    next hx =>
      -- the page ends at position zero: it has room for one item, and there is another one
      have hxl := List.mem_of_mem_take (List.mem_of_getLast? hlast)
      obtain ⟨hxmem, hstart⟩ := mem_entriesFrom.mp hxl
      rw [hx] at hstart
      have hstart0 : start = 0 := UInt64.le_antisymm hstart UInt64.zero_le
      have hlength := congrArg List.length
        (eq_singleton_of_getLast?_zero (hasc.sublist (List.take_sublist _ _)) hlast hx)
      have hmore := List.length_pos_of_mem hy
      rw [List.length_take, List.length_singleton] at hlength
      rw [List.length_drop] at hmore
      have htotal : (entriesFrom l start).length ≤ l.length := List.length_filter_le _ _
      refine hearly.elim (fun hne => hne hstart0) fun hnot => hnot ⟨?_, ?_, x.2, ?_⟩
      · omega
      · omega
      · rw [← hx]
        exact hxmem
    next hx => exact absurd hlt (not_lt.mpr (le_of_succ_eq_zero hzero))

/-- **A client is told all entries** from a position on. -/
theorem exists_pageThrough (hdb : ListEntries db.view) (hl : OwnerEntries db o l)
    (hpos : 0 < count) (hmax : count ≤ 100) (hall : ∀ x ∈ l, Resolves env db.view x.2)
    (start : UInt64) (hearly : start ≠ 0 ∨ ¬ StopsEarly count l) :
    ∃ calls, pageThrough env db o count calls start = .ok (entriesFrom l start) := by
  -- induction on the number of entries that are left
  generalize hn : (entriesFrom l start).length = n
  induction n using Nat.strong_induction_on generalizing start with
  | _ n ih =>
    have hpage : ∀ x ∈ (entriesFrom l start).take count, Resolves env db.view x.2 := fun x hx =>
      hall x (mem_entriesFrom.mp (List.mem_of_mem_take hx)).1
    have hsplit := List.take_append_drop count (entriesFrom l start)
    by_cases hzero : nextPosition ((entriesFrom l start).take count) = 0
    · have hrest := drop_eq_nil_of_nextPosition hl hpos hearly hzero
      rw [hrest, List.append_nil] at hsplit
      exact ⟨1, (pageThrough_succ_eq_ok hdb hl hpos hmax).mpr
        ⟨hpage, Or.inl ⟨hzero, hsplit.symm⟩⟩⟩
    · cases hlast : ((entriesFrom l start).take count).getLast? with
      | none =>
        rw [nextPosition, hlast] at hzero
        exact absurd rfl hzero
      | some x =>
        have hnext := nextPosition_eq hlast
        rw [hnext] at hzero
        have hx : x.1 ≠ 0 := fun h0 => hzero (if_pos h0)
        rw [if_neg hx] at hnext hzero
        have hrest := entriesFrom_succ hl hlast hzero
        have hshorter : ((entriesFrom l start).drop count).length < n := by
          have hne := List.ne_nil_of_mem (List.mem_of_mem_take (List.mem_of_getLast? hlast))
          have hlength := List.length_pos_iff.mpr hne
          rw [List.length_drop]
          omega
        rw [← hrest] at hshorter
        obtain ⟨calls, hcalls⟩ := ih _ hshorter _ (Or.inl hzero) rfl
        refine ⟨calls + 1, (pageThrough_succ_eq_ok hdb hl hpos hmax).mpr ⟨hpage, Or.inr ⟨?_,
          entriesFrom l (x.1 + 1), ?_, ?_⟩⟩⟩
        · rw [hnext]
          exact hzero
        · rw [hnext]
          exact hcalls
        · rw [hrest, hsplit]

theorem entriesFrom_zero (l : List (UInt64 × Digest)) : entriesFrom l 0 = l :=
  List.filter_eq_self.mpr fun _ _ => decide_eq_true UInt64.zero_le

/-- The client is told all entries only if it does not stop early. -/
theorem not_stopsEarly (hdb : ListEntries db.view) (hl : OwnerEntries db o l) {calls : ℕ}
    (h : pageThrough env db o count calls 0 = .ok l) : ¬ StopsEarly count l := by
  rintro ⟨rfl, hmore, t, ht⟩
  cases calls with
  | zero => cases h
  | succ calls =>
    obtain ⟨-, hpages⟩ := (pageThrough_succ_eq_ok hdb hl one_pos (by decide)).mp h
    rw [entriesFrom_zero] at hpages
    cases l with
    | nil => exact absurd ht List.not_mem_nil
    | cons x l =>
      have hx : x.1 = 0 := by
        rcases List.mem_cons.mp ht with rfl | ht
        · rfl
        · exact absurd ((List.pairwise_cons.mp hl.ascending).1 _ ht) UInt64.not_lt_zero
      have hnext : nextPosition ((x :: l).take 1) = 0 := if_pos hx
      rcases hpages with ⟨-, hdata⟩ | ⟨hne, -⟩
      · rw [hdata] at hmore
        exact absurd hmore (Nat.lt_irrefl 1)
      · exact hne hnext

/-- The RPC is refused for a page size out of range. -/
theorem range_of_pageThrough {size : ℤ} {calls : ℕ} {data : List (UInt64 × Digest)}
    (h : pageThrough env db o size calls start = .ok data) : 0 < size ∧ size ≤ 100 := by
  cases calls with
  | zero => cases h
  | succ calls =>
    obtain ⟨reply, hcall, -⟩ := bind_eq_ok.mp h
    obtain ⟨_, hlimit, -⟩ := bind_eq_ok.mp hcall
    have hrange := failIf_eq_ok.mp hlimit
    rw [maximumBitmarksCount] at hrange
    omega

/-- **Paging through the bitmarks of an owner** lists each entry of the owner once, in the order of
the positions, just when the page size is allowed, all that the entries refer to can be found, and
the client does not stop early. -/
theorem bitmarks_paging_iff {trace : List (Node × Op)} {node : Node} (hr : NodeRun env trace node)
    (o : Account) (size : ℤ) :
    ∃ l, OwnerEntries node.access.db o l ∧
      ((∃ calls, pageThrough env node.access.db o size calls 0 = .ok l) ↔
        0 < size ∧ size ≤ 100 ∧ (∀ x ∈ l, Resolves env node.access.committed x.2) ∧
          ¬ StopsEarly size.toNat l) := by
  have hdb : ListEntries (Database.view node.access.db) := hr.ownerList_entries
  obtain ⟨l, hl⟩ := exists_ownerEntries hdb o
  refine ⟨l, hl, ?_, ?_⟩
  · rintro ⟨calls, hcalls⟩
    obtain ⟨hpos, hmax⟩ := range_of_pageThrough hcalls
    obtain ⟨count, rfl⟩ := Int.eq_ofNat_of_zero_le hpos.le
    exact ⟨hpos, hmax, resolves_of_pageThrough hdb hl (by omega) (by omega) hcalls,
      not_stopsEarly hdb hl hcalls⟩
  · rintro ⟨hpos, hmax, hall, hearly⟩
    obtain ⟨count, rfl⟩ := Int.eq_ofNat_of_zero_le hpos.le
    obtain ⟨calls, hcalls⟩ :=
      exists_pageThrough hdb hl (by omega) (by omega) hall 0 (Or.inr hearly)
    rw [entriesFrom_zero] at hcalls
    exact ⟨calls, hcalls⟩

end

namespace Sample

/-- Account 2 gets two bitmarks. -/
def twoIssuesOps : List Op := storeAll 2 [[asset 1, issue 1 0x11 2, issue 1 0x12 2]]

theorem twoIssuesOps_facts :
    (runOps env twoIssuesOps (Node.fresh env)).isSome = true ∧
      (∀ k ∈ (after twoIssuesOps).access.db.keys,
        k.take 34 = prefixKey .ownerList (account 2).bytes →
          k = prefixKey .ownerList (listKey (account 2) 0) ∨
            k = prefixKey .ownerList (listKey (account 2) 1)) ∧
      (after twoIssuesOps).access.db.lookup (prefixKey .ownerList (listKey (account 2) 0)) =
        some (id 0x11).bytes ∧
      (after twoIssuesOps).access.db.lookup (prefixKey .ownerList (listKey (account 2) 1)) =
        some (id 0x12).bytes ∧
      pageThrough env (after twoIssuesOps).access.db (account 2) 2 3 0 =
        .ok [(0, id 0x11), (1, id 0x12)] ∧
      (bitmarks env (after twoIssuesOps).access.db (account 2) 0 1 >>= fun reply =>
        .ok (reply.next, pageOf reply.data)) = .ok (0, [(0, id 0x11)]) := by
  decide +kernel

theorem ownerEntries_two :
    OwnerEntries (after twoIssuesOps).access.db (account 2) [(0, id 0x11), (1, id 0x12)] := by
  obtain ⟨-, hkeys, hzero, hone, -⟩ := twoIssuesOps_facts
  generalize (after twoIssuesOps).access.db = db at hkeys hzero hone ⊢
  refine ⟨List.pairwise_pair.mpr (by decide), fun n t => ⟨fun h => ?_, fun h => ?_⟩⟩
  · rcases List.mem_pair.mp h with h | h <;> cases h
    · exact hzero
    · exact hone
  · have hkey := hkeys _ (Finmap.mem_keys.mpr (Finmap.mem_of_lookup_eq_some h)) rfl
    rcases hkey with hkey | hkey
    all_goals
      obtain ⟨-, rfl⟩ := listKey_inj.mp (prefixKey_inj.mp hkey).2
    · rw [FixedBytes.bytes_inj.mp (Option.some.inj (h.symm.trans hzero))]
      exact List.mem_cons_self
    · rw [FixedBytes.bytes_inj.mp (Option.some.inj (h.symm.trans hone))]
      exact List.mem_cons_of_mem _ List.mem_cons_self

/-- With room for two items, the client is told both. -/
theorem bitmarks_paging_two :
    ∃ l, OwnerEntries (after twoIssuesOps).access.db (account 2) l ∧
      ∃ calls, pageThrough env (after twoIssuesOps).access.db (account 2) 2 calls 0 = .ok l := by
  obtain ⟨hrun, -, -, -, htwo, -⟩ := twoIssuesOps_facts
  obtain ⟨l, hl, hiff⟩ := bitmarks_paging_iff (nodeRun_after hrun) (account 2) 2
  obtain rfl := hl.unique ownerEntries_two
  have hresolves := resolves_of_pageThrough (nodeRun_after hrun).ownerList_entries hl
    (by decide) (by decide) htwo
  exact ⟨_, hl, hiff.mpr ⟨by decide, by decide, hresolves, fun h => absurd h.1 (by decide)⟩⟩

/-- With room for one item, the client stops after the first one, and the second is never listed. -/
theorem bitmarks_stops_early :
    NodeRun env (traceOps env twoIssuesOps (Node.fresh env)) (after twoIssuesOps) ∧
      (after twoIssuesOps).access.committed.get .ownerList (listKey (account 2) 1) =
        some (id 0x12).bytes ∧
      ∀ calls, pageThrough env (after twoIssuesOps).access.db (account 2) 1 (calls + 1) 0 =
        .ok [(0, id 0x11)] := by
  obtain ⟨hrun, -, -, hone, -, hpage⟩ := twoIssuesOps_facts
  refine ⟨nodeRun_after hrun, hone, fun calls => ?_⟩
  obtain ⟨reply, hreply, hpage⟩ := bind_eq_ok.mp hpage
  obtain ⟨hnext, hdata⟩ := Prod.mk.inj (Except.ok.inj hpage)
  exact bind_eq_ok.mpr ⟨reply, hreply, (if_pos hnext).trans (congrArg Except.ok hdata)⟩

end Sample

end Bitmarkd
