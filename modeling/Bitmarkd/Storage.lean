import Bitmarkd.Fault
import Bitmarkd.Lib.Overlay

/-!
# Storage

Package `storage`. All pools share one leveldb database, whose keys carry the pool's prefix byte,
and one `AccessData`: the database with a batch, and a cache of the batch that the pool handles
read through. That is `Lib.Overlay` at byte strings, with the stale reads it has after a deletion.

The reads of a pool are functions of a `View`, so that the same function can be asked about what
the code sees (`Access.view`), about what the database will hold after the commit
(`Access.pending`), and about the committed database.
-/

namespace Bitmarkd

open Lib

/-! ## Pools -/

/-- The pools of the bitmarks database. -/
inductive Pool
  | blocks
  | blockHeaderHash
  | blockOwnerPayment
  | blockOwnerTxIndex
  | assets
  | transactions
  | ownerNextCount
  | ownerList
  | ownerTxIndex
  | ownerData
  | shares
  | shareQuantity
  | testData
deriving DecidableEq, Repr

/-- The byte before every key of a pool. -/
def Pool.tag : Pool → UInt8
  | .blocks => 0x42
  | .blockHeaderHash => 0x32
  | .blockOwnerPayment => 0x48
  | .blockOwnerTxIndex => 0x49
  | .assets => 0x41
  | .transactions => 0x54
  | .ownerNextCount => 0x4e
  | .ownerList => 0x4c
  | .ownerTxIndex => 0x44
  | .ownerData => 0x4f
  | .shares => 0x46
  | .shareQuantity => 0x51
  | .testData => 0x5a

theorem Pool.tag_inj {p q : Pool} (h : p.tag = q.tag) : p = q := by
  revert h
  cases p <;> cases q <;> decide

/-- `prefixKey`. -/
def prefixKey (p : Pool) (key : Bytes) : Bytes := p.tag :: key

@[simp] theorem prefixKey_inj {p q : Pool} {k l : Bytes} :
    prefixKey p k = prefixKey q l ↔ p = q ∧ k = l := by
  constructor
  · intro h
    obtain ⟨htag, hkey⟩ := List.cons.inj h
    exact ⟨Pool.tag_inj htag, hkey⟩
  · rintro ⟨rfl, rfl⟩
    rfl

/-! ## Reading -/

/-- The committed database. -/
abbrev Database := Finmap fun _ : Bytes => Bytes

/-- What a reader finds under each prefixed key. -/
abbrev View := Bytes → Option Bytes

namespace View

/-- `PoolHandle.Get`: `none` is `nil`. -/
def get (v : View) (p : Pool) (key : Bytes) : Option Bytes := v (prefixKey p key)

/-- `Has`. -/
def has (v : View) (p : Pool) (key : Bytes) : Bool := (v.get p key).isSome

/-- `PoolHandle.GetN`: the number in the first eight bytes. -/
def getN (v : View) (p : Pool) (key : Bytes) : Except Stop (Option UInt64) :=
  match v.get p key with
  | none => .ok none
  | some buffer =>
    if buffer.length < 8 then panicAt .truncatedRecord else .ok (some (ofBE64 buffer))

/-- `GetNB`: the number in the first eight bytes, and the rest. -/
def getNB (v : View) (p : Pool) (key : Bytes) : Except Stop (Option (UInt64 × Bytes)) :=
  match v.get p key with
  | none => .ok none
  | some buffer =>
    if buffer.length < 9 then panicAt .truncatedRecord
    else .ok (some (ofBE64 buffer, buffer.drop 8))

end View

/-- `LastElement`: the last key of a pool in the committed database, without its prefix byte, and
its value. -/
def Database.lastElement (db : Database) (p : Pool) : Option (Bytes × Bytes) :=
  match (db.keys.filter fun k => [p.tag] ≤ k ∧ k < [p.tag + 1]).max with
  | none => none
  | some k => (db.lookup k).map (k.drop 1, ·)

/-- The keys of a pool lie between its tag and the next one. -/
theorem mem_poolRange {p : Pool} {k : Bytes} :
    [p.tag] ≤ k ∧ k < [p.tag + 1] ↔ ∃ key, k = prefixKey p key := by
  have hsucc : (p.tag + 1).toNat = p.tag.toNat + 1 := by cases p <;> rfl
  have htag : p.tag < p.tag + 1 ∧ ∀ x : UInt8, p.tag ≤ x → x < p.tag + 1 → x = p.tag := by
    simp only [UInt8.lt_iff_toNat_lt, UInt8.le_iff_toNat_le, ← UInt8.toNat_inj, hsucc]
    exact ⟨Nat.lt_succ_self _, fun x hle hlt => by omega⟩
  constructor
  · rintro ⟨hle, hlt⟩
    cases k with
    | nil => exact absurd hle (by simp)
    | cons x key =>
      rw [← not_lt, List.cons_lt_cons_iff] at hle
      rw [List.cons_lt_cons_iff] at hlt
      have hx : p.tag ≤ x := le_of_not_gt fun hc => hle (Or.inl hc)
      have hx' : x < p.tag + 1 := by
        rcases hlt with hlt | ⟨-, hlt⟩
        · exact hlt
        · simp at hlt
      exact ⟨key, by rw [htag.2 x hx hx']; rfl⟩
  · rintro ⟨key, rfl⟩
    refine ⟨?_, List.cons_lt_cons_iff.mpr (Or.inl htag.1)⟩
    rw [← not_lt, prefixKey, List.cons_lt_cons_iff]
    simp

/-- `LastElement` finds the largest key of the pool. -/
theorem lastElement_eq_some {db : Database} {p : Pool} {key b : Bytes} :
    Database.lastElement db p = some (key, b) ↔ db.lookup (prefixKey p key) = some b ∧
      ∀ k, (db.lookup (prefixKey p k)).isSome → k ≤ key := by
  have hmem (k : Bytes) : prefixKey p k ∈ db.keys.filter (fun k => [p.tag] ≤ k ∧ k < [p.tag + 1]) ↔
      (db.lookup (prefixKey p k)).isSome := by
    rw [Finset.mem_filter, Finmap.mem_keys, ← Finmap.lookup_isSome]
    exact and_iff_left (mem_poolRange.mpr ⟨k, rfl⟩)
  have hle (k l : Bytes) : prefixKey p k ≤ prefixKey p l ↔ k ≤ l := by
    rw [← not_lt, ← not_lt, prefixKey, prefixKey, List.cons_lt_cons_iff]
    simp
  unfold Database.lastElement
  split
  next hmax =>
    have hempty := Finset.max_eq_bot.mp hmax
    refine ⟨fun h => (nomatch h), fun h => ?_⟩
    have hkey := (hmem key).mpr (by simp [h.1])
    simp [hempty] at hkey
  next k hmax =>
    have hk := Finset.mem_of_max hmax
    obtain ⟨key', rfl⟩ := mem_poolRange.mp (Finset.mem_filter.mp hk).2
    have hupper (l : Bytes) (hl : (db.lookup (prefixKey p l)).isSome) : l ≤ key' :=
      (hle l key').mp (Finset.le_max_of_eq ((hmem l).mpr hl) hmax)
    obtain ⟨b', hb'⟩ := Option.isSome_iff_exists.mp ((hmem key').mp hk)
    have hdrop : (prefixKey p key').drop 1 = key' := rfl
    rw [hb', hdrop, Option.map_some, Option.some.injEq, Prod.mk.injEq]
    constructor
    · rintro ⟨rfl, rfl⟩
      exact ⟨hb', hupper⟩
    · rintro ⟨hb, hkey⟩
      have heq : key' = key := le_antisymm (hkey key' (by simp [hb'])) (hupper key (by simp [hb]))
      subst heq
      exact ⟨rfl, Option.some.inj (hb'.symm.trans hb)⟩

theorem lastElement_eq_none {db : Database} {p : Pool} :
    Database.lastElement db p = none ↔ ∀ k, db.lookup (prefixKey p k) = none := by
  unfold Database.lastElement
  split
  next hmax =>
    have hempty := Finset.max_eq_bot.mp hmax
    refine ⟨fun _ k => ?_, fun _ => rfl⟩
    by_contra hne
    have hk : prefixKey p k ∈ db.keys.filter (fun k => [p.tag] ≤ k ∧ k < [p.tag + 1]) := by
      rw [Finset.mem_filter, Finmap.mem_keys, ← Finmap.lookup_isSome]
      exact ⟨Option.isSome_iff_ne_none.mpr hne, mem_poolRange.mpr ⟨k, rfl⟩⟩
    simp [hempty] at hk
  next k hmax =>
    have hk := Finset.mem_filter.mp (Finset.mem_of_max hmax)
    obtain ⟨key, rfl⟩ := mem_poolRange.mp hk.2
    have hsome := Finmap.lookup_isSome.mpr (Finmap.mem_keys.mp hk.1)
    obtain ⟨b, hb⟩ := Option.isSome_iff_exists.mp hsome
    simp only [hb, Option.map_some]
    exact ⟨fun h => (nomatch h), fun h => by rw [h key] at hb; cases hb⟩

/-! ## Writing -/

/-- `AccessData`. -/
abbrev Access := Overlay Bytes Bytes

namespace Access

/-- What the pool handles read. -/
def view (a : Access) : View := a.get

/-- What the database will hold after the commit. -/
def pending (a : Access) : View := a.final

/-- What the database holds. -/
def committed (a : Access) : View := fun k => a.db.lookup k

/-- `PoolHandle.Put`. -/
def poolPut (a : Access) (p : Pool) (key value : Bytes) : Access := a.put (prefixKey p key) value

/-- `PoolHandle.PutN`. -/
def poolPutN (a : Access) (p : Pool) (key : Bytes) (value : UInt64) : Access :=
  a.poolPut p key (be64 value)

/-- `PoolNB.Put`, whose first value is always a block number key. -/
def poolPutNB (a : Access) (p : Pool) (key : Bytes) (nValue : UInt64) (bValue : Bytes) : Access :=
  a.poolPut p key (be64 nValue ++ bValue)

/-- `Remove`. -/
def poolRemove (a : Access) (p : Pool) (key : Bytes) : Access := a.delete (prefixKey p key)

/-- `NewDBTransaction`. -/
def newDBTransaction (a : Access) : Except Stop Access :=
  if a.inUse then fault .transactionAlreadyInUse else .ok a.begin

/-- `TransactionData.Commit`. If the write fails, the transaction is left as it is: the error
returns before `Abort`. -/
def commitTransaction (a : Access) (writeFails : Bool) : Except Stop Unit × Access :=
  if writeFails then (fault .databaseWrite, a) else (.ok (), a.commit)

end Access

theorem newDBTransaction_eq_ok {a trx : Access} :
    a.newDBTransaction = .ok trx ↔ a.inUse = false ∧ trx = a.begin := by
  unfold Access.newDBTransaction
  split
  next h => simp [h]
  next h =>
    constructor
    · intro hok
      exact ⟨by simpa using h, (Except.ok.inj hok).symm⟩
    · rintro ⟨-, rfl⟩
      rfl

/-! ## The pools after a write -/

section Writes

variable (a : Access) (p q : Pool) (k l v : Bytes)

@[simp] theorem view_poolPut : (a.poolPut p k v).view.get q l =
    if p = q ∧ k = l then some v else a.view.get q l := by
  simp [View.get, Access.view, Access.poolPut, Overlay.get_put]

@[simp] theorem pending_poolPut : (a.poolPut p k v).pending.get q l =
    if p = q ∧ k = l then some v else a.pending.get q l := by
  simp [View.get, Access.pending, Access.poolPut, Overlay.final_put]

@[simp] theorem view_poolRemove : (a.poolRemove p k).view.get q l =
    if p = q ∧ k = l then a.committed.get p k else a.view.get q l := by
  simp [View.get, Access.view, Access.committed, Access.poolRemove, Overlay.get_delete]

@[simp] theorem pending_poolRemove : (a.poolRemove p k).pending.get q l =
    if p = q ∧ k = l then none else a.pending.get q l := by
  simp [View.get, Access.pending, Access.poolRemove, Overlay.final_delete]

@[simp] theorem committed_poolPut : (a.poolPut p k v).committed = a.committed := rfl

@[simp] theorem committed_poolRemove : (a.poolRemove p k).committed = a.committed := rfl

@[simp] theorem committed_commit : Access.committed a.commit = a.pending := by
  funext key
  exact a.lookup_commit key

@[simp] theorem view_begin : Access.view a.begin = a.view := rfl

@[simp] theorem pending_begin : Access.pending a.begin = a.pending := rfl

variable {a} in
theorem Access.view_of_clean (h : a.Clean) : a.view = a.committed := by
  funext key
  exact h.get_eq key

variable {a} in
theorem Access.pending_of_clean (h : a.Clean) : a.pending = a.committed := by
  funext key
  exact h.final_eq key

/-- What the code reads is what will be committed, or the committed value of a key whose deletion
is pending. -/
theorem Access.view_eq_pending_or : a.view.get p k = a.pending.get p k ∨
    a.pending.get p k = none ∧ a.view.get p k = a.committed.get p k :=
  a.get_eq_final_or (prefixKey p k)

/-- A committed key is always found. -/
theorem Access.view_isSome (h : (a.committed.get p k).isSome) : (a.view.get p k).isSome :=
  Option.isSome_iff_ne_none.mpr
    (a.get_ne_none _ (Or.inl (Option.isSome_iff_ne_none.mp h)))

end Writes

end Bitmarkd
