import Bitmarkd.Lib.Roster
import Bitmarkd.Ownership.Transfer

/-!
# The ownership indexes

Pools `OwnerList`, `OwnerTxIndex`, `OwnerNextCount` and `OwnerData` are a roster: the list of tx ids
of each owner, the position of each tx id in it, the next position, and the tx ids that have owner
data. Whatever calls of package `ownership` are made, with new tx ids and in whatever database
transactions, the roster in the database is coherent (`ownership_coherent`), although the reads of
`transfer` are stale after a deletion. It takes 2⁶⁴ items of one owner for the 64-bit position to
wrap (`positions_wrap`).
-/

namespace Bitmarkd

open Lib

/-! ## Runs -/

/-- The calls of package `ownership` that write. -/
inductive OwnershipOp
  | createAsset (issueTxId : Digest) (issueBlockNumber : UInt64) (assetId : AssetIdentifier)
      (newOwner : Account)
  | createBlock (issueTxId : Digest) (blockNumber : UInt64) (newOwner : Account)
  | transfer (previousTxId transferTxId : Digest) (transferBlockNumber : UInt64)
      (currentOwner : Account) (newOwner : Option Account)
  | share (previousTxId transferTxId : Digest) (transferBlockNumber : UInt64)
      (currentOwner : Account) (balance : UInt64)

namespace OwnershipOp

/-- The tx id of the record that the call is made for. -/
def txId : OwnershipOp → Digest
  | createAsset issueTxId _ _ _ => issueTxId
  | createBlock issueTxId _ _ => issueTxId
  | transfer _ transferTxId _ _ _ => transferTxId
  | share _ transferTxId _ _ _ => transferTxId

/-- Make the call. -/
def call (a : Access) : OwnershipOp → Except Stop Access
  | createAsset issueTxId issueBlockNumber assetId newOwner =>
    Bitmarkd.createAsset a issueTxId issueBlockNumber assetId newOwner
  | createBlock issueTxId blockNumber newOwner =>
    Bitmarkd.createBlock a issueTxId blockNumber newOwner
  | transfer previousTxId transferTxId transferBlockNumber currentOwner newOwner =>
    transferOwnership a previousTxId transferTxId transferBlockNumber currentOwner newOwner
  | share previousTxId transferTxId transferBlockNumber currentOwner balance =>
    Bitmarkd.share a previousTxId transferTxId transferBlockNumber currentOwner balance

end OwnershipOp

/-- The calls of one database transaction. -/
def runTransaction (a : Access) (ops : List OwnershipOp) : Except Stop Access := do
  let trx ← a.newDBTransaction
  let trx ← ops.foldlM (fun trx op => op.call trx) trx
  let (result, a) := trx.commitTransaction false
  result
  return a

theorem runTransaction_eq_ok {a a' : Access} {ops : List OwnershipOp} :
    runTransaction a ops = .ok a' ↔ ∃ trx, a.inUse = false ∧
      ops.foldlM (fun trx op => op.call trx) a.begin = .ok trx ∧ a' = trx.commit := by
  unfold runTransaction
  constructor
  · intro h
    obtain ⟨trx, hbegin, hrest⟩ := bind_eq_ok.mp h
    obtain ⟨huse, rfl⟩ := newDBTransaction_eq_ok.mp hbegin
    obtain ⟨trx', hcalls, hcommit⟩ := bind_eq_ok.mp hrest
    exact ⟨trx', huse, hcalls, (Except.ok.inj hcommit).symm⟩
  · rintro ⟨trx, huse, hcalls, rfl⟩
    refine bind_eq_ok.mpr ⟨_, newDBTransaction_eq_ok.mpr ⟨huse, rfl⟩, ?_⟩
    exact bind_eq_ok.mpr ⟨trx, hcalls, rfl⟩

/-- The calls, transaction by transaction. -/
def runTransactions (a : Access) (groups : List (List OwnershipOp)) : Except Stop Access :=
  groups.foldlM runTransaction a

/-! ## The roster of a view -/

/-- Positions are ordered as numbers. -/
instance positionLinearOrder : LinearOrder UInt64 where
  le_refl := fun _ => UInt64.le_refl _
  le_trans := fun _ _ _ => UInt64.le_trans
  lt_iff_le_not_ge := fun a b => by
    rw [UInt64.lt_iff_toNat_lt, UInt64.le_iff_toNat_le, UInt64.le_iff_toNat_le]
    omega
  le_antisymm := fun _ _ => UInt64.le_antisymm
  le_total := fun _ _ => UInt64.le_total _ _
  toDecidableLE := inferInstance
  toDecidableEq := inferInstance
  toDecidableLT := inferInstance

/-- The key `owner ⧺ count` of pool `OwnerList`. -/
def listKey (owner : Account) (count : UInt64) : Bytes := owner.bytes ++ be64 count

theorem listKey_inj {o o' : Account} {n n' : UInt64} :
    listKey o n = listKey o' n' ↔ o = o' ∧ n = n' := by
  constructor
  · intro h
    obtain ⟨ho, hn⟩ := List.append_inj' h (by simp)
    exact ⟨Account.bytes_inj.mp ho, be64_inj.mp hn⟩
  · rintro ⟨rfl, rfl⟩
    rfl

/-- The next position of an owner. -/
def View.nextCount (v : View) (o : Account) : UInt64 :=
  ofBE64 ((v.get .ownerNextCount o.bytes).getD (be64 0))

/-- The four pools as a roster. -/
def View.roster (v : View) : Roster Account Digest UInt64 where
  index o t := (v.get .ownerTxIndex (ownerKey o t)).map ofBE64
  list o n := (v.get .ownerList (listKey o n)).bind (FixedBytes.ofBytes? 32)
  next := v.nextCount
  registered t := (v.get .ownerData t.bytes).isSome

/-- Positions have eight bytes, and the lists hold tx ids. -/
structure ListFormat (v : View) : Prop where
  index : ∀ {o t c}, v.get .ownerTxIndex (ownerKey o t) = some c → c.length = 8
  list : ∀ {o n b}, v.get .ownerList (listKey o n) = some b → b.length = 32
  count : ∀ {o c}, v.get .ownerNextCount (Account.bytes o) = some c → c.length = 8

section Roster

variable {v : View} {a a' : Access} {o : Account} {t : Digest} {n : UInt64}

theorem ListFormat.index_eq (h : ListFormat v) :
    v.roster.index o t = some n ↔ v.get .ownerTxIndex (ownerKey o t) = some (be64 n) := by
  simp only [View.roster, Option.map_eq_some_iff]
  constructor
  · rintro ⟨c, hc, rfl⟩
    rw [hc, be64_ofBE64 (h.index hc)]
  · intro hc
    exact ⟨_, hc, ofBE64_be64 n⟩

theorem roster_list_eq :
    v.roster.list o n = some t ↔ v.get .ownerList (listKey o n) = some t.bytes := by
  simp only [View.roster, Option.bind_eq_some_iff]
  constructor
  · rintro ⟨b, hb, ht⟩
    rw [hb, FixedBytes.bytes_of_ofBytes? ht]
  · intro hb
    exact ⟨_, hb, FixedBytes.ofBytes?_bytes t⟩

/-- Pools that are not part of the roster. -/
theorem roster_poolPut {p : Pool} {k b : Bytes} (hp : p ≠ .ownerTxIndex ∧ p ≠ .ownerList ∧
    p ≠ .ownerNextCount ∧ p ≠ .ownerData) :
    (a.poolPut p k b).pending.roster = a.pending.roster := by
  apply Roster.ext
  · simp [View.roster, hp]
  · simp [View.roster, hp]
  · funext w
    simp [View.roster, View.nextCount, hp]
  · simp [View.roster, hp]

/-- `create` appends the tx id. -/
theorem roster_create {d : OwnerData} (hcount : a.view.get .ownerNextCount o.bytes =
    a.pending.get .ownerNextCount o.bytes) (h : create a t d o = .ok a') :
    a'.pending.roster = a.pending.roster.append o t (a.pending.nextCount o + 1) := by
  obtain ⟨count, hc, hlen, rfl⟩ := create_eq_ok h
  have hnext : a.pending.nextCount o = ofBE64 count := by rw [View.nextCount, ← hcount, hc]
  have hkey : o.bytes ++ count = listKey o (ofBE64 count) := by rw [listKey, be64_ofBE64 hlen]
  rw [hnext, hkey]
  apply Roster.ext
  · funext w x
    simp only [View.roster, Roster.append, pending_poolPut, reduceCtorEq, false_and, if_false,
      true_and, ownerKey_inj, hnext]
    by_cases hwx : w = o ∧ x = t
    · obtain ⟨rfl, rfl⟩ := hwx
      simp
    · rw [if_neg hwx, if_neg fun e => hwx ⟨e.1.symm, e.2.symm⟩]
  · funext w n
    simp only [View.roster, Roster.append, pending_poolPut, reduceCtorEq, false_and, if_false,
      true_and, listKey_inj, hnext]
    by_cases hwn : w = o ∧ n = ofBE64 count
    · obtain ⟨rfl, rfl⟩ := hwn
      simp
    · rw [if_neg hwn, if_neg fun e => hwn ⟨e.1.symm, e.2.symm⟩]
  · funext w
    simp only [View.roster, View.nextCount, Roster.append, pending_poolPut, reduceCtorEq,
      false_and, if_false, true_and, Account.bytes_inj]
    by_cases hw : w = o
    · subst hw
      simp
    · rw [if_neg hw, if_neg fun e => hw e.symm]
  · funext x
    simp only [View.roster, Roster.append, pending_poolPut, reduceCtorEq, false_and, if_false,
      true_and, FixedBytes.bytes_inj]
    by_cases hx : x = t
    · simp [hx]
    · simp [hx, Ne.symm hx]

/-- The deletions of `transfer` remove the tx id. -/
theorem roster_deleteOwner (o : Account) (u : Digest) (n : UInt64) :
    (deleteOwner a o u (be64 n)).pending.roster = a.pending.roster.remove o u n := by
  have hkey : o.bytes ++ be64 n = listKey o n := rfl
  rw [deleteOwner, hkey]
  apply Roster.ext
  · funext w x
    simp only [View.roster, Roster.remove, pending_poolRemove, reduceCtorEq, false_and, if_false,
      true_and, ownerKey_inj]
    by_cases hwx : w = o ∧ x = u
    · simp [hwx]
    · rw [if_neg hwx, if_neg fun e => hwx ⟨e.1.symm, e.2.symm⟩]
  · funext w m
    simp only [View.roster, Roster.remove, pending_poolRemove, reduceCtorEq, false_and, if_false,
      true_and, listKey_inj]
    by_cases hwm : w = o ∧ m = n
    · simp [hwm]
    · rw [if_neg hwm, if_neg fun e => hwm ⟨e.1.symm, e.2.symm⟩]
  · funext w
    simp [View.roster, View.nextCount, Roster.remove]
  · funext x
    simp only [View.roster, Roster.remove, pending_poolRemove, reduceCtorEq, false_and, if_false,
      true_and, FixedBytes.bytes_inj]
    by_cases hx : x = u
    · simp [hx]
    · simp [hx, Ne.symm hx]

end Roster

/-! ## The invariant -/

/-- What holds between calls, inside and outside of transactions. `used` lists the tx ids of the
calls so far. -/
structure Keeps (used : List Digest) (a : Access) : Prop where
  format₀ : ListFormat a.committed
  format : ListFormat a.pending
  follows : a.committed.roster.Follows a.pending.roster
  counted : ∀ {o : Account}, (a.committed.get .ownerNextCount o.bytes).isSome →
    (a.pending.get .ownerNextCount o.bytes).isSome
  fresh₀ : ∀ {t}, t ∉ used → a.committed.roster.Absent t
  fresh : ∀ {t}, t ∉ used → a.pending.roster.Absent t
  bound : ∀ o, (a.pending.nextCount o).toNat ≤ used.length

namespace Keeps

variable {used : List Digest} {a a' : Access} {o : Account} {t u : Digest} {d : OwnerData}

theorem empty : Keeps [] (Overlay.ofDb ∅) := by
  have hcoherent : (View.roster fun _ => none).Coherent := by
    constructor <;> intros <;> simp_all [View.roster, View.get]
  have hformat : ListFormat fun _ => none := by
    constructor <;> intros <;> simp_all [View.get]
  refine ⟨hformat, hformat, hcoherent.follows, fun h => h, fun _ _ => rfl, fun _ _ => rfl,
    fun o => ?_⟩
  have hzero : View.nextCount (fun _ => none) o = 0 := ofBE64_be64 0
  change (View.nextCount (fun _ => none) o).toNat ≤ 0
  rw [hzero]
  rfl

theorem mono (h : Keeps used a) (t : Digest) : Keeps (t :: used) a where
  format₀ := h.format₀
  format := h.format
  follows := h.follows
  counted := h.counted
  fresh₀ ht := h.fresh₀ fun hmem => ht (List.mem_cons_of_mem _ hmem)
  fresh ht := h.fresh fun hmem => ht (List.mem_cons_of_mem _ hmem)
  bound o := (h.bound o).trans (Nat.le_succ _)

/-- The next position is never read stale: it is never deleted. -/
theorem view_nextCount (h : Keeps used a) (o : Account) :
    a.view.get .ownerNextCount o.bytes = a.pending.get .ownerNextCount o.bytes := by
  apply (Overlay.get_eq_final_iff a _).mpr
  intro hnone
  by_contra hne
  have hsome := h.counted (Option.isSome_iff_ne_none.mpr hne)
  rw [show a.pending.get .ownerNextCount o.bytes = none from hnone] at hsome
  cases hsome

/-- **Creating** an owner record for a new tx id. -/
theorem create (h : Keeps used a) (ht : t ∉ used) (hlen : used.length + 1 < 2 ^ 64)
    (hc : Bitmarkd.create a t d o = .ok a') : Keeps (t :: used) a' := by
  have hroster := roster_create (h.view_nextCount o) hc
  have hlt : a.pending.nextCount o < a.pending.nextCount o + 1 := by
    have hb := h.bound o
    rw [UInt64.lt_iff_toNat_lt, UInt64.toNat_add]
    have h1 : (1 : UInt64).toNat = 1 := rfl
    rw [h1]
    omega
  have hnext : (a.pending.nextCount o + 1).toNat = (a.pending.nextCount o).toNat + 1 := by
    have hb := h.bound o
    rw [UInt64.toNat_add]
    have h1 : (1 : UInt64).toNat = 1 := rfl
    rw [h1]
    omega
  obtain ⟨count, -, hcount, rfl⟩ := create_eq_ok hc
  refine ⟨h.format₀, ?_, ?_, ?_, ?_, ?_, ?_⟩
  · constructor
    · intro w x c hget
      simp only [pending_poolPut, reduceCtorEq, false_and, if_false, true_and] at hget
      split at hget
      · cases hget
        exact hcount
      · exact h.format.index hget
    · intro w n b hget
      simp only [pending_poolPut, reduceCtorEq, false_and, if_false, true_and] at hget
      split at hget
      · cases hget
        exact t.length_bytes
      · exact h.format.list hget
    · intro w c hget
      simp only [pending_poolPut, reduceCtorEq, false_and, if_false, true_and] at hget
      split at hget
      · cases hget
        exact length_be64 _
      · exact h.format.count hget
  · rw [hroster]
    exact h.follows.append (h.fresh₀ ht) (h.fresh ht) hlt
  · intro w hw
    simp only [pending_poolPut, reduceCtorEq, false_and, if_false, true_and]
    split
    · rfl
    · exact h.counted hw
  · intro x hx
    exact h.fresh₀ fun hmem => hx (List.mem_cons_of_mem _ hmem)
  · intro x hx w
    have hxt : x ≠ t := fun e => hx (e ▸ List.mem_cons_self)
    rw [hroster]
    simp only [Roster.append, hxt, and_false, if_false]
    exact h.fresh (fun hmem => hx (List.mem_cons_of_mem _ hmem)) w
  · intro w
    have hn : View.nextCount _ w = if w = o then a.pending.nextCount o + 1 else
      a.pending.nextCount w := congrFun (congrArg Roster.next hroster) w
    rw [hn, List.length_cons]
    split
    · rw [hnext]
      exact Nat.succ_le_succ (h.bound o)
    · exact (h.bound w).trans (Nat.le_succ _)

/-- Writes to other pools. -/
theorem poolPut {p : Pool} {k b : Bytes} (h : Keeps used a) (hp : p ≠ .ownerTxIndex ∧
    p ≠ .ownerList ∧ p ≠ .ownerNextCount ∧ p ≠ .ownerData) : Keeps used (a.poolPut p k b) := by
  have hroster := roster_poolPut (a := a) (k := k) (b := b) hp
  refine ⟨h.format₀, ?_, ?_, ?_, h.fresh₀, ?_, ?_⟩
  · constructor
    · intro w x c hget
      exact h.format.index (by simpa [hp] using hget)
    · intro w n c hget
      exact h.format.list (by simpa [hp] using hget)
    · intro w c hget
      exact h.format.count (by simpa [hp] using hget)
  · rw [hroster]
    exact h.follows
  · intro w hw
    simpa [hp] using h.counted hw
  · rw [hroster]
    exact h.fresh
  · intro w
    have hn : View.nextCount _ w = a.pending.nextCount w :=
      congrFun (congrArg Roster.next hroster) w
    rw [hn]
    exact h.bound w

/-- **Deleting** the owner record of a tx id, at the position that was read, which may be stale. -/
theorem deleteOwner {c : Bytes} (h : Keeps used a)
    (hc : a.view.get .ownerTxIndex (ownerKey o u) = some c) :
    Keeps used (Bitmarkd.deleteOwner a o u c) := by
  have hread : a.pending.get .ownerTxIndex (ownerKey o u) = some c ∨
      a.committed.get .ownerTxIndex (ownerKey o u) = some c := by
    rcases a.view_eq_pending_or .ownerTxIndex (ownerKey o u) with heq | ⟨-, heq⟩
    · exact Or.inl (heq ▸ hc)
    · exact Or.inr (heq ▸ hc)
  have hlen : c.length = 8 := hread.elim h.format.index h.format₀.index
  obtain ⟨n, rfl⟩ : ∃ n, c = be64 n := ⟨ofBE64 c, (be64_ofBE64 hlen).symm⟩
  have hroster := roster_deleteOwner (a := a) o u n
  have hcases : a.pending.roster.index o u = some n ∨ a.committed.roster.index o u = some n :=
    hread.imp h.format.index_eq.mpr h.format₀.index_eq.mpr
  refine ⟨h.format₀, ?_, ?_, ?_, h.fresh₀, ?_, ?_⟩
  · constructor
    · intro w x c hget
      simp only [Bitmarkd.deleteOwner, pending_poolRemove, reduceCtorEq, false_and, if_false,
        true_and] at hget
      split at hget
      · cases hget
      · exact h.format.index hget
    · intro w m b hget
      simp only [Bitmarkd.deleteOwner, pending_poolRemove, reduceCtorEq, false_and, if_false,
        true_and] at hget
      split at hget
      · cases hget
      · exact h.format.list hget
    · intro w c hget
      simp only [Bitmarkd.deleteOwner, pending_poolRemove, reduceCtorEq, false_and, if_false]
        at hget
      exact h.format.count hget
  · rw [hroster]
    exact h.follows.remove hcases
  · intro w hw
    simpa [Bitmarkd.deleteOwner] using h.counted hw
  · intro x hx w
    rw [hroster]
    simp only [Roster.remove]
    split
    · rfl
    · exact h.fresh hx w
  · intro w
    have hn : View.nextCount _ w = a.pending.nextCount w :=
      congrFun (congrArg Roster.next hroster) w
    rw [hn]
    exact h.bound w

theorem createShare {s : Digest} {q : UInt64} (h : Keeps used a) :
    Keeps used (Bitmarkd.createShare a s t o q) :=
  (h.poolPut (by decide)).poolPut (by decide)

/-- `transfer`, with or without a new owner record. -/
theorem transfer {bn q : UInt64} {new : Option Account} (h : Keeps used a) (ht : t ∉ used)
    (hlen : used.length + 1 < 2 ^ 64) (hcall : Bitmarkd.transfer a u t bn o new q = .ok a') :
    Keeps (t :: used) a' := by
  obtain ⟨dCount, d, hidx, -, hcases⟩ := transfer_eq_ok hcall
  have hdelete := h.deleteOwner hidx
  rcases hcases with ⟨-, -, rfl⟩ | ⟨-, o', item, -, -, hcreate⟩ | ⟨-, s, -, hcreate⟩
  · exact hdelete.mono t
  · exact hdelete.create ht hlen hcreate
  · exact hdelete.createShare.create ht hlen hcreate

/-- **One call** with a new tx id. -/
theorem call {op : OwnershipOp} (h : Keeps used a) (ht : op.txId ∉ used)
    (hlen : used.length + 1 < 2 ^ 64) (hcall : op.call a = .ok a') :
    Keeps (op.txId :: used) a' := by
  cases op with
  | createAsset | createBlock => exact h.create ht hlen hcall
  | transfer => exact h.transfer ht hlen hcall
  | share previousTxId transferTxId transferBlockNumber currentOwner balance =>
    have htransfer : Bitmarkd.transfer a previousTxId transferTxId transferBlockNumber currentOwner
      none balance = .ok a' := hcall
    exact h.transfer ht hlen htransfer

/-- The calls of a transaction. -/
theorem calls {ops : List OwnershipOp} (h : Keeps used a)
    (hnodup : (ops.map OwnershipOp.txId).Nodup) (hnew : ∀ op ∈ ops, op.txId ∉ used)
    (hlen : used.length + ops.length < 2 ^ 64)
    (hcalls : ops.foldlM (fun trx op => op.call trx) a = .ok a') :
    Keeps ((ops.map OwnershipOp.txId).reverse ++ used) a' := by
  induction ops generalizing used a with
  | nil =>
    cases hcalls
    exact h
  | cons op ops ih =>
    rw [List.foldlM_cons] at hcalls
    obtain ⟨a₁, hcall, hcalls⟩ := bind_eq_ok.mp hcalls
    rw [List.map_cons, List.nodup_cons] at hnodup
    rw [List.length_cons] at hlen
    have h₁ := h.call (hnew op List.mem_cons_self) (by omega) hcall
    have hnew₁ : ∀ op' ∈ ops, op'.txId ∉ op.txId :: used := by
      intro op' hop' hmem
      rcases List.mem_cons.mp hmem with heq | hmem
      · exact hnodup.1 (heq ▸ List.mem_map_of_mem hop')
      · exact hnew op' (List.mem_cons_of_mem _ hop') hmem
    have h₂ := ih h₁ hnodup.2 hnew₁ (by rw [List.length_cons]; omega) hcalls
    rwa [List.map_cons, List.reverse_cons, List.append_assoc, List.singleton_append]

theorem begin (h : Keeps used a) : Keeps used (Overlay.begin a) :=
  ⟨h.format₀, h.format, h.follows, h.counted, h.fresh₀, h.fresh, h.bound⟩

/-- Committing: the pending roster becomes the committed one. -/
theorem commit (h : Keeps used a) : Keeps used (Overlay.commit a) := by
  have hpending : Access.pending (Overlay.commit a) = a.pending := by
    rw [Access.pending_of_clean a.clean_commit, committed_commit]
  refine ⟨?_, ?_, ?_, ?_, ?_, ?_, ?_⟩
  · rw [committed_commit]
    exact h.format
  · rw [hpending]
    exact h.format
  · rw [hpending, committed_commit]
    exact h.follows.coherent.follows
  · rw [hpending, committed_commit]
    exact fun hw => hw
  · rw [committed_commit]
    exact h.fresh
  · rw [hpending]
    exact h.fresh
  · rw [hpending]
    exact h.bound

/-- One transaction. -/
theorem runTransaction {ops : List OwnershipOp} (h : Keeps used a)
    (hnodup : (ops.map OwnershipOp.txId).Nodup) (hnew : ∀ op ∈ ops, op.txId ∉ used)
    (hlen : used.length + ops.length < 2 ^ 64) (hrun : Bitmarkd.runTransaction a ops = .ok a') :
    Keeps ((ops.map OwnershipOp.txId).reverse ++ used) a' := by
  obtain ⟨trx, -, hcalls, rfl⟩ := runTransaction_eq_ok.mp hrun
  exact (h.begin.calls hnodup hnew hlen hcalls).commit

/-- **Every run**: the transactions one after the other. -/
theorem runTransactions {groups : List (List OwnershipOp)} (h : Keeps used a)
    (hnodup : (groups.flatten.map OwnershipOp.txId).Nodup)
    (hnew : ∀ op ∈ groups.flatten, op.txId ∉ used)
    (hlen : used.length + groups.flatten.length < 2 ^ 64)
    (hrun : Bitmarkd.runTransactions a groups = .ok a') :
    Keeps ((groups.flatten.map OwnershipOp.txId).reverse ++ used) a' := by
  induction groups generalizing used a with
  | nil =>
    cases hrun
    exact h
  | cons ops groups ih =>
    rw [Bitmarkd.runTransactions, List.foldlM_cons] at hrun
    obtain ⟨a₁, hops, hrun⟩ := bind_eq_ok.mp hrun
    simp only [List.flatten_cons, List.map_append, List.nodup_append, List.length_append,
      List.mem_append] at hnodup hnew hlen
    obtain ⟨hnd, hnd', hdisj⟩ := hnodup
    have h₁ := h.runTransaction hnd (fun op hop => hnew op (Or.inl hop)) (by omega) hops
    have hnew₁ : ∀ op ∈ groups.flatten, op.txId ∉ (ops.map OwnershipOp.txId).reverse ++ used := by
      intro op hop hmem
      rcases List.mem_append.mp hmem with hmem | hmem
      · exact hdisj _ (List.mem_reverse.mp hmem) _ (List.mem_map_of_mem hop) rfl
      · exact hnew op (Or.inr hop) hmem
    have hlen₁ : ((ops.map OwnershipOp.txId).reverse ++ used).length + groups.flatten.length <
        2 ^ 64 := by
      simp only [List.length_append, List.length_reverse, List.length_map]
      omega
    have h₂ := ih h₁ hnd' hnew₁ hlen₁ hrun
    simpa only [List.flatten_cons, List.map_append, List.reverse_append, List.append_assoc] using h₂

end Keeps

/-- **The ownership indexes are coherent** after every run of fewer than 2⁶⁴ calls with new tx ids,
in whatever transactions: `OwnerTxIndex` and `OwnerList` say the same, positions are below
`OwnerNextCount`, and the tx ids with owner data are those with exactly one owner. -/
theorem ownership_coherent {groups : List (List OwnershipOp)} {a : Access}
    (hrun : runTransactions (Overlay.ofDb ∅) groups = .ok a)
    (hnew : (groups.flatten.map OwnershipOp.txId).Nodup) (hlen : groups.flatten.length < 2 ^ 64) :
    (∀ (o : Account) (t : Digest) (n : UInt64),
      a.committed.get .ownerTxIndex (o.bytes ++ t.bytes) = some (be64 n) ↔
        a.committed.get .ownerList (o.bytes ++ be64 n) = some t.bytes) ∧
    (∀ (o : Account) (t : Digest) (c : Bytes),
      a.committed.get .ownerTxIndex (o.bytes ++ t.bytes) = some c →
        ∃ n m, c = be64 n ∧ a.committed.get .ownerNextCount o.bytes = some (be64 m) ∧ n < m) ∧
    ∀ t : Digest, (a.committed.get .ownerData t.bytes).isSome ↔
      ∃! o : Account, (a.committed.get .ownerTxIndex (o.bytes ++ t.bytes)).isSome := by
  have hk := Keeps.empty.runTransactions hnew (fun _ _ hmem => nomatch hmem) (by simpa using hlen)
    hrun
  have hcoherent := hk.follows.coherent₀
  have hindex {o : Account} {t : Digest} {c : Bytes}
      (hc : a.committed.get .ownerTxIndex (o.bytes ++ t.bytes) = some c) :
      a.committed.roster.index o t = some (ofBE64 c) := by
    simp only [View.roster, ownerKey, hc, Option.map_some]
  refine ⟨fun o t n => ?_, fun o t c hc => ?_, fun t => ?_⟩
  · exact (hk.format₀.index_eq.symm.trans hcoherent.index_iff).trans roster_list_eq
  · have hlt := hcoherent.below (hindex hc)
    rcases hm : a.committed.get .ownerNextCount o.bytes with _ | m
    · have hzero : a.committed.nextCount o = 0 := by
        rw [View.nextCount, hm]
        exact ofBE64_be64 0
      change ofBE64 c < a.committed.nextCount o at hlt
      rw [hzero] at hlt
      exact absurd hlt (UInt64.not_lt_zero)
    · refine ⟨ofBE64 c, ofBE64 m, (be64_ofBE64 (hk.format₀.index hc)).symm, ?_, ?_⟩
      · rw [be64_ofBE64 (hk.format₀.count hm)]
      · have hnext : a.committed.nextCount o = ofBE64 m := by
          rw [View.nextCount, hm, Option.getD_some]
        exact hnext ▸ hlt
  · constructor
    · intro ht
      obtain ⟨o, n, hn⟩ := hcoherent.registered_iff.mp ht
      refine ⟨o, ?_, fun o' ho' => ?_⟩
      · have hget := hk.format₀.index_eq.mp hn
        change a.committed.get .ownerTxIndex (o.bytes ++ t.bytes) = _ at hget
        simp [hget]
      · obtain ⟨c, hc⟩ := Option.isSome_iff_exists.mp ho'
        exact hcoherent.owner_unique (hindex hc) hn
    · rintro ⟨o, ho, -⟩
      obtain ⟨c, hc⟩ := Option.isSome_iff_exists.mp ho
      exact hcoherent.registered_iff.mpr ⟨o, _, hindex hc⟩

/-! ## The position wraps -/

section Wrap

/-- The tx id with the number `i`. -/
def numberedId (i : ℕ) : Digest := ⟨beBytes 32 i, length_beBytes 32 i⟩

theorem numberedId_inj {i j : ℕ} (hi : i < 256 ^ 32) (hj : j < 256 ^ 32)
    (h : numberedId i = numberedId j) : i = j := by
  have hvalue := congrArg (fun d : Digest => beValue d.bytes) h
  simp only [numberedId, beValue_beBytes] at hvalue
  rwa [Nat.mod_eq_of_lt hi, Nat.mod_eq_of_lt hj] at hvalue

/-- The first `k` blocks of one owner. -/
def blocksOf (owner : Account) (k : ℕ) : List OwnershipOp :=
  (List.range k).map fun i => .createBlock (numberedId i) 0 owner

/-- Each of them takes the next position. -/
theorem foldlM_blocksOf (owner : Account) (a : Access) (k : ℕ)
    (hstart : a.view.get .ownerNextCount owner.bytes = none) :
    ∃ trx, (blocksOf owner (k + 1)).foldlM (fun trx op => op.call trx) a = .ok trx ∧
      trx.view.get .ownerNextCount owner.bytes = some (be64 (UInt64.ofNat (k + 1))) ∧
      trx.pending.get .ownerNextCount owner.bytes = some (be64 (UInt64.ofNat (k + 1))) ∧
      trx.pending.get .ownerTxIndex (owner.bytes ++ (numberedId k).bytes) =
        some (be64 (UInt64.ofNat k)) := by
  have hcall (trx : Access) (i : ℕ)
      (hcount : (trx.view.get .ownerNextCount owner.bytes).getD (be64 0) =
        be64 (UInt64.ofNat i)) :
      ∃ trx', OwnershipOp.call trx (.createBlock (numberedId i) 0 owner) = .ok trx' ∧
        trx'.view.get .ownerNextCount owner.bytes = some (be64 (UInt64.ofNat (i + 1))) ∧
        trx'.pending.get .ownerNextCount owner.bytes = some (be64 (UInt64.ofNat (i + 1))) ∧
        trx'.pending.get .ownerTxIndex (owner.bytes ++ (numberedId i).bytes) =
          some (be64 (UInt64.ofNat i)) := by
    have hnext : UInt64.ofNat i + 1 = UInt64.ofNat (i + 1) := by
      rw [UInt64.ofNat_add]
      rfl
    have hlength (c : Bytes) (hc : trx.view.get .ownerNextCount owner.bytes = some c) :
        c.length = 8 := by
      rw [hc, Option.getD_some] at hcount
      rw [hcount, length_be64]
    obtain ⟨trx', hok⟩ := create_total (t := numberedId i) (d := ⟨0, numberedId i, 0, .block⟩)
      hlength
    refine ⟨trx', hok, ?_⟩
    obtain ⟨count, hc, -, rfl⟩ := create_eq_ok hok
    rw [hcount] at hc
    subst hc
    simp only [ofBE64_be64, hnext, view_poolPut, pending_poolPut, reduceCtorEq, false_and, if_false,
      and_self, if_true, ownerKey]
  induction k with
  | zero =>
    have hblocks : blocksOf owner 1 = [.createBlock (numberedId 0) 0 owner] := rfl
    obtain ⟨trx, hok, hrest⟩ := hcall a 0 (by rw [hstart]; rfl)
    exact ⟨trx, by rw [hblocks, List.foldlM_cons, hok]; rfl, hrest⟩
  | succ k ih =>
    obtain ⟨trx, hfold, hview, -⟩ := ih
    obtain ⟨trx', hok, hrest⟩ := hcall trx (k + 1) (by rw [hview, Option.getD_some])
    refine ⟨trx', ?_, hrest⟩
    have hblocks : blocksOf owner (k + 1 + 1) =
        blocksOf owner (k + 1) ++ [.createBlock (numberedId (k + 1)) 0 owner] := by
      simp [blocksOf, List.range_succ]
    rw [hblocks, List.foldlM_append, hfold]
    change List.foldlM _ trx _ = _
    rw [List.foldlM_cons, hok]
    rfl

/-- The transaction with the first `k + 1` blocks of an owner. -/
theorem runTransactions_blocksOf (owner : Account) (k : ℕ) :
    ∃ a, runTransactions (Overlay.ofDb ∅) [blocksOf owner (k + 1)] = .ok a ∧
      a.committed.get .ownerNextCount owner.bytes = some (be64 (UInt64.ofNat (k + 1))) ∧
      a.committed.get .ownerTxIndex (owner.bytes ++ (numberedId k).bytes) =
        some (be64 (UInt64.ofNat k)) := by
  obtain ⟨trx, hfold, -, hnext, hindex⟩ :=
    foldlM_blocksOf owner (Overlay.ofDb (∅ : Database)).begin k rfl
  refine ⟨trx.commit, ?_, ?_⟩
  · rw [runTransactions, List.foldlM_cons, runTransaction_eq_ok.mpr ⟨trx, rfl, hfold, rfl⟩]
    rfl
  · rw [committed_commit]
    exact ⟨hnext, hindex⟩

theorem nodup_blocksOf (owner : Account) {k : ℕ} (hk : k ≤ 256 ^ 32) :
    (([blocksOf owner k] : List (List OwnershipOp)).flatten.map OwnershipOp.txId).Nodup := by
  rw [List.flatten_singleton, blocksOf, List.map_map]
  refine List.nodup_range.map_on fun i hi j hj heq => ?_
  have hi := (List.mem_range.mp hi).trans_le hk
  have hj := (List.mem_range.mp hj).trans_le hk
  exact numberedId_inj hi hj heq

/-- After 2⁶⁴ blocks of one owner the next position is 0 again, below all positions in use. -/
theorem positions_wrap : ∃ (groups : List (List OwnershipOp)) (a : Access) (o : Account)
    (t : Digest) (n m : UInt64), runTransactions (Overlay.ofDb ∅) groups = .ok a ∧
      (groups.flatten.map OwnershipOp.txId).Nodup ∧
      a.committed.get .ownerTxIndex (o.bytes ++ t.bytes) = some (be64 n) ∧
      a.committed.get .ownerNextCount o.bytes = some (be64 m) ∧ ¬ n < m := by
  have hk : 2 ^ 64 - 1 + 1 ≤ 256 ^ 32 := by norm_num
  let owner : Account := ⟨.nothing, true, [0, 0], rfl⟩
  obtain ⟨a, hrun, hnext, hindex⟩ := runTransactions_blocksOf owner (2 ^ 64 - 1)
  have hzero : UInt64.ofNat (2 ^ 64 - 1 + 1) = 0 := by decide
  rw [hzero] at hnext
  exact ⟨_, a, owner, _, _, 0, hrun, nodup_blocksOf owner hk, hindex, hnext, UInt64.not_lt_zero⟩

end Wrap

/-- A block is created and then transferred, in two transactions. -/
theorem ownership_coherent_transfer : ∃ a, ∃ (o : Account) (t : Digest),
    runTransactions (Overlay.ofDb ∅)
      [[.createBlock (numberedId 1) 2 o], [.transfer (numberedId 1) t 3 o (some o)]] = .ok a ∧
    ((a.committed.get .ownerData t.bytes).isSome ↔
      ∃! o : Account, (a.committed.get .ownerTxIndex (o.bytes ++ t.bytes)).isSome) := by
  let o : Account := ⟨.nothing, true, [0, 0], rfl⟩
  let groups : List (List OwnershipOp) :=
    [[.createBlock (numberedId 1) 2 o], [.transfer (numberedId 1) (numberedId 2) 3 o (some o)]]
  have hok : (runTransactions (Overlay.ofDb ∅) groups).toOption.isSome = true := by decide +kernel
  rcases hrun : runTransactions (Overlay.ofDb ∅) groups with e | a
  · rw [hrun] at hok
    cases hok
  · exact ⟨a, o, numberedId 2, hrun,
      (ownership_coherent hrun (by decide +kernel) (by decide)).2.2 (numberedId 2)⟩

end Bitmarkd
