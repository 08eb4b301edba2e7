import Bitmarkd.Ledger.View
import Bitmarkd.Block.Frame

/-!
# Formats of the pools

Everything the code puts into a pool has the pool's format. `WellFormed` says so for a whole
database, and in particular that a record is stored under its own hash, unless it is the foundation
of a block. Hashes are collision free on a set `K` of byte strings; the formats say which strings
are in it. So a tx id determines the record (`StoredAs.unique`).
-/

namespace Bitmarkd

open Lib Lib.Provenance

/-- What is stored under tx id `t` for block `n`: a record under its hash, or the foundation of the
block. -/
inductive StoredAs (env : Env) (K : Set Bytes) (t : Digest) (n : UInt64) (packed : Bytes)
    (tx : Transaction) : Prop
  | record : packed ∈ K → 64 ≤ packed.length → t = env.newDigest packed →
      IsRecord env packed tx → tx.IsStored → StoredAs env K t n packed tx
  | foundation {digest : BlockDigest} {len : Nat} : foundationBytes n digest ∈ K →
      t = foundationTxId env n digest → unpack env packed env.isTesting = .ok (tx, len) →
      tx.IsFoundation → StoredAs env K t n packed tx

/-- The key and the value have the format of the pool. -/
def Pool.Valid (env : Env) (K : Set Bytes) : Pool → Bytes → Bytes → Prop
  | .transactions, k, b => ∃ (t : Digest) (n : UInt64) (packed : Bytes) (tx : Transaction),
      k = t.bytes ∧ b = be64 n ++ packed ∧ StoredAs env K t n packed tx
  | .ownerData, k, b => ∃ (t : Digest) (d : OwnerData), k = t.bytes ∧ b = d.pack
  | .ownerTxIndex, k, _ => ∃ (o : Account) (t : Digest), k = ownerKey o t
  | .ownerNextCount, _, b => b.length = 8
  | .shares, k, b => ∃ (s t : Digest) (q : UInt64), k = s.bytes ∧ b = be64 q ++ t.bytes
  | .shareQuantity, k, b => ∃ (o : Account) (s : Digest) (q : UInt64), k = ownerKey o s ∧ b = be64 q
  | .blockOwnerTxIndex, k, b => ∃ (t : Digest) (n : UInt64), k = t.bytes ∧ b = be64 n
  | .blocks, _, _ | .blockHeaderHash, _, _ | .blockOwnerPayment, _, _ | .assets, _, _
  | .ownerList, _, _ | .testData, _, _ => True

/-- Every key and value of the database has the format of its pool. -/
def WellFormed (env : Env) (K : Set Bytes) (v : View) : Prop :=
  ∀ ⦃p k b⦄, v.get p k = some b → Pool.Valid env K p k b

section WellFormed

variable {env : Env} {K : Set Bytes} {v : View} {a : Access}

theorem wellFormed_empty : WellFormed env K fun _ => none := fun _ _ _ h => nomatch h

theorem WellFormed.poolPut {p : Pool} {k b : Bytes} (h : WellFormed env K a.pending)
    (hv : Pool.Valid env K p k b) : WellFormed env K (a.poolPut p k b).pending := by
  intro q l c hc
  rw [pending_poolPut] at hc
  split at hc
  next heq =>
    obtain ⟨rfl, rfl⟩ := heq
    cases hc
    exact hv
  next => exact h hc

theorem WellFormed.poolRemove {p : Pool} {k : Bytes} (h : WellFormed env K a.pending) :
    WellFormed env K (a.poolRemove p k).pending := by
  intro q l c hc
  rw [pending_poolRemove] at hc
  split at hc
  · cases hc
  · exact h hc

/-- What the code reads is well formed when the committed and the pending database are. -/
theorem WellFormed.view (h : WellFormed env K a.pending) (h₀ : WellFormed env K a.committed) :
    WellFormed env K a.view := by
  intro p k b hb
  rcases a.view_eq_pending_or p k with heq | ⟨-, heq⟩
  · exact h (heq ▸ hb)
  · exact h₀ (heq ▸ hb)

/-! ## Records -/

theorem StoredAs.unpack_eq {t : Digest} {n : UInt64} {packed : Bytes} {tx : Transaction}
    (h : StoredAs env K t n packed tx) :
    ∃ len, unpack env packed env.isTesting = .ok (tx, len) := by
  cases h with
  | record _ _ _ hr _ => exact ⟨_, hr⟩
  | foundation _ _ hu _ => exact ⟨_, hu⟩

theorem StoredAs.length_pos {t : Digest} {n : UInt64} {packed : Bytes} {tx : Transaction}
    (h : StoredAs env K t n packed tx) : 0 < packed.length := by
  obtain ⟨len, hu⟩ := h.unpack_eq
  have := unpack_spec hu
  omega

theorem Transaction.IsStored.not_foundation {tx : Transaction} (h : tx.IsStored) :
    ¬ tx.IsFoundation := by
  cases tx <;> simp_all [Transaction.IsStored, Transaction.IsFoundation]

/-- Under the hash of a record there is that record. -/
theorem StoredAs.unique (hK : Set.InjOn env.newDigest K) {t : Digest} {n : UInt64}
    {packed packed' : Bytes} {tx tx' : Transaction} (h : StoredAs env K t n packed tx)
    (hp : packed' ∈ K) (hlen : 64 ≤ packed'.length) (ht : t = env.newDigest packed')
    (hr : IsRecord env packed' tx') : packed = packed' ∧ tx = tx' := by
  cases h with
  | record hpK _ ht' hr' _ =>
    obtain rfl := hK hpK hp (ht'.symm.trans ht)
    exact ⟨rfl, hr'.unique hr⟩
  | foundation hpK ht' _ _ =>
    have hbytes := hK hpK hp (ht'.symm.trans ht)
    have := congrArg List.length hbytes
    simp [foundationBytes] at this
    omega

/-- Under the id of a foundation there is the foundation of that block. -/
theorem StoredAs.of_foundationTxId (hK : Set.InjOn env.newDigest K) {t : Digest} {n m : UInt64}
    {packed : Bytes} {tx : Transaction} {digest : BlockDigest} (h : StoredAs env K t n packed tx)
    (hp : foundationBytes m digest ∈ K) (ht : t = foundationTxId env m digest) :
    n = m ∧ tx.IsFoundation := by
  cases h with
  | record hpK hlen ht' _ _ =>
    have hbytes := hK hpK hp (ht'.symm.trans ht)
    have := congrArg List.length hbytes
    simp [foundationBytes] at this
    omega
  | @foundation digest' len hpK ht' _ hf =>
    have hbytes := hK hpK hp (ht'.symm.trans ht)
    have hn := (List.append_inj' hbytes (by simp)).2
    exact ⟨le64_inj.mp hn, hf⟩

/-- The record under a tx id, in a well-formed database. -/
theorem WellFormed.record_eq_some (h : WellFormed env K v) {t : Digest} {b : ℕ} {tx : Transaction} :
    v.record env t = some (b, tx) ↔ ∃ n packed,
      v.get .transactions t.bytes = some (be64 n ++ packed) ∧ b = n.toNat ∧
        StoredAs env K t n packed tx := by
  have hdrop (n : UInt64) (packed : Bytes) : (be64 n ++ packed).drop 8 = packed :=
    List.drop_left' (length_be64 n)
  constructor
  · intro hr
    unfold View.record at hr
    obtain ⟨buffer, hget, hr⟩ := Option.bind_eq_some_iff.mp hr
    obtain ⟨t', n, packed, tx', hk, rfl, hstored⟩ := h hget
    obtain rfl := FixedBytes.bytes_inj.mp hk
    obtain ⟨len, hu⟩ := hstored.unpack_eq
    simp only [hdrop, hu, ofBE64_be64_append, Option.some.injEq, Prod.mk.injEq] at hr
    obtain ⟨rfl, rfl⟩ := hr
    exact ⟨n, packed, hget, rfl, hstored⟩
  · rintro ⟨n, packed, hget, rfl, hstored⟩
    obtain ⟨len, hu⟩ := hstored.unpack_eq
    simp [View.record, hget, hdrop, hu]

theorem WellFormed.record_eq_none (h : WellFormed env K v) {t : Digest} :
    v.record env t = none ↔ v.get .transactions t.bytes = none := by
  constructor
  · intro hr
    by_contra hne
    obtain ⟨buffer, hget⟩ := Option.ne_none_iff_exists'.mp hne
    obtain ⟨t', n, packed, tx, hk, rfl, hstored⟩ := h hget
    obtain rfl := FixedBytes.bytes_inj.mp hk
    rw [h.record_eq_some.mpr ⟨n, packed, hget, rfl, hstored⟩] at hr
    cases hr
  · intro hget
    simp [View.record, hget]

/-- `GetNB` on pool `Transactions` finds the record. -/
theorem WellFormed.getNB_transactions (h : WellFormed env K v) {t : Digest} {n : UInt64}
    {packed : Bytes} (hget : v.get .transactions t.bytes = some (be64 n ++ packed)) :
    v.getNB .transactions t.bytes = .ok (some (n, packed)) := by
  obtain ⟨t', n', packed', tx, -, hb, hstored⟩ := h hget
  obtain ⟨-, rfl⟩ := List.append_inj hb (by simp)
  have hpos := hstored.length_pos
  have hlen : ¬ (be64 n ++ packed).length < 9 := by
    simp only [List.length_append, length_be64]
    omega
  have hdrop : (be64 n ++ packed).drop 8 = packed := List.drop_left' (length_be64 n)
  rw [View.getNB, hget]
  simp only [if_neg hlen, ofBE64_be64_append, hdrop]

/-- **`OwnerOf`** by the record under the tx id: it panics if that has no owner. -/
theorem WellFormed.ownerOf_eq (h : WellFormed env K v) (t : Digest) : ownerOf env v t =
    match v.record env t with
    | none => .ok none
    | some (b, tx) =>
      match tx.owner? with
      | some o => .ok (some (UInt64.ofNat b, o))
      | none => panicAt .ownerOfIncorrectTransaction := by
  cases hr : v.record env t with
  | none =>
    have hget := h.record_eq_none.mp hr
    simp only [ownerOf, View.getNB, hget]
    rfl
  | some r =>
    obtain ⟨b, tx⟩ := r
    obtain ⟨n, packed, hget, rfl, hstored⟩ := h.record_eq_some.mp hr
    obtain ⟨len, hu⟩ := hstored.unpack_eq
    simp only [ownerOf, h.getNB_transactions hget, bind, Except.bind, hu, UInt64.ofNat_toNat]
    cases tx.owner? <;> rfl

/-- `OwnerOf` found an owner. -/
theorem WellFormed.ownerOf_eq_some (h : WellFormed env K v) {t : Digest} {n : UInt64}
    {o : Account} :
    ownerOf env v t = .ok (some (n, o)) ↔
      ∃ tx, v.record env t = some (n.toNat, tx) ∧ tx.owner? = some o := by
  rw [h.ownerOf_eq]
  constructor
  · intro hok
    split at hok
    · simp at hok
    next b tx hr =>
      split at hok
      next o' ho =>
        simp only [Except.ok.injEq, Option.some.injEq, Prod.mk.injEq] at hok
        obtain ⟨rfl, rfl⟩ := hok
        obtain ⟨n, packed, -, rfl, -⟩ := h.record_eq_some.mp hr
        exact ⟨tx, by rw [UInt64.ofNat_toNat]; exact hr, ho⟩
      next => simp at hok
  · rintro ⟨tx, hr, ho⟩
    simp [hr, ho]

/-! ## Owner data and counts -/

theorem WellFormed.head_eq_some (h : WellFormed env K v) {t : Digest} {d : OwnerData} :
    v.head t = some d ↔ v.get .ownerData t.bytes = some d.pack := by
  rw [View.head_eq_some, getOwnerData]
  constructor
  · intro hd
    split at hd
    · simp at hd
    next packed hget =>
      obtain ⟨t', d', -, rfl⟩ := h hget
      rw [OwnerData.unpack_pack] at hd
      cases hd
      exact hget
  · intro hget
    simp [hget]

/-- Balances can be read. -/
theorem WellFormed.getN_shareQuantity (h : WellFormed env K v) (k : Bytes) :
    v.getN .shareQuantity k = .ok ((v.get .shareQuantity k).map ofBE64) := by
  rw [View.getN]
  cases hget : v.get .shareQuantity k with
  | none => rfl
  | some b =>
    obtain ⟨o, s, q, -, rfl⟩ := h hget
    simp

end WellFormed

/-! ## Writes keep the formats -/

section Writes

variable {env : Env} {K : Set Bytes} {a a' : Access} {t u : Digest} {d : OwnerData} {o : Account}

theorem WellFormed.create (h : WellFormed env K a.pending) (hc : create a t d o = .ok a') :
    WellFormed env K a'.pending := by
  obtain ⟨count, -, -, rfl⟩ := create_eq_ok hc
  refine (((h.poolPut ?_).poolPut ?_).poolPut ?_).poolPut ?_
  · exact length_be64 _
  · trivial
  · exact ⟨o, t, rfl⟩
  · exact ⟨t, d, rfl, rfl⟩

theorem WellFormed.deleteOwner (h : WellFormed env K a.pending) (o : Account) (u : Digest)
    (dCount : Bytes) : WellFormed env K (deleteOwner a o u dCount).pending :=
  ((h.poolRemove).poolRemove).poolRemove

theorem WellFormed.createShare (h : WellFormed env K a.pending) (s t : Digest) (o : Account)
    (q : UInt64) : WellFormed env K (createShare a s t o q).pending := by
  refine (h.poolPut ?_).poolPut ?_
  · exact ⟨s, t, q, rfl, rfl⟩
  · exact ⟨o, s, q, rfl, rfl⟩

theorem WellFormed.transfer {n q : UInt64} {new : Option Account}
    (h : WellFormed env K a.pending) (ht : transfer a u t n o new q = .ok a') :
    WellFormed env K a'.pending := by
  obtain ⟨dCount, d, -, -, ⟨-, -, rfl⟩ | ⟨-, o', item, -, -, hcreate⟩ | ⟨-, s, -, hcreate⟩⟩ :=
    transfer_eq_ok ht
  · exact h.deleteOwner _ _ _
  · exact (h.deleteOwner _ _ _).create hcreate
  · exact ((h.deleteOwner _ _ _).createShare _ _ _ _).create hcreate

theorem WellFormed.setBalance (h : WellFormed env K a.pending) (o : Account) (s : Digest)
    (balance : UInt64) : WellFormed env K (setBalance a (ownerKey o s) balance).pending := by
  unfold Bitmarkd.setBalance
  split
  · exact h.poolRemove
  · exact h.poolPut ⟨o, s, balance, rfl, rfl⟩

theorem WellFormed.poolPutN (h : WellFormed env K a.pending) (o : Account) (s : Digest)
    (balance : UInt64) :
    WellFormed env K (a.poolPutN .shareQuantity (ownerKey o s) balance).pending :=
  h.poolPut ⟨o, s, balance, rfl, rfl⟩

theorem WellFormed.updateShareGrant {tx : ShareGrant} (h : WellFormed env K a.pending)
    (hu : updateShareGrant a tx = .ok a') : WellFormed env K a'.pending := by
  obtain ⟨oBalance, -, hu⟩ := bind_eq_ok.mp hu
  cases oBalance with
  | none => simp at hu
  | some oBalance =>
    obtain ⟨rBalance, -, hu⟩ := bind_eq_ok.mp hu
    cases hu
    exact (h.setBalance _ _ _).poolPutN _ _ _

theorem WellFormed.updateShareSwap {tx : ShareSwap} (h : WellFormed env K a.pending)
    (hu : updateShareSwap a tx = .ok a') : WellFormed env K a'.pending := by
  obtain ⟨b₁, -, hu⟩ := bind_eq_ok.mp hu
  cases b₁ with
  | none => simp at hu
  | some b₁ =>
    obtain ⟨b₂, -, hu⟩ := bind_eq_ok.mp hu
    cases b₂ with
    | none => simp at hu
    | some b₂ =>
      obtain ⟨b₃, -, hu⟩ := bind_eq_ok.mp hu
      obtain ⟨b₄, -, hu⟩ := bind_eq_ok.mp hu
      cases hu
      exact (((h.setBalance _ _ _).poolPutN _ _ _).setBalance _ _ _).poolPutN _ _ _

theorem WellFormed.undoShareGrant {tx : ShareGrant} (h : WellFormed env K a.pending)
    (hu : undoShareGrant a t tx = .ok a') : WellFormed env K a'.pending := by
  obtain ⟨oBalance, -, hu⟩ := bind_eq_ok.mp hu
  obtain ⟨rBalance, -, hu⟩ := bind_eq_ok.mp hu
  cases rBalance with
  | none => simp at hu
  | some rBalance =>
    cases hu
    exact (h.poolRemove.setBalance _ _ _).poolPutN _ _ _

theorem WellFormed.undoShareSwap {tx : ShareSwap} (h : WellFormed env K a.pending)
    (hu : undoShareSwap a t tx = .ok a') : WellFormed env K a'.pending := by
  obtain ⟨b₁, -, hu⟩ := bind_eq_ok.mp hu
  obtain ⟨b₂, -, hu⟩ := bind_eq_ok.mp hu
  obtain ⟨b₃, -, hu⟩ := bind_eq_ok.mp hu
  cases b₃ with
  | none => simp at hu
  | some b₃ =>
    obtain ⟨b₄, -, hu⟩ := bind_eq_ok.mp hu
    cases b₄ with
    | none => simp at hu
    | some b₄ =>
      cases hu
      exact (((h.poolRemove.setBalance _ _ _).poolPutN _ _ _).setBalance _ _ _).poolPutN _ _ _

end Writes

end Bitmarkd
