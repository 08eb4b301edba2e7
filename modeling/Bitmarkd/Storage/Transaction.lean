import Bitmarkd.Storage

/-!
# Database transactions

`TransactionData`: the calls between `Begin` and `Commit` or `Abort`. A transaction should behave as
the committed content overlaid with its own puts and deletes. For `Commit` and `Abort` it does. A
read does not in two cases (`transaction_overlay_iff`):

- a key of the committed content that the transaction deleted reads as its committed value,
- `Get` and `GetN` of the two pools of type `PoolNB` are stubs.
-/

namespace Bitmarkd

open Lib

/-- The pools whose handle is a `PoolNB`. -/
def Pool.isPoolNB : Pool → Bool
  | .assets | .transactions => true
  | _ => false

/-- The calls of a transaction. -/
inductive TrxOp
  | put (p : Pool) (key value additional : Bytes)
  | putN (p : Pool) (key : Bytes) (value : UInt64)
  | delete (p : Pool) (key : Bytes)
  | get (p : Pool) (key : Bytes)
  | getN (p : Pool) (key : Bytes)
  | getNB (p : Pool) (key : Bytes)
  | has (p : Pool) (key : Bytes)
deriving DecidableEq, Repr

/-- What a call returns. -/
inductive Reply
  | done
  | bytes (value : Option Bytes)
  | number (n : Option UInt64)
  | numberBytes (nb : Option (UInt64 × Bytes))
  | bool (b : Bool)
deriving DecidableEq, Repr

/-! ## The code -/

/-- One call, on a `PoolHandle` or a `PoolNB`. -/
def TrxOp.call (a : Access) : TrxOp → Except Stop Reply × Access
  | .put p key value additional =>
    if p.isPoolNB then
      if value.length ≠ 8 then (panicAt .putNBFirstParameter, a)
      else (.ok .done, a.poolPut p key (value ++ additional))
    else (.ok .done, a.poolPut p key value)
  | .putN p key value =>
    if p.isPoolNB then (panicAt .putNOfPoolNB, a) else (.ok .done, a.poolPutN p key value)
  | .delete p key => (.ok .done, a.poolRemove p key)
  | .get p key => (.ok (.bytes (if p.isPoolNB then some [] else a.view.get p key)), a)
  | .getN p key => ((if p.isPoolNB then .ok none else a.view.getN p key).map .number, a)
  | .getNB p key => ((a.view.getNB p key).map .numberBytes, a)
  | .has p key => (.ok (.bool (a.view.has p key)), a)

/-- The state after a sequence of calls. -/
def callAll (a : Access) (ops : List TrxOp) : Access := ops.foldl (fun a op => (op.call a).2) a

/-- `TransactionData.Abort`. -/
def Access.abortTransaction (a : Access) : Access := Overlay.abort a

/-! ## The overlay -/

/-- What a call writes: a value, or `none` for a deletion. A call that panics writes nothing. -/
def TrxOp.write? : TrxOp → Option (Pool × Bytes × Option Bytes)
  | .put p key value additional =>
    if p.isPoolNB then if value.length = 8 then some (p, key, some (value ++ additional)) else none
    else some (p, key, some value)
  | .putN p key value => if p.isPoolNB then none else some (p, key, some (be64 value))
  | .delete p key => some (p, key, none)
  | .get _ _ | .getN _ _ | .getNB _ _ | .has _ _ => none

/-- A content overlaid with what a call writes. -/
def TrxOp.overlay (v : View) (op : TrxOp) : View :=
  match op.write? with
  | none => v
  | some (p, key, w) => Function.update v (prefixKey p key) w

/-- A content overlaid with the writes of a sequence of calls. -/
def overlaid (v : View) (ops : List TrxOp) : View := ops.foldl TrxOp.overlay v

/-- What a read should return of a content. -/
def TrxOp.expected (v : View) : TrxOp → Option (Except Stop Reply)
  | .get p key => some (.ok (.bytes (v.get p key)))
  | .getN p key => some ((v.getN p key).map .number)
  | .getNB p key => some ((v.getNB p key).map .numberBytes)
  | .has p key => some (.ok (.bool (v.has p key)))
  | .put _ _ _ _ | .putN _ _ _ | .delete _ _ => none

/-- The transaction over a committed content behaves as the overlay. -/
structure BehavesAsOverlay (db : Database) (trx : Access) (ops : List TrxOp) : Prop where
  reads : ∀ earlier op later, ops = earlier ++ op :: later → ∀ r,
    op.expected (overlaid (fun k => db.lookup k) earlier) = some r →
      (op.call (callAll trx earlier)).1 = r
  commit : ∃ a, (callAll trx ops).commitTransaction false = (.ok (), a) ∧
    a.committed = overlaid (fun k => db.lookup k) ops
  abort : (callAll trx ops).abortTransaction.committed = fun k => db.lookup k

/-- The key is absent from the overlaid content `v` only if it is from the committed one. -/
def NotDeleted (db v : View) (p : Pool) (key : Bytes) : Prop :=
  v.get p key = none → db.get p key = none

/-- The read is one that the code answers: the key is not deleted, and a `Get` or `GetN` of a
`PoolNB` finds what the stub returns. -/
def TrxOp.Answered (db v : View) : TrxOp → Prop
  | .get p key => if p.isPoolNB then v.get p key = some [] else NotDeleted db v p key
  | .getN p key => if p.isPoolNB then v.get p key = none else NotDeleted db v p key
  | .getNB p key | .has p key => NotDeleted db v p key
  | .put _ _ _ _ | .putN _ _ _ | .delete _ _ => True

/-! ## One call -/

section Call

variable {a : Access} {op : TrxOp} {p : Pool} {key : Bytes}

theorem poolPut_pending (a : Access) (p : Pool) (key value : Bytes) :
    (a.poolPut p key value).pending = Function.update a.pending (prefixKey p key) (some value) := by
  funext k
  simp [Access.pending, Access.poolPut, Overlay.final_put, Function.update_apply, eq_comm]

theorem poolRemove_pending (a : Access) (p : Pool) (key : Bytes) :
    (a.poolRemove p key).pending = Function.update a.pending (prefixKey p key) none := by
  funext k
  simp [Access.pending, Access.poolRemove, Overlay.final_delete, Function.update_apply, eq_comm]

/-- A call overlays the pending content. -/
theorem pending_call (a : Access) (op : TrxOp) : (op.call a).2.pending = op.overlay a.pending := by
  cases op with
  | put p key value additional =>
    unfold TrxOp.call TrxOp.overlay TrxOp.write?
    by_cases hp : p.isPoolNB
    · by_cases hv : value.length = 8
      · simp [hp, hv, poolPut_pending]
      · simp [hp, hv]
    · simp [hp, poolPut_pending]
  | putN p key value =>
    unfold TrxOp.call TrxOp.overlay TrxOp.write?
    by_cases hp : p.isPoolNB
    · simp [hp]
    · simp [hp, Access.poolPutN, poolPut_pending]
  | delete p key => exact poolRemove_pending a p key
  | get | getN | getNB | has => rfl

/-- A call leaves the committed content alone. -/
theorem committed_call (a : Access) (op : TrxOp) : (op.call a).2.committed = a.committed := by
  cases op with
  | put p key value additional =>
    simp only [TrxOp.call]
    split_ifs <;> rfl
  | putN p key value =>
    simp only [TrxOp.call]
    split_ifs <;> rfl
  | delete | get | getN | getNB | has => rfl

/-- A read that tells an absent key from all others is right exactly when the key is not
deleted. -/
theorem read_eq_iff {α : Type} {f : Option Bytes → α} (hf : ∀ x, f x = f none → x = none) :
    f (a.view.get p key) = f (a.pending.get p key) ↔
      NotDeleted a.committed a.pending p key := by
  have hget : a.view.get p key = a.pending.get p key ↔ NotDeleted a.committed a.pending p key :=
    Overlay.get_eq_final_iff a (prefixKey p key)
  constructor
  · intro heq hnone
    rw [hnone] at heq
    exact hget.mp ((hf _ heq).trans hnone.symm) hnone
  · intro hlive
    rw [hget.mpr hlive]

theorem getN_eq_none (p : Pool) (key : Bytes) (x : Option Bytes)
    (h : (View.getN (fun _ => x) p key).map Reply.number =
      (View.getN (fun _ => none) p key).map Reply.number) : x = none := by
  cases x with
  | none => rfl
  | some buffer =>
    simp only [View.getN, View.get] at h
    split at h <;> simp [Except.map, panicAt] at h

theorem getNB_eq_none (p : Pool) (key : Bytes) (x : Option Bytes)
    (h : (View.getNB (fun _ => x) p key).map Reply.numberBytes =
      (View.getNB (fun _ => none) p key).map Reply.numberBytes) : x = none := by
  cases x with
  | none => rfl
  | some buffer =>
    simp only [View.getNB, View.get] at h
    split at h <;> simp [Except.map, panicAt] at h

/-- **A read** returns what the overlay gives exactly when the code answers it. -/
theorem call_eq_expected_iff {r : Except Stop Reply} (hr : op.expected a.pending = some r) :
    (op.call a).1 = r ↔ op.Answered a.committed a.pending := by
  cases op with
  | put | putN | delete => cases hr
  | get p key =>
    cases hr
    by_cases hp : p.isPoolNB
    · simp [TrxOp.call, TrxOp.Answered, hp, eq_comm]
    · simp only [TrxOp.call, TrxOp.Answered, hp, if_false, Bool.false_eq_true]
      exact read_eq_iff (f := fun x => Except.ok (Reply.bytes x)) fun x hx => by simpa using hx
  | getN p key =>
    cases hr
    by_cases hp : p.isPoolNB
    · simp only [TrxOp.call, TrxOp.Answered, hp, if_true]
      constructor
      · intro h
        exact getN_eq_none p key (a.pending.get p key) h.symm
      · intro h
        simp [View.getN, h]
    · simp only [TrxOp.call, TrxOp.Answered, hp, if_false, Bool.false_eq_true]
      exact read_eq_iff (f := fun x => (View.getN (fun _ => x) p key).map Reply.number)
        (getN_eq_none p key)
  | getNB p key =>
    cases hr
    exact read_eq_iff (f := fun x => (View.getNB (fun _ => x) p key).map Reply.numberBytes)
      (getNB_eq_none p key)
  | has p key =>
    cases hr
    refine read_eq_iff (f := fun x : Option Bytes => Except.ok (Reply.bool x.isSome)) fun x hx => ?_
    simpa using hx

end Call

/-! ## A whole transaction -/

theorem callAll_spec (a : Access) (ops : List TrxOp) :
    (callAll a ops).pending = overlaid a.pending ops ∧ (callAll a ops).committed = a.committed := by
  induction ops generalizing a with
  | nil => exact ⟨rfl, rfl⟩
  | cons op ops ih =>
    obtain ⟨hpending, hcommitted⟩ := ih (op.call a).2
    constructor
    · exact hpending.trans (congrArg (overlaid · ops) (pending_call a op))
    · exact hcommitted.trans (committed_call a op)

/-- **Database transactions.** A transaction behaves as the committed content overlaid with its
writes exactly when all its reads are such that the code answers them. -/
theorem transaction_overlay_iff (db : Database) (ops : List TrxOp) :
    (∃ trx, Access.newDBTransaction (.ofDb db) = .ok trx ∧ BehavesAsOverlay db trx ops) ↔
      ∀ earlier op later, ops = earlier ++ op :: later →
        op.Answered (fun k => db.lookup k) (overlaid (fun k => db.lookup k) earlier) := by
  have hspec (ops : List TrxOp) : (callAll (Overlay.ofDb db).begin ops).pending =
      overlaid (fun k => db.lookup k) ops ∧
      (callAll (Overlay.ofDb db).begin ops).committed = fun k => db.lookup k := callAll_spec _ ops
  constructor
  · rintro ⟨trx, hbegin, h⟩ earlier op later rfl
    obtain ⟨-, rfl⟩ := newDBTransaction_eq_ok.mp hbegin
    obtain ⟨hp, hc⟩ := hspec earlier
    rcases hr : op.expected (overlaid (fun k => db.lookup k) earlier) with _ | r
    · cases op with
      | put | putN | delete => trivial
      | get | getN | getNB | has => cases hr
    · have hcall := h.reads earlier op later rfl r hr
      rw [← hp] at hr
      rw [← hp, ← hc]
      exact (call_eq_expected_iff hr).mp hcall
  · intro h
    refine ⟨_, newDBTransaction_eq_ok.mpr ⟨rfl, rfl⟩, ?_, ⟨_, rfl, ?_⟩, (hspec ops).2⟩
    · intro earlier op later hops r hr
      obtain ⟨hp, hc⟩ := hspec earlier
      rw [← hp] at hr
      apply (call_eq_expected_iff hr).mpr
      rw [hp, hc]
      exact h earlier op later hops
    · rw [committed_commit]
      exact (hspec ops).1

/-- A committed key is deleted and read: it is still there. -/
theorem deleted_key_reads_committed :
    let db : Database := Finmap.singleton (prefixKey .ownerData [1]) [7]
    let trx := callAll (Overlay.ofDb db).begin [.delete .ownerData [1]]
    ((TrxOp.has .ownerData [1]).call trx).1 = .ok (.bool true) ∧
      ((TrxOp.get .ownerData [1]).call trx).1 = .ok (.bytes (some [7])) ∧
      ¬ BehavesAsOverlay db (Overlay.ofDb db).begin
        [.delete .ownerData [1], .has .ownerData [1]] := by
  refine ⟨by decide, by decide, fun h => ?_⟩
  have hread := h.reads [.delete .ownerData [1]] (.has .ownerData [1]) [] rfl (.ok (.bool false))
    (by decide)
  exact absurd hread (by decide)

end Bitmarkd
