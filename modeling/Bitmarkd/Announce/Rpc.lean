import Bitmarkd.Announce.Helper
import Bitmarkd.Lib.Run
import Bitmarkd.Lib.Slots
import Bitmarkd.Returns

/-!
# The table of announced RPC listeners

`announce/rpc/rpc.go`: the listeners that other nodes announced, and the own ones, in a list with an
index by fingerprint. `Expire` goes through the list from its end and moves the last entry into the
place of an expired one.

**The table stays consistent** under all calls (`rpc_table`): it is a list with an index
(`Slots.Indexed`), no call panics, and `Expire` drops exactly the entries that are old and not
local. The entry of the node itself is local and stays, if `Set` made it; but **if the fingerprint
was announced from outside before**, `Set` finds that entry, updates its address, and leaves it as
an entry of another node, which expires.
-/

namespace Bitmarkd.Announce

open Lib

/-- `fingerprint.Fingerprint`. -/
abbrev Fingerprint := FixedBytes 32

/-- `node`. -/
structure RpcNode where
  address : Bytes
  fin : Fingerprint
  timestamp : ℤ
  isLocal : Bool
deriving DecidableEq

/-- `rpc`. A slot of the list may be `nil`. -/
structure Rpc where
  fin : Fingerprint
  initialised : Bool
  nodes : List (Option RpcNode)
  index : Table Fingerprint ℕ
  self : Bytes

namespace Rpc

/-- `New`. -/
def new : Rpc := ⟨.zero 32, false, [], ∅, []⟩

/-- `add`. -/
def add (now : ℤ) (r : Rpc) (fin : Fingerprint) (listeners : Bytes) (timestamp : UInt64)
    (isLocal : Bool) : Except Stop (Rpc × Bool) :=
  match r.index.lookup fin with
  | none =>
    let ts := resetFutureTimestampToNow now timestamp
    if isExpiredAfterDuration now ts expiryInterval then .ok (r, false)
    else
      let e : RpcNode := ⟨listeners, fin, ts, isLocal⟩
      let n := r.nodes.length
      .ok ({ r with nodes := r.nodes ++ [some e], index := r.index.insert fin n }, true)
  | some i =>
    match r.nodes[i]? with
    | none => panicAt .indexOutOfRange
    | some none => panicAt .nilPointer
    | some (some e) =>
      let rc : Bool := now - e.timestamp > rebroadcastInterval
      let e := { e with address := listeners, timestamp := now }
      .ok ({ r with nodes := r.nodes.set i (some e) }, rc)

/-- `Set`. -/
def set (now : ℤ) (r : Rpc) (fin : Fingerprint) (rpcs : Bytes) : Except Stop Rpc :=
  if r.initialised then fault .alreadyInitialised
  else do
    let r := { r with fin, self := rpcs, initialised := true }
    let (r, _) ← add now r fin rpcs (unixSeconds now) true
    .ok r

/-- `Add`. -/
def addRemote (now : ℤ) (r : Rpc) (f listeners : Bytes) (timestamp : UInt64) :
    Except Stop (Rpc × Bool) :=
  match FixedBytes.ofBytes? 32 f with
  | none => .ok (r, false)
  | some fp =>
    if listeners.length > 100 then .ok (r, false)
    else add now r fp listeners timestamp false

/-- The loop `expiration` over the slots below `i`, with `n` slots in use. -/
def expireLoop (now : ℤ) : ℕ → ℕ → Rpc → Except Stop (Rpc × ℕ)
  | 0, n, r => .ok (r, n)
  | i + 1, n, r =>
    match r.nodes[i]? with
    | none => panicAt .indexOutOfRange
    | some none => expireLoop now i n r
    | some (some e) =>
      if e.isLocal then expireLoop now i n r
      else if now - e.timestamp > expiryInterval then
        let index := r.index.erase e.fin
        let n := n - 1
        if i = n then
          expireLoop now i n { r with nodes := r.nodes.set n none, index }
        else
          match r.nodes[n]? with
          | none => panicAt .indexOutOfRange
          | some none => panicAt .nilPointer
          | some (some last) =>
            expireLoop now i n { r with
              nodes := (r.nodes.set i (some last)).set n none
              index := index.insert last.fin i }
      else expireLoop now i n r

/-- `Expire`. -/
def expire (now : ℤ) (r : Rpc) : Except Stop Rpc := do
  let n := r.nodes.length
  let (r, n) ← expireLoop now n n r
  .ok { r with nodes := r.nodes.take n }

/-- The entry of a fingerprint. -/
def entry (r : Rpc) (f : Fingerprint) : Option RpcNode := Slots.entry r.nodes r.index f

/-- The table is in order. -/
structure Consistent (r : Rpc) : Prop where
  index : ∀ f i, r.index.lookup f = some i ↔ ∃ e, r.nodes[i]? = some (some e) ∧ e.fin = f
  full : ∀ i < r.nodes.length, ∃ e, r.nodes[i]? = some (some e)
  distinct : ∀ (i j : ℕ) (e e' : RpcNode), r.nodes[i]? = some (some e) →
    r.nodes[j]? = some (some e') → e.fin = e'.fin → i = j

theorem at_length_iff {r : Rpc} {i : ℕ} {e : RpcNode} :
    Slots.At r.nodes r.nodes.length i e ↔ r.nodes[i]? = some (some e) := by
  unfold Slots.At
  apply and_iff_right_of_imp
  intro h
  exact (List.getElem?_eq_some_iff.mp h).1

theorem consistent_iff {r : Rpc} :
    r.Consistent ↔ Slots.Indexed RpcNode.fin r.nodes r.nodes.length r.index := by
  constructor
  · intro h
    constructor
    · simpa only [at_length_iff] using h.full
    · simpa only [at_length_iff] using h.index
  · intro h
    constructor
    · simpa only [at_length_iff] using h.lookup
    · simpa only [at_length_iff] using h.full
    · intro i j e e' he he' hfin
      exact h.unique (at_length_iff.mpr he) (at_length_iff.mpr he') hfin

/-! ## Adding -/

variable {r r' : Rpc} {now : ℤ}

/-- What `add` does to the entry of its fingerprint: nothing if a new entry is too old, otherwise it
is there afterwards. Only a new entry gets the flag. -/
theorem add_spec (h : r.Consistent) (now : ℤ) (fin : Fingerprint) (listeners : Bytes)
    (timestamp : UInt64) (isLocal : Bool) :
    ∃ r' rc, add now r fin listeners timestamp isLocal = .ok (r', rc) ∧ r'.Consistent ∧
      r'.initialised = r.initialised ∧ r'.fin = r.fin ∧
      ((r' = r ∧ r.entry fin = none ∧
          isExpiredAfterDuration now (resetFutureTimestampToNow now timestamp) expiryInterval) ∨
        ∃ e : RpcNode, e.isLocal = (r.entry fin).elim isLocal RpcNode.isLocal ∧
          ∀ f, r'.entry f = if f = fin then some e else r.entry f) := by
  have hindexed := consistent_iff.mp h
  unfold add
  cases hlookup : r.index.lookup fin with
  | none =>
    have hnone : r.entry fin = none := hindexed.entry_eq_none.mpr hlookup
    dsimp only
    by_cases hexpired :
        isExpiredAfterDuration now (resetFutureTimestampToNow now timestamp) expiryInterval
    · rw [if_pos hexpired]
      exact ⟨r, false, rfl, h, rfl, rfl, .inl ⟨rfl, hnone, hexpired⟩⟩
    · rw [if_neg hexpired]
      generalize resetFutureTimestampToNow now timestamp = ts
      let e : RpcNode := ⟨listeners, fin, ts, isLocal⟩
      refine ⟨_, true, rfl, consistent_iff.mpr ?_, rfl, rfl, .inr ⟨e, ?_, ?_⟩⟩
      · rw [List.length_append]
        exact hindexed.push (e := e) rfl hlookup
      · rw [hnone]
        rfl
      · exact hindexed.entry_push (e := e) rfl hlookup
  | some i =>
    obtain ⟨e, he, rfl⟩ := (hindexed.lookup fin i).mp hlookup
    have hentry : r.entry e.fin = some e := hindexed.entry_of_at he
    dsimp only
    rw [he.2]
    let e' : RpcNode := { e with address := listeners, timestamp := now }
    refine ⟨_, _, rfl, consistent_iff.mpr ?_, rfl, rfl, .inr ⟨e', ?_, ?_⟩⟩
    · rw [List.length_set]
      exact hindexed.set he (show e'.fin = e.fin from rfl)
    · rw [hentry]
      rfl
    · exact hindexed.entry_set he (show e'.fin = e.fin from rfl)

/-! ## Expiring -/

/-- `Expire` keeps the entry. -/
def live (now : ℤ) (e : RpcNode) : Bool := e.isLocal ∨ ¬ now - e.timestamp > expiryInterval

theorem live_iff {e : RpcNode} :
    live now e ↔ e.isLocal ∨ ¬ now - e.timestamp > expiryInterval := decide_eq_true_iff

/-- The loop goes on from slots that are in order, where those that it went over are kept. -/
structure Expiring (now : ℤ) (i n : ℕ) (r : Rpc) : Prop where
  indexed : Slots.Indexed RpcNode.fin r.nodes n r.index
  le : i ≤ n
  kept : ∀ j e, i ≤ j → Slots.At r.nodes n j e → live now e

/-- Two tables differ in entries that expire only. -/
structure Alike (now : ℤ) (r r' : Rpc) : Prop where
  entry : ∀ f, (r'.entry f).filter (live now) = (r.entry f).filter (live now)
  initialised : r'.initialised = r.initialised
  fin : r'.fin = r.fin

theorem Alike.refl (now : ℤ) (r : Rpc) : Alike now r r := ⟨fun _ => rfl, rfl, rfl⟩

theorem Alike.trans {r'' : Rpc} (h : Alike now r r') (h' : Alike now r' r'') : Alike now r r'' :=
  ⟨fun f => (h'.entry f).trans (h.entry f), h'.initialised.trans h.initialised,
    h'.fin.trans h.fin⟩

/-- Removing an entry that expires. -/
theorem Alike.of_removed {e : RpcNode} (he : r.entry e.fin = some e) (hdead : ¬ live now e)
    (hentry : ∀ f, r'.entry f = if f = e.fin then none else r.entry f)
    (hinit : r'.initialised = r.initialised) (hfin : r'.fin = r.fin) : Alike now r r' := by
  refine ⟨fun f => ?_, hinit, hfin⟩
  rw [hentry]
  by_cases hf : f = e.fin
  · rw [if_pos hf, hf, he, Option.filter_some, if_neg hdead]
    rfl
  · rw [if_neg hf]

theorem Expiring.skip {i n : ℕ} {e : RpcNode} (h : Expiring now (i + 1) n r)
    (he : Slots.At r.nodes n i e) (hlive : live now e) : Expiring now i n r := by
  refine ⟨h.indexed, Nat.le_of_succ_le h.le, fun j x hij hx => ?_⟩
  rcases Nat.lt_or_eq_of_le hij with hlt | rfl
  · exact h.kept j x hlt hx
  · rw [hx.unique he]
    exact hlive

theorem expireLoop_spec {i n : ℕ} (h : Expiring now i n r) :
    ∃ r' n', expireLoop now i n r = .ok (r', n') ∧ Expiring now 0 n' r' ∧ Alike now r r' := by
  induction i generalizing n r with
  | zero => exact ⟨r, n, rfl, h, .refl now r⟩
  | succ i ih =>
    obtain ⟨e, he⟩ := h.indexed.full i h.le
    rw [expireLoop, he.2]
    dsimp only
    by_cases hlocal : e.isLocal
    · rw [if_pos hlocal]
      exact ih (h.skip he (live_iff.mpr (.inl hlocal)))
    rw [if_neg hlocal]
    by_cases hold : now - e.timestamp > expiryInterval
    · have hdead : ¬ live now e := by
        rw [live_iff, not_or, not_not]
        exact ⟨hlocal, hold⟩
      have hentry : r.entry e.fin = some e := h.indexed.entry_of_at he
      rw [if_pos hold]
      obtain _ | n := n
      · exact absurd h.le (Nat.not_succ_le_zero i)
      rw [Nat.add_sub_cancel]
      by_cases hin : i = n
      · -- the entry is the last one
        rw [if_pos hin]
        subst hin
        have halike : Alike now r { r with
            nodes := r.nodes.set i none, index := r.index.erase e.fin } :=
          .of_removed hentry hdead (h.indexed.entry_dropLast he) rfl rfl
        obtain ⟨r', n', hloop, hr', halike'⟩ := ih (n := i) (r := { r with
            nodes := r.nodes.set i none, index := r.index.erase e.fin })
          ⟨h.indexed.dropLast he, le_rfl, fun j x hij hx => absurd hx.1 (not_lt.mpr hij)⟩
        exact ⟨r', n', hloop, hr', halike.trans halike'⟩
      · -- the last one, which has been kept, moves here
        rw [if_neg hin]
        obtain ⟨last, hlast⟩ := h.indexed.full n (Nat.lt_succ_self n)
        rw [hlast.2]
        dsimp only
        have hlt : i < n := by
          have := h.le
          omega
        have halike : Alike now r { r with
            nodes := (r.nodes.set i (some last)).set n none
            index := (r.index.erase e.fin).insert last.fin i } :=
          .of_removed hentry hdead (h.indexed.entry_moveLast he hin hlast) rfl rfl
        obtain ⟨r', n', hloop, hr', halike'⟩ := ih (n := n) (r := { r with
            nodes := (r.nodes.set i (some last)).set n none
            index := (r.index.erase e.fin).insert last.fin i })
          ⟨h.indexed.moveLast he hin hlast, hlt.le, fun j x hij hx => by
            obtain ⟨hx, hj⟩ := Slots.at_drop_last.mp hx
            rw [Slots.at_set he] at hx
            by_cases hji : j = i
            · rw [if_pos hji] at hx
              rw [hx]
              exact h.kept n last hlt hlast
            · rw [if_neg hji] at hx
              exact h.kept j x (by omega) hx⟩
        exact ⟨r', n', hloop, hr', halike.trans halike'⟩
    · rw [if_neg hold]
      exact ih (h.skip he (live_iff.mpr (.inr hold)))

/-- **`Expire` drops the old entries** that are not local, and no others. -/
theorem expire_spec (h : r.Consistent) (now : ℤ) :
    ∃ r', expire now r = .ok r' ∧ r'.Consistent ∧
      r'.initialised = r.initialised ∧ r'.fin = r.fin ∧
      ∀ f, r'.entry f = (r.entry f).filter (live now) := by
  have hstart : Expiring now r.nodes.length r.nodes.length r :=
    ⟨consistent_iff.mp h, le_rfl, fun j e hj he => absurd he.1 (not_lt.mpr hj)⟩
  obtain ⟨r₁, n, hloop, hdone, halike⟩ := expireLoop_spec hstart
  have hn : (r₁.nodes.take n).length = n := by
    apply List.length_take_of_le
    obtain _ | n := n
    · exact Nat.zero_le _
    · obtain ⟨e, he⟩ := hdone.indexed.full n (Nat.lt_succ_self n)
      exact (List.getElem?_eq_some_iff.mp he.2).1
  refine ⟨{ r₁ with nodes := r₁.nodes.take n }, ?_, ?_, halike.initialised, halike.fin, fun f => ?_⟩
  · rw [expire, hloop]
    rfl
  · apply consistent_iff.mpr
    show Slots.Indexed _ (r₁.nodes.take n) (r₁.nodes.take n).length r₁.index
    rw [hn]
    exact hdone.indexed.take
  · have hall : (r₁.entry f).filter (live now) = r₁.entry f := by
      cases hentry : r₁.entry f with
      | none => rfl
      | some e =>
        obtain ⟨i, he, -⟩ := hdone.indexed.entry_eq_some.mp hentry
        rw [Option.filter_some, if_pos (hdone.kept i e (Nat.zero_le i) he)]
    rw [← halike.entry f, hall]
    exact hdone.indexed.entry_take f

/-! ## Runs -/

/-- A call. -/
inductive Op
  | set (fin : Fingerprint) (rpcs : Bytes)
  | add (f listeners : Bytes) (timestamp : UInt64)
  | expire

/-- What a call leaves behind. -/
def Op.call (now : ℤ) (r : Rpc) : Op → Except Stop Rpc
  | set fin rpcs => Rpc.set now r fin rpcs
  | add f listeners timestamp => do
    let (r, _) ← addRemote now r f listeners timestamp
    .ok r
  | expire => Rpc.expire now r

/-- A call at a time, with its effect; one that returns an error has none. -/
def Step (r : Rpc) (a : Clock × Op) (r' : Rpc) : Prop :=
  a.2.call a.1.now r = .ok r' ∨ (∃ e, a.2.call a.1.now r = fault e) ∧ r' = r

/-- The calls and the tables they were made on, from a new one on. -/
abbrev RpcRun := Run Step new

theorem consistent_new : new.Consistent := consistent_iff.mpr Slots.indexed_empty

/-- A new local entry is never too old. -/
theorem not_isExpired_unixSeconds (clock : Clock) :
    ¬ isExpiredAfterDuration clock.now
      (resetFutureTimestampToNow clock.now (unixSeconds clock.now)) expiryInterval := by
  have hpos : 0 < second := by decide
  have hle : clock.now / second * second ≤ clock.now := Int.ediv_mul_le _ hpos.ne'
  have hlt := Int.lt_ediv_add_one_mul_self clock.now hpos
  have hsecond : second ≤ expiryInterval := by decide
  have hseconds := unixTime_unixSeconds ((by decide : -(2 ^ 62 * second) ≤ 0).trans clock.nonneg)
    clock.lt
  rw [resetFutureTimestampToNow, hseconds, if_neg (not_lt.mpr hle), isExpiredAfterDuration,
    decide_eq_true_iff]
  rw [Int.add_mul, Int.one_mul] at hlt
  omega

/-- The entry of the node itself is there, and local. -/
def HasSelf (r : Rpc) (fin : Fingerprint) : Prop := ∃ e, r.entry fin = some e ∧ e.isLocal

theorem addRemote_spec (h : r.Consistent) (now : ℤ) (f listeners : Bytes) (timestamp : UInt64) :
    ∃ r' rc, addRemote now r f listeners timestamp = .ok (r', rc) ∧ r'.Consistent ∧
      r'.initialised = r.initialised ∧ ∀ fin, r.HasSelf fin → r'.HasSelf fin := by
  unfold addRemote
  cases FixedBytes.ofBytes? 32 f with
  | none => exact ⟨r, false, rfl, h, rfl, fun _ hself => hself⟩
  | some fp =>
    by_cases hlong : listeners.length > 100
    · exact ⟨r, false, if_pos hlong, h, rfl, fun _ hself => hself⟩
    obtain ⟨r', rc, hadd, hr', hinit, -, hsame | ⟨e, hlocal, hentry⟩⟩ :=
      add_spec h now fp listeners timestamp false
    · refine ⟨r', rc, (if_neg hlong).trans hadd, hr', hinit, fun fin hself => ?_⟩
      rw [hsame.1]
      exact hself
    · refine ⟨r', rc, (if_neg hlong).trans hadd, hr', hinit, fun fin hself => ?_⟩
      obtain ⟨own, hown, hownLocal⟩ := hself
      by_cases hfin : fin = fp
      · refine ⟨e, by rw [hentry, if_pos hfin], ?_⟩
        rw [hlocal, ← hfin, hown]
        exact hownLocal
      · exact ⟨own, by rw [hentry, if_neg hfin, hown], hownLocal⟩

theorem set_spec (h : r.Consistent) (hinit : r.initialised = false) (clock : Clock)
    (fin : Fingerprint) (rpcs : Bytes) :
    ∃ r', set clock.now r fin rpcs = .ok r' ∧ r'.Consistent ∧ r'.initialised = true ∧
      (r.entry fin = none → r'.HasSelf fin) := by
  have h' : Consistent { r with fin, self := rpcs, initialised := true } :=
    ⟨h.index, h.full, h.distinct⟩
  obtain ⟨r', rc, hadd, hr', hinit', -, hdone⟩ :=
    add_spec h' clock.now fin rpcs (unixSeconds clock.now) true
  refine ⟨r', ?_, hr', hinit', fun hnone => ?_⟩
  · rw [set, hinit]
    exact bind_eq_ok.mpr ⟨_, hadd, rfl⟩
  · rcases hdone with ⟨-, -, hexpired⟩ | ⟨e, hlocal, hentry⟩
    · exact absurd hexpired (not_isExpired_unixSeconds clock)
    · refine ⟨e, by rw [hentry, if_pos rfl], ?_⟩
      have hnone' : entry { r with fin, self := rpcs, initialised := true } fin = none := hnone
      rw [hlocal, hnone']
      rfl

/-- Every call returns and leaves the table in order. -/
theorem call_spec (h : r.Consistent) (clock : Clock) (op : Op) :
    (∃ r', op.call clock.now r = .ok r' ∧ r'.Consistent ∧
      (r.initialised → r'.initialised ∧ ∀ fin, r.HasSelf fin → r'.HasSelf fin)) ∨
    ∃ e, op.call clock.now r = fault e := by
  cases op with
  | set fin rpcs =>
    by_cases hinit : r.initialised
    · right
      exact ⟨.alreadyInitialised, if_pos hinit⟩
    · left
      obtain ⟨r', hset, hr', -, -⟩ := set_spec h (Bool.eq_false_iff.mpr hinit) clock fin rpcs
      exact ⟨r', hset, hr', fun hyes => absurd hyes hinit⟩
  | add f listeners timestamp =>
    left
    obtain ⟨r', rc, hadd, hr', hinit, hself⟩ := addRemote_spec h clock.now f listeners timestamp
    exact ⟨r', bind_eq_ok.mpr ⟨_, hadd, rfl⟩, hr', fun hyes => ⟨hinit.trans hyes, hself⟩⟩
  | expire =>
    left
    obtain ⟨r', hexpire, hr', hinit, -, hentry⟩ := expire_spec h clock.now
    refine ⟨r', hexpire, hr', fun hyes => ⟨hinit.trans hyes, fun fin hself => ?_⟩⟩
    obtain ⟨e, he, hlocal⟩ := hself
    refine ⟨e, ?_, hlocal⟩
    rw [hentry, he, Option.filter_some, if_pos (live_iff.mpr (.inl hlocal))]

theorem Step.consistent {a : Clock × Op} (h : r.Consistent) (hstep : Step r a r') :
    r'.Consistent := by
  rcases hstep with hok | ⟨-, rfl⟩
  · rcases call_spec h a.1 a.2 with ⟨r'', hcall, hr'', -⟩ | ⟨e, hcall⟩
    · rw [hok] at hcall
      cases hcall
      exact hr''
    · rw [hok] at hcall
      cases hcall
  · exact h

theorem Step.hasSelf {a : Clock × Op} {fin : Fingerprint} (h : r.Consistent)
    (hinit : r.initialised) (hself : r.HasSelf fin) (hstep : Step r a r') :
    r'.initialised ∧ r'.HasSelf fin := by
  rcases hstep with hok | ⟨-, rfl⟩
  · rcases call_spec h a.1 a.2 with ⟨r'', hcall, -, hkeeps⟩ | ⟨e, hcall⟩
    · rw [hok] at hcall
      cases hcall
      obtain ⟨hinit', hself'⟩ := hkeeps hinit
      exact ⟨hinit', hself' fin hself⟩
    · rw [hok] at hcall
      cases hcall
  · exact ⟨hinit, hself⟩

theorem RpcRun.consistent {trace : List (Rpc × Clock × Op)} (hrun : RpcRun trace r) :
    r.Consistent :=
  hrun.invariant (guarded_true trace) consistent_new fun h _ hstep => Step.consistent h hstep

/-- **The table of RPC listeners.** After any calls it is in order, every further call returns, and
`Expire` drops exactly the old entries that are not local. The entry that `Set` makes stays. -/
theorem rpc_table {trace : List (Rpc × Clock × Op)} (hrun : RpcRun trace r) : r.Consistent ∧
    (∀ (clock : Clock) (op : Op), Returns (op.call clock.now r)) ∧
    (∀ now, ∃ r', r.expire now = .ok r' ∧ ∀ f, r'.entry f = (r.entry f).filter (live now)) ∧
    ∀ (clock : Clock) fin rpcs r₁ trace' r₂, r.entry fin = none →
      r.set clock.now fin rpcs = .ok r₁ → Run Step r₁ trace' r₂ →
      ∃ e, r₂.entry fin = some e ∧ e.isLocal := by
  have h := RpcRun.consistent hrun
  refine ⟨h, fun clock op => ?_, fun now => ?_, ?_⟩
  · rcases call_spec h clock op with ⟨r', hcall, -⟩ | ⟨e, hcall⟩
    · rw [hcall]
      exact returns_ok r'
    · rw [hcall]
      exact returns_fault e
  · obtain ⟨r', hexpire, -, -, -, hentry⟩ := expire_spec h now
    exact ⟨r', hexpire, hentry⟩
  · intro clock fin rpcs r₁ trace' r₂ hnone hset hrun'
    have hinit : r.initialised = false := by
      by_contra hinit
      rw [set, if_pos (Bool.not_eq_false _ ▸ hinit)] at hset
      cases hset
    obtain ⟨r', hset', hr', hinit', hself⟩ := set_spec h hinit clock fin rpcs
    rw [hset] at hset'
    cases hset'
    have hdone : r₂.Consistent ∧ r₂.initialised ∧ r₂.HasSelf fin :=
      hrun'.invariant (P := fun r => r.Consistent ∧ r.initialised ∧ r.HasSelf fin)
        (guarded_true trace') ⟨hr', hinit', hself hnone⟩ fun h _ hstep =>
          ⟨Step.consistent h.1 hstep, Step.hasSelf h.1 h.2.1 h.2.2 hstep⟩
    exact hdone.2.2

end Rpc

end Bitmarkd.Announce

namespace Bitmarkd.Announce.Sample

open Lib Rpc

/-- The fingerprint of the node is announced from outside, then the node starts, and an hour later
the table is cleaned up. -/
def announcedFirst : Except Stop (Rpc × Rpc) := do
  let (r, _) ← addRemote (1000 * second) .new (List.replicate 32 7) [] 1000
  let r ← r.set (1000 * second) ⟨List.replicate 32 7, by simp⟩ [1]
  let r' ← r.expire (1000 * second + 60 * minute)
  .ok (r, r')

theorem own_entry_expires :
    (announcedFirst.toOption.map fun (r, r') =>
      (r.initialised, (r.entry ⟨List.replicate 32 7, by simp⟩).isSome,
        r'.initialised, r'.entry ⟨List.replicate 32 7, by simp⟩)) =
      some (true, true, true, none) := by
  decide +kernel

/-- Another node is announced, then the node starts, and an hour later the table is cleaned up. -/
def otherFirst : Except Stop (Rpc × Rpc × Rpc) := do
  let (r, _) ← addRemote (1000 * second) .new (List.replicate 32 8) [2] 1000
  let r₁ ← r.set (1000 * second) ⟨List.replicate 32 7, by simp⟩ [1]
  let r₂ ← r₁.expire (1000 * second + 61 * minute)
  .ok (r, r₁, r₂)

/-- The other entry is dropped, that of the node stays. -/
theorem rpc_table_otherFirst : ∃ r r₁ r₂ e, otherFirst = .ok (r, r₁, r₂) ∧
    (r₁.entry ⟨List.replicate 32 8, by simp⟩).isSome ∧
    r₂.entry ⟨List.replicate 32 8, by simp⟩ = none ∧
    r₂.entry ⟨List.replicate 32 7, by simp⟩ = some e ∧ e.isLocal := by
  have hany : otherFirst.toOption.any (fun (r, r₁, r₂) =>
      r.entry ⟨List.replicate 32 7, by simp⟩ = none ∧
        (r₁.entry ⟨List.replicate 32 8, by simp⟩).isSome ∧
        r₂.entry ⟨List.replicate 32 8, by simp⟩ = none) = true := by
    decide +kernel
  rcases hrun : otherFirst with s | ⟨r, r₁, r₂⟩
  · simp [hrun, Except.toOption] at hany
  · simp only [hrun, Except.toOption, Option.any_some, decide_eq_true_eq] at hany
    obtain ⟨⟨_, b⟩, hadd, hrest⟩ := bind_eq_ok.mp hrun
    obtain ⟨_, hset, hrest⟩ := bind_eq_ok.mp hrest
    obtain ⟨_, hexpire, hrest⟩ := bind_eq_ok.mp hrest
    cases hrest
    let clock : Clock := ⟨1000 * second, by decide, by decide⟩
    let later : Clock := ⟨1000 * second + 61 * minute, by decide, by decide⟩
    have hfirst : Step new (clock, .add (List.replicate 32 8) [2] 1000) r :=
      .inl (bind_eq_ok.mpr ⟨_, hadd, rfl⟩)
    have hlast : Step r₁ (later, .expire) r₂ := .inl hexpire
    obtain ⟨e, he, hlocal⟩ := (rpc_table (Run.single hfirst)).2.2.2 clock _ [1] r₁ _ r₂ hany.1 hset
      (Run.single hlast)
    exact ⟨_, _, _, e, rfl, hany.2.1, hany.2.2, he, hlocal⟩

end Bitmarkd.Announce.Sample
