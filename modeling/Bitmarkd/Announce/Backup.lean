import Bitmarkd.Announce.Peers
import Bitmarkd.Lib.Hex
import Bitmarkd.Util.Varint

/-!
# The backup of the peers

`announce/receptor/data.go`. When the program stops, the peers that have listeners are written to a
file, each as a text of its key, its listeners and the second of its timestamp, and when it starts
they are added again. A text of any lengths is written, but only one with a key of 32 bytes and one
or two listeners of IPv6 length is read, and the first that is not read ends the restoration.

So **the backup restores the peers exactly if all of them are readable** (`backup_restore_iff`); one
odd peer, which anyone can announce, is enough to lose them all.
-/

namespace Bitmarkd.Announce

open Lib Avl Util

/-! ## The source -/

/-- `StoreEntity`. -/
structure StoreEntity where
  publicKey : Bytes
  listeners : Bytes
  timestamp : UInt64
deriving DecidableEq

/-- What `MarshalText` encodes. -/
def StoreEntity.packed (e : StoreEntity) : Bytes :=
  toVarint64 (UInt64.ofNat e.publicKey.length) ++ (e.publicKey ++
    (toVarint64 (UInt64.ofNat e.listeners.length) ++ (e.listeners ++ toVarint64 e.timestamp)))

/-- `MarshalText`. -/
def StoreEntity.marshalText (e : StoreEntity) : Bytes := hexEncode e.packed

/-- A length, and the bytes of that length after it, of which the rest is left. -/
def takeCounted (b : Bytes) (accepted : ℕ → Bool) (e : Fault) : Except Stop (Bytes × Bytes) := do
  let (length, offset) := clippedVarint64 b 1 8192
  failIf (offset = 0 ∨ ¬ accepted length) e
  let b := b.drop offset
  panicIf (b.length < length) .indexOutOfRange
  return (b.take length, b.drop length)

/-- `UnmarshalText`. -/
def unmarshalText (data : Bytes) : Except Stop StoreEntity :=
  match hexDecode data with
  | none => fault .hexDecode
  | some b => do
    let (publicKey, b) ← takeCounted b (fun length => length = 32) .notPublicKey
    let (listener, b) ← takeCounted b (fun length => 1 ≤ length / 19 ∧ length / 19 ≤ 2)
      .invalidIpAddress
    let (timestamp, timestampLength) := fromVarint64 b
    failIf (timestampLength = 0) .invalidTimestamp
    return ⟨publicKey, listener, timestamp⟩

/-- The JSON library, on lists of texts. It is faithful to hexadecimal ones. -/
structure Json where
  encode : List Bytes → Bytes
  decode : Bytes → Option (List Bytes)
  faithful : ∀ l : List Bytes, decode (encode (l.map hexEncode)) = some (l.map hexEncode)

/-- What is stored of the value of a node. -/
def storeEntity : Option Entity → List StoreEntity
  | some n =>
    if n.listeners.length > 0 then [⟨n.publicKey, n.listeners, unixSeconds n.timestamp⟩] else []
  | none => []

/-- The loop of `Backup`, in at most so many turns. -/
def backupLoop (depth : ℕ) (lastNode : Pointer) : ℕ → Pointer →
    Code Bytes Entity (List StoreEntity)
  | 0, _ => failure
  | turns + 1, node =>
    if node = lastNode then return []
    else do
      let list := storeEntity (← deref node).value
      let node ← next compareId depth node
      return list ++ (← backupLoop depth lastNode turns node)

/-- `Backup`, with the contents of the file, if it is written. -/
def backup (json : Json) : Code Bytes Entity (Option Bytes) := do
  let tree ← get
  if tree.count ≤ 2 then return none
  else
    let lastNode ← treeLast (depthOf tree)
    let node ← treeFirst (depthOf tree)
    let list ← backupLoop (depthOf tree) lastNode (depthOf tree) node
    let last := storeEntity (← deref lastNode).value
    return some (json.encode ((list ++ last).map StoreEntity.marshalText))

/-- Why `Restore` fails: the file is not what the library reads, or an element is not. -/
inductive RestoreError
  | json
  | entity (e : Fault)
deriving DecidableEq

/-- The loop of `Restore`. -/
def addAll (now : ℤ) : List StoreEntity → Call Unit
  | [] => return ()
  | peer :: list => do
    let _ ← Receptor.add now peer.publicKey peer.listeners peer.timestamp
    addAll now list

/-- `Restore` from the contents of the file. -/
def restore (json : Json) (now : ℤ) (file : Bytes) : Call (Except RestoreError Unit) :=
  match json.decode file with
  | none => return .error .json
  | some texts =>
    match texts.mapM unmarshalText with
    | .error (.fault e) => return .error (.entity e)
    | .error _ => failure
    | .ok list => do
      addAll now list
      return .ok ()

/-! ## Texts -/

/-- Lengths of slices are below the range of `int`. -/
structure StoreEntity.Fits (e : StoreEntity) : Prop where
  publicKey : e.publicKey.length < 2 ^ 63
  listeners : e.listeners.length < 2 ^ 63

/-- The lengths that `UnmarshalText` takes. -/
structure StoreEntity.Readable (e : StoreEntity) : Prop where
  publicKey : e.publicKey.length = 32
  ge : 19 ≤ e.listeners.length
  le : e.listeners.length ≤ 56

section Texts

variable {e : StoreEntity}

theorem takeCounted_append {b : Bytes} (hb : b.length < 2 ^ 63) (rest : Bytes)
    (accepted : ℕ → Bool) (f : Fault) :
    takeCounted (toVarint64 (UInt64.ofNat b.length) ++ (b ++ rest)) accepted f =
      if (1 ≤ b.length ∧ b.length ≤ 8192) ∧ accepted b.length then .ok (b, rest) else fault f := by
  have hoffset := length_toVarint64_ne_zero (UInt64.ofNat b.length)
  unfold takeCounted
  rw [clippedVarint64_toVarint64 hb (by decide)]
  by_cases hrange : 1 ≤ b.length ∧ b.length ≤ 8192
  · rw [if_pos hrange]
    dsimp only
    by_cases haccepted : accepted b.length
    · rw [if_pos ⟨hrange, haccepted⟩, List.drop_left]
      simp [failIf, panicIf, bind, Except.bind, pure, Except.pure, hoffset, haccepted]
    · rw [if_neg (fun h => haccepted h.2)]
      simp [failIf, bind, Except.bind, fault, haccepted]
  · rw [if_neg hrange, if_neg (fun h => hrange h.1)]
    rfl

/-- A text reads back if its lengths are taken, and is an error otherwise. -/
theorem unmarshalText_marshalText (hfits : e.Fits) :
    (e.Readable ∧ unmarshalText e.marshalText = .ok e) ∨
      ¬ e.Readable ∧ ∃ f, unmarshalText e.marshalText = fault f := by
  unfold unmarshalText StoreEntity.marshalText
  rw [hexDecode_hexEncode]
  dsimp only
  rw [StoreEntity.packed, takeCounted_append hfits.publicKey]
  by_cases hkey : e.publicKey.length = 32
  · rw [if_pos (by simp [hkey])]
    dsimp only [bind, Except.bind]
    rw [takeCounted_append hfits.listeners]
    by_cases hlisteners : 19 ≤ e.listeners.length ∧ e.listeners.length ≤ 56
    · rw [if_pos (by rw [decide_eq_true_iff]; omega)]
      dsimp only
      rw [← List.append_nil (toVarint64 e.timestamp), fromVarint64_toVarint64]
      dsimp only
      rw [failIf, if_neg (length_toVarint64_ne_zero _)]
      exact .inl ⟨⟨hkey, hlisteners.1, hlisteners.2⟩, rfl⟩
    · rw [if_neg (by rw [decide_eq_true_iff]; omega)]
      exact .inr ⟨fun h => hlisteners ⟨h.ge, h.le⟩, _, rfl⟩
  · rw [if_neg (by simp [hkey])]
    exact .inr ⟨fun h => hkey h.publicKey, _, rfl⟩

/-- All texts are read, or there is an error. -/
theorem mapM_unmarshalText {l : List StoreEntity} (hfits : ∀ e ∈ l, e.Fits) :
    ((∀ e ∈ l, e.Readable) ∧ (l.map StoreEntity.marshalText).mapM unmarshalText = .ok l) ∨
      ¬ (∀ e ∈ l, e.Readable) ∧
        ∃ f, (l.map StoreEntity.marshalText).mapM unmarshalText = fault f := by
  induction l with
  | nil => exact .inl ⟨(fun e he => nomatch he), rfl⟩
  | cons e l ih =>
    rw [List.map_cons, List.mapM_cons, List.forall_mem_cons]
    rcases unmarshalText_marshalText (hfits e List.mem_cons_self) with
      ⟨hread, htext⟩ | ⟨hread, f, htext⟩
    · rw [htext]
      rcases ih fun e' he' => hfits e' (List.mem_cons_of_mem _ he') with ⟨hall, hl⟩ | ⟨hall, f, hl⟩
      · rw [hl]
        exact .inl ⟨⟨hread, hall⟩, rfl⟩
      · rw [hl]
        exact .inr ⟨fun h => hall h.2, f, rfl⟩
    · rw [htext]
      exact .inr ⟨fun h => hread h.1, f, rfl⟩

end Texts

/-! ## Writing -/

/-- A peer that is written. -/
def Peer.HasListeners (p : Peer) : Prop := p.entity.listeners ≠ []

instance : DecidablePred Peer.HasListeners := fun _ => inferInstanceAs (Decidable (_ ≠ _))

/-- What is written of a peer. -/
def Peer.store (p : Peer) : StoreEntity :=
  ⟨p.entity.publicKey, p.entity.listeners, unixSeconds p.entity.timestamp⟩

section Writing

variable {m : Connectable} {l l₁ l₂ : List Peer} {p z : Peer} {depth : ℕ}

theorem storeEntity_eq (p : Peer) :
    storeEntity (some p.entity) = if p.HasListeners then [p.store] else [] := by
  have hiff : p.entity.listeners.length > 0 ↔ p.HasListeners := List.length_pos_iff
  simp only [storeEntity, hiff]
  rfl

theorem flatMap_storeEntity (l : List Peer) :
    l.flatMap (fun p => storeEntity (some p.entity)) =
      (l.filter Peer.HasListeners).map Peer.store := by
  induction l with
  | nil => rfl
  | cons p l ih =>
    rw [List.flatMap_cons, ih, storeEntity_eq, List.filter_cons]
    by_cases hp : p.HasListeners
    · simp [hp]
    · simp [hp]

/-- The loop writes the peers from a node on, without the last one. -/
theorem backupLoop_spec {turns : ℕ} (h : Contains m (l₁ ++ (l₂ ++ [z])))
    (hdepth : (l₁ ++ (l₂ ++ [z])).length < depth) (hturns : l₂.length < turns) :
    backupLoop depth (some z.addr) turns ((l₂ ++ [z]).head?.map Peer.addr) m =
      some (l₂.flatMap fun p => storeEntity (some p.entity), m) := by
  induction l₂ generalizing l₁ turns with
  | nil =>
    obtain ⟨turns, rfl⟩ : ∃ n, turns = n + 1 := ⟨turns - 1, by simp at hturns; omega⟩
    rw [backupLoop]
    exact if_pos rfl ▸ rfl
  | cons p l₂ ih =>
    rw [List.length_cons] at hturns
    obtain ⟨turns, rfl⟩ : ∃ n, turns = n + 1 := ⟨turns - 1, by omega⟩
    have hmem : p ∈ l₁ ++ (p :: l₂ ++ [z]) := by simp
    have hne : p.addr ≠ z.addr := by
      have hnodup := h.nodup
      simp only [List.map_append, List.map_cons, List.map_nil] at hnodup
      have hright := (List.nodup_append.mp hnodup).2.1
      intro heq
      apply (List.nodup_cons.mp hright).1
      rw [heq]
      simp
    rw [List.cons_append, List.head?_cons, Option.map_some, backupLoop,
      if_neg (fun heq => hne (Option.some.inj heq)), bind_run, deref_run]
    dsimp only [Option.bind_some]
    have hnext : Avl.next compareId depth (some p.addr) m =
        some ((l₂ ++ [z]).head?.map Peer.addr, m) := Contains.next h hdepth
    rw [(h.node hmem).2, bind_run, hnext]
    dsimp only [Option.bind_some]
    have hsplit : l₁ ++ (p :: l₂ ++ [z]) = (l₁ ++ [p]) ++ (l₂ ++ [z]) := by simp
    rw [hsplit] at h hdepth
    rw [bind_run, ih h hdepth (by omega)]
    rfl

theorem backup_spec (json : Json) (h : Contains m l) (hcount : 2 < l.length) :
    backup json m = some (some (json.encode
      (((l.filter Peer.HasListeners).map Peer.store).map StoreEntity.marshalText)), m) := by
  obtain ⟨l₂, z, rfl⟩ : ∃ l₂ z, l = l₂ ++ [z] :=
    ⟨l.dropLast, l.getLast (by rintro rfl; simp at hcount), (List.dropLast_append_getLast _).symm⟩
  have hdepth := Nat.lt_succ_self (l₂ ++ [z]).length
  have hcountm := h.count
  show (if m.count ≤ 2 then _ else _ : Code _ _ _) m = _
  rw [if_neg (by omega), h.depthOf_eq, bind_run, h.last hdepth]
  dsimp only [Option.bind_some]
  rw [bind_run, h.first hdepth]
  dsimp only [Option.bind_some]
  rw [bind_run, List.getLast?_concat, Option.map_some,
    backupLoop_spec (show Contains m ([] ++ (l₂ ++ [z])) from h) hdepth (by simp)]
  dsimp only [Option.bind_some]
  rw [bind_run, deref_run]
  dsimp only [Option.bind_some]
  rw [(h.node (by simp)).2, ← flatMap_storeEntity, List.flatMap_append, List.flatMap_singleton]
  rfl

end Writing

/-! ## Reading -/

/-- The entity with the second of its timestamp. -/
def Entity.wholeSecond (e : Entity) : Entity :=
  { e with timestamp := e.timestamp / second * second }

/-- The entity is restored: its lengths are taken, and its second is not expired. -/
structure Entity.Restorable (now : ℤ) (e : Entity) : Prop where
  publicKey : e.publicKey.length = 32
  ge : 19 ≤ e.listeners.length
  le : e.listeners.length ≤ 56
  live : ¬ isExpiredAfterDuration now e.wholeSecond.timestamp expiryInterval

/-- A timestamp is not after the time, and not expired then. -/
structure Entity.Current (now : ℤ) (e : Entity) : Prop where
  le : e.timestamp ≤ now
  live : ¬ isExpiredAfterDuration now e.timestamp expiryInterval

section Reading

variable {r r' : Receptor} {l l' : List Peer} {p : Peer}

theorem Entity.Current.reset {clock : Clock} {e : Entity} (h : e.Current clock.now) :
    resetFutureTimestampToNow clock.now (unixSeconds e.timestamp) = e.wholeSecond.timestamp := by
  have hlive := h.live
  have hle := h.le
  have hfloor : e.timestamp / second * second ≤ e.timestamp := Int.ediv_mul_le _ (by decide)
  rw [isExpiredAfterDuration, decide_eq_true_iff] at hlive
  have hnonneg := clock.nonneg
  have hlt := clock.lt
  have hbound : expiryInterval ≤ 2 ^ 62 * second := by decide
  rw [resetFutureTimestampToNow, unixTime_unixSeconds (by omega) (by omega), if_neg (by omega)]
  rfl

/-- Adding keeps what is true of all new entities that are not expired. -/
theorem addAll_invariant (now : ℤ) {P : Entity → Prop} (list : List StoreEntity)
    (hP : ∀ e ∈ list, ∀ ts, ¬ isExpiredAfterDuration now ts expiryInterval →
      ts = resetFutureTimestampToNow now e.timestamp → P ⟨e.publicKey, e.listeners, ts⟩)
    (h : r.Holds l) (hl : ∀ p ∈ l, P p.entity) :
    ∃ r' l', addAll now list r = some ((), r') ∧ r'.Holds l' ∧ ∀ p ∈ l', P p.entity := by
  induction list generalizing r l with
  | nil => exact ⟨r, l, rfl, h, hl⟩
  | cons e list ih =>
    obtain ⟨added, r₁, l₁, hadd, h₁, -, hcases⟩ :=
      Receptor.add_spec h now e.publicKey e.listeners e.timestamp
    rw [addAll, bind_of hadd]
    apply ih (fun e' he' => hP e' (List.mem_cons_of_mem _ he')) h₁
    rcases hcases with ⟨rfl, -⟩ | ⟨hlive, hput⟩
    · exact hl
    · intro p hp
      rcases hput.mem hp with ⟨q, hq, hentity⟩ | hentity
      · rw [hentity]
        exact hl q hq
      · rw [hentity]
        exact hP e List.mem_cons_self _ hlive rfl

/-- Adding peers in the order of their keys. -/
theorem addAll_sorted (clock : Clock) (peers : List Peer) (h : r.Holds l)
    (hsorted : (l.map (·.entity.publicKey) ++ peers.map (·.entity.publicKey)).Pairwise (· < ·))
    (hcurrent : ∀ p ∈ peers, p.entity.Current clock.now)
    (hlive : ∀ p ∈ peers,
      ¬ isExpiredAfterDuration clock.now p.entity.wholeSecond.timestamp expiryInterval) :
    ∃ r' l', addAll clock.now (peers.map Peer.store) r = some ((), r') ∧ r'.Holds l' ∧
      l'.map Peer.entity = l.map Peer.entity ++ peers.map (·.entity.wholeSecond) := by
  induction peers generalizing r l with
  | nil => exact ⟨r, l, rfl, h, by simp⟩
  | cons p peers ih =>
    obtain ⟨added, r₁, l₁, hadd, h₁, -, hcases⟩ := Receptor.add_spec h clock.now
      p.store.publicKey p.store.listeners p.store.timestamp
    have hreset : resetFutureTimestampToNow clock.now p.store.timestamp = _ :=
      (hcurrent p List.mem_cons_self).reset
    rw [hreset] at hcases
    have hbefore (q : Peer) (hq : q ∈ l) : q.entity.publicKey < p.entity.publicKey :=
      (List.pairwise_append.mp hsorted).2.2 _ (List.mem_map_of_mem hq) _ (by simp)
    have hl₁ : ∃ a, l₁ = l ++ [⟨a, p.entity.wholeSecond⟩] := by
      rcases hcases with ⟨-, hexpired | ⟨q, hq, hkey⟩⟩ | ⟨-, hput⟩
      · exact (hlive p List.mem_cons_self hexpired).elim
      · exact ((hbefore q hq).ne hkey).elim
      · exact hput.last hbefore h₁.tree
    obtain ⟨a, rfl⟩ := hl₁
    rw [List.map_cons, addAll, bind_of hadd]
    obtain ⟨r', l', hrun, h', hentities⟩ := ih h₁
      (by simpa [Entity.wholeSecond] using hsorted)
      (fun q hq => hcurrent q (List.mem_cons_of_mem _ hq))
      fun q hq => hlive q (List.mem_cons_of_mem _ hq)
    refine ⟨r', l', hrun, h', ?_⟩
    rw [hentities]
    simp

end Reading

/-! ## Back and forth -/

/-- A call of `Add` with slices, until the given time. -/
def IsAdd (now : ℤ) (a : Receptor.Label) : Prop :=
  ∃ publicKey listeners timestamp, a.2 = .add publicKey listeners timestamp ∧
    publicKey.length < 2 ^ 63 ∧ listeners.length < 2 ^ 63 ∧ a.1 ≤ now

section Restoring

open Receptor

variable {json : Json} {now : ℤ} {r r' r₀ : Receptor} {l : List Peer}
  {trace : List (Receptor × Label)}

/-- The entities that `Add` puts into the tree. -/
structure Added (now : ℤ) (e : Entity) : Prop where
  publicKey : e.publicKey.length < 2 ^ 63
  listeners : e.listeners.length < 2 ^ 63
  le : e.timestamp ≤ now

theorem Added.fits {p : Peer} (h : Added now p.entity) : p.store.Fits := ⟨h.publicKey, h.listeners⟩

theorem added_of_run (hrun : ReceptorRun trace r) (hadds : Guarded (fun _ a => IsAdd now a) trace)
    (hl : r.Holds l) : ∀ p ∈ l, Added now p.entity := by
  have hinv : ∃ l, r.Holds l ∧ ∀ p ∈ l, Added now p.entity := by
    refine hrun.invariant (P := fun r => ∃ l, r.Holds l ∧ ∀ p ∈ l, Added now p.entity) hadds
      ⟨[], holds_new, fun p hp => nomatch hp⟩ ?_
    rintro t ⟨time, op⟩ u ⟨l, h, hl⟩ ⟨publicKey, listeners, timestamp, hop, hk, hls, htime⟩ hstep
    cases hop
    obtain ⟨added, r', l', hadd, h', -, hcases⟩ := add_spec h time publicKey listeners timestamp
    have hcall : Op.call time (.add publicKey listeners timestamp) t = some ((), r') :=
      discard_of hadd
    rw [Step, hcall] at hstep
    cases hstep
    refine ⟨l', h', ?_⟩
    rcases hcases with ⟨rfl, -⟩ | ⟨-, hput⟩
    · exact hl
    · intro p hp
      rcases hput.mem hp with ⟨q, hq, hentity⟩ | hentity
      · rw [hentity]
        exact hl q hq
      · have hle : resetFutureTimestampToNow time timestamp ≤ now :=
          (resetFutureTimestampToNow_le time timestamp).trans htime
        rw [hentity]
        constructor
        · exact hk
        · exact hls
        · dsimp only
          exact hle
  obtain ⟨l', h', hl'⟩ := hinv
  rwa [hl.tree.unique h'.tree]

/-- `Restore` of a list that was written: all of it is added, or it is an error. -/
theorem restore_encode (json : Json) (now : ℤ) {list : List StoreEntity}
    (hfits : ∀ e ∈ list, e.Fits) :
    ((∀ e ∈ list, e.Readable) ∧
      restore json now (json.encode (list.map StoreEntity.marshalText)) =
        (do addAll now list; return .ok ())) ∨
    ¬ (∀ e ∈ list, e.Readable) ∧ ∃ f,
      restore json now (json.encode (list.map StoreEntity.marshalText)) = return .error f := by
  have hdecode : json.decode (json.encode (list.map StoreEntity.marshalText)) =
      some (list.map StoreEntity.marshalText) := by
    have hfaithful := json.faithful (list.map StoreEntity.packed)
    rw [List.map_map] at hfaithful
    exact hfaithful
  unfold restore
  rw [hdecode]
  dsimp only
  rcases mapM_unmarshalText hfits with ⟨hread, htexts⟩ | ⟨hread, f, htexts⟩
  · rw [htexts]
    exact .inl ⟨hread, rfl⟩
  · rw [htexts]
    exact .inr ⟨hread, .entity f, rfl⟩

/-- **Backup and restoration.** For every tree of more than two peers that calls of `Add` made, all
of them unexpired at the time of the restoration, the peers with listeners are restored, with the
seconds of their timestamps, exactly if every one of them has a key of 32 bytes and from 19 to 56
bytes of listeners, and its second is not expired either. -/
theorem backup_restore_iff (json : Json) (clock : Clock) (hrun : ReceptorRun trace r)
    (hadds : Guarded (fun _ a => IsAdd clock.now a) trace) (hl : r.Holds l)
    (hcount : 2 < l.length)
    (hlive : ∀ p ∈ l, ¬ isExpiredAfterDuration clock.now p.entity.timestamp expiryInterval)
    (hempty : r₀.Holds []) :
    ∃ file, backup json r.connectable = some (some file, r.connectable) ∧
      ((∃ r' l', restore json clock.now file r₀ = some (.ok (), r') ∧ r'.Holds l' ∧
          l'.map Peer.entity = (l.filter Peer.HasListeners).map (·.entity.wholeSecond)) ↔
        ∀ p ∈ l, p.HasListeners → p.entity.Restorable clock.now) := by
  have hadded := added_of_run hrun hadds hl
  have hfits : ∀ e ∈ (l.filter Peer.HasListeners).map Peer.store, e.Fits := by
    intro e he
    obtain ⟨p, hp, rfl⟩ := List.mem_map.mp he
    exact (hadded p (List.mem_of_mem_filter hp)).fits
  have hmem (p : Peer) (hp : p ∈ l) (hlisteners : p.HasListeners) :
      p ∈ l.filter Peer.HasListeners := List.mem_filter.mpr ⟨hp, decide_eq_true hlisteners⟩
  refine ⟨_, backup_spec json hl.tree hcount, ?_⟩
  rcases restore_encode json clock.now hfits with
    ⟨hread, hrestore⟩ | ⟨hread, f, hrestore⟩
  · rw [hrestore]
    constructor
    · rintro ⟨r', l', hrun', h', hentities⟩ p hp hlisteners
      have hreadable := hread _ (List.mem_map_of_mem (hmem p hp hlisteners))
      refine ⟨hreadable.publicKey, hreadable.ge, hreadable.le, ?_⟩
      -- what is in the tree afterwards was not expired when it was added
      obtain ⟨r'', l'', hadd, h'', hall⟩ := addAll_invariant clock.now
        (P := fun e => ¬ isExpiredAfterDuration clock.now e.timestamp expiryInterval)
        ((l.filter Peer.HasListeners).map Peer.store)
        (fun e _ ts hts _ => hts) hempty (fun p hp => nomatch hp)
      rw [bind_of hadd] at hrun'
      cases hrun'
      have hwhole : p.entity.wholeSecond ∈ l'.map Peer.entity := by
        rw [hentities]
        exact List.mem_map_of_mem (hmem p hp hlisteners)
      obtain ⟨p', hp', heq⟩ := List.mem_map.mp hwhole
      rw [← heq]
      apply hall
      rwa [h''.tree.unique h'.tree]
    · intro hrestorable
      have hcurrent (p : Peer) (hp : p ∈ l.filter Peer.HasListeners) :
          p.entity.Current clock.now :=
        ⟨(hadded p (List.mem_of_mem_filter hp)).le, hlive p (List.mem_of_mem_filter hp)⟩
      have hsorted : ((l.filter Peer.HasListeners).map (·.entity.publicKey)).Pairwise (· < ·) :=
        List.pairwise_map.mpr (hl.tree.sorted.filter _)
      obtain ⟨r', l', hadd, h', hentities⟩ := addAll_sorted clock
        (l.filter Peer.HasListeners) hempty hsorted hcurrent fun p hp =>
          (hrestorable p (List.mem_of_mem_filter hp)
            (of_decide_eq_true (List.mem_filter.mp hp).2)).live
      refine ⟨r', l', ?_, h', hentities⟩
      rw [bind_of hadd]
      rfl
  · rw [hrestore]
    apply iff_of_false
    · rintro ⟨r', l', hrun', -⟩
      cases hrun'
    · intro hrestorable
      apply hread
      intro e he
      obtain ⟨p, hp, rfl⟩ := List.mem_map.mp he
      have hp' := hrestorable p (List.mem_of_mem_filter hp)
        (of_decide_eq_true (List.mem_filter.mp hp).2)
      exact ⟨hp'.publicKey, hp'.ge, hp'.le⟩

/-- The loop of `Restore` is a run of `Add` calls. -/
theorem run_of_addAll {list : List StoreEntity} (hfits : ∀ e ∈ list, e.Fits)
    (h : addAll now list r₀ = some ((), r)) :
    ∃ trace, Run Step r₀ trace r ∧ Guarded (fun _ a => IsAdd now a) trace := by
  induction list generalizing r₀ with
  | nil =>
    cases h
    exact ⟨[], .nil, .nil⟩
  | cons e list ih =>
    obtain ⟨⟨added, r₁⟩, hadd, hrest⟩ := Option.bind_eq_some_iff.mp h
    obtain ⟨trace, hrun, hguarded⟩ :=
      ih (fun e' he' => hfits e' (List.mem_cons_of_mem _ he')) hrest
    have hstep : Step r₀ (now, .add e.publicKey e.listeners e.timestamp) r₁ := discard_of hadd
    refine ⟨_, (Run.single hstep).append hrun, ?_⟩
    intro x hx
    rcases List.mem_cons.mp hx with rfl | hx
    · have hfit := hfits e List.mem_cons_self
      exact ⟨_, _, _, rfl, hfit.publicKey, hfit.listeners, le_rfl⟩
    · exact hguarded x hx

end Restoring

namespace Sample

open Receptor

/-- Texts that end at a line feed. -/
def lines : Bytes → Bytes → List Bytes
  | _, [] => []
  | text, c :: file => if c = 10 then text :: lines [] file else lines (text ++ [c]) file

theorem lines_append {text t : Bytes} (ht : ∀ c ∈ t, c ≠ 10) (file : Bytes) :
    lines text (t ++ 10 :: file) = (text ++ t) :: lines [] file := by
  induction t generalizing text with
  | nil => simp [lines]
  | cons c t ih =>
    rw [List.cons_append, lines, if_neg (ht c List.mem_cons_self),
      ih fun c' hc' => ht c' (List.mem_cons_of_mem _ hc'), List.append_assoc]
    rfl

theorem ne_of_mem_hexEncode {b : Bytes} {c : UInt8} (h : c ∈ hexEncode b) : c ≠ 10 := by
  have hdigit : ∀ d < 16, ([0x30, 0x31, 0x32, 0x33, 0x34, 0x35, 0x36, 0x37, 0x38, 0x39, 0x61, 0x62,
      0x63, 0x64, 0x65, 0x66] : Bytes).getD d 0 ≠ 10 := by decide
  obtain ⟨x, -, hx⟩ := List.mem_flatMap.mp h
  have hlt := x.toNat_lt
  rcases List.mem_cons.mp hx with rfl | hx
  · exact hdigit _ (by omega)
  · rw [List.mem_singleton.mp hx]
    exact hdigit _ (by omega)

/-- A library that writes one text per line. -/
def json : Json where
  encode l := l.flatMap (· ++ [10])
  decode file := some (lines [] file)
  faithful l := by
    induction l with
    | nil => rfl
    | cons b l ih =>
      rw [List.map_cons, List.flatMap_cons, List.append_assoc, List.singleton_append,
        lines_append fun c => ne_of_mem_hexEncode, Option.some.inj ih]
      rfl

def clock : Clock := ⟨1000 * second, by decide, by decide⟩

/-- A peer with a listener of IPv6 length. -/
def peer (k : UInt8) : Peer := ⟨0, ⟨List.replicate 32 k, List.replicate 19 7, 1000 * second⟩⟩

/-- Three peers, and one with a listener of IPv4 length. -/
def oddBackup : Option (ℤ × Except RestoreError Unit × ℤ) := do
  let odd : StoreEntity := ⟨List.replicate 32 4, List.replicate 7 7, 1000⟩
  let (_, r) ← addAll clock.now ([peer 1, peer 2, peer 3].map Peer.store ++ [odd]) new
  let (file, _) ← backup json r.connectable
  let (result, r') ← restore json clock.now (← file) new
  return (r.connectable.count, result, r'.connectable.count)

theorem odd_peer_loses_all : oddBackup = some (4, .error (.entity .invalidIpAddress), 0) := by
  decide +kernel

/-- The peers are ones that are restored. -/
theorem peer_facts : ∀ p ∈ [peer 1, peer 2, peer 3], p.entity.publicKey.length = 32 ∧
    p.entity.listeners.length = 19 ∧ p.entity.timestamp ≤ clock.now ∧
    isExpiredAfterDuration clock.now p.entity.timestamp expiryInterval = false ∧
    p.entity.wholeSecond = p.entity := by
  decide +kernel

theorem backup_restore_peers : ∃ (r : Receptor) (l : List Peer) (file : Bytes) (r' : Receptor)
    (l' : List Peer), r.Holds l ∧ l.length = 3 ∧
    backup json r.connectable = some (some file, r.connectable) ∧
    restore json clock.now file new = some (.ok (), r') ∧ r'.Holds l' ∧ l'.length = 3 := by
  have hcurrent (p : Peer) (hp : p ∈ [peer 1, peer 2, peer 3]) : p.entity.Current clock.now :=
    ⟨(peer_facts p hp).2.2.1, Bool.eq_false_iff.mp (peer_facts p hp).2.2.2.1⟩
  obtain ⟨r, l, hadd, hl, hentities⟩ := addAll_sorted clock [peer 1, peer 2, peer 3]
    holds_new (by decide +kernel) hcurrent fun p hp => by
      rw [(peer_facts p hp).2.2.2.2]
      exact (hcurrent p hp).live
  obtain ⟨trace, hrun, hadds⟩ := run_of_addAll (fun e he => by
    obtain ⟨p, hp, rfl⟩ := List.mem_map.mp he
    have hkey : p.store.publicKey.length = 32 := (peer_facts p hp).1
    have hlisteners : p.store.listeners.length = 19 := (peer_facts p hp).2.1
    exact ⟨by omega, by omega⟩) hadd
  have hlength : l.length = 3 := by simpa using congrArg List.length hentities
  have hentity (p : Peer) (hp : p ∈ l) : ∃ q ∈ [peer 1, peer 2, peer 3], p.entity = q.entity := by
    have hmem := List.mem_map_of_mem (f := Peer.entity) hp
    rw [hentities, List.map_nil, List.nil_append] at hmem
    obtain ⟨q, hq, heq⟩ := List.mem_map.mp hmem
    exact ⟨q, hq, heq.symm.trans (peer_facts q hq).2.2.2.2⟩
  have hlisteners (p : Peer) (hp : p ∈ l) : p.HasListeners := by
    obtain ⟨q, hq, heq⟩ := hentity p hp
    have hlength := (peer_facts q hq).2.1
    intro hnil
    rw [← heq, hnil] at hlength
    cases hlength
  obtain ⟨file, hbackup, hiff⟩ := backup_restore_iff json clock hrun hadds hl (by omega)
    (fun p hp => by
      obtain ⟨q, hq, heq⟩ := hentity p hp
      rw [heq]
      exact (hcurrent q hq).live) holds_new
  obtain ⟨r', l', hrestore, hl', hentities'⟩ := hiff.mpr fun p hp _ => by
    obtain ⟨q, hq, heq⟩ := hentity p hp
    obtain ⟨hkey, hlisteners, -, hlive, hwhole⟩ := peer_facts q hq
    rw [heq]
    refine ⟨hkey, by omega, by omega, ?_⟩
    rw [hwhole]
    exact Bool.eq_false_iff.mp hlive
  refine ⟨r, l, file, r', l', hl, hlength, hbackup, hrestore, hl', ?_⟩
  rw [← List.length_map Peer.entity, hentities', List.length_map,
    List.filter_eq_self.mpr fun p hp => decide_eq_true (hlisteners p hp), hlength]

end Sample

end Bitmarkd.Announce
