import Bitmarkd.Sample
import Mathlib.Data.List.DropRight

/-!
# The broadcast queue

`BroadcastQueue` of `messagebus/queue.go`: a message goes to every channel that was asked for,
unless one with the same signature is among the last hundred that were sent. The signatures are kept
twice, as a map to look them up and as a list to know the oldest.

**The two stay the same set**, and it is that of the last hundred accepted messages
(`Tracks`). But the signature is the hash of the command and the parameters written one after the
other, without their lengths: **messages that differ only in where one part ends suppress each
other** (`suppresses_only_repeats`).
-/

namespace Bitmarkd.Messagebus

open Lib

/-! ## The source -/

/-- `Message`. -/
structure Message where
  command : Bytes
  parameters : List Bytes
deriving DecidableEq

/-- A channel of a receiver: how many messages it can hold, and those it holds. -/
structure Channel where
  capacity : ℕ
  buffer : List Message
deriving DecidableEq

/-- `BroadcastQueue`. -/
structure BroadcastQueue where
  out : List Channel
  defaultSize : ℕ
  cache : Finset Digest
  index : List Digest
deriving DecidableEq

/-- The number of signatures that are kept. -/
def indexLimit : ℕ := 100

/-- The command `block`. -/
def blockCommand : Bytes := [0x62, 0x6c, 0x6f, 0x63, 0x6b]

/-- What is hashed: the command and then the parameters. -/
def Message.written (m : Message) : Bytes := m.command ++ m.parameters.flatten

/-- The signature of a message. -/
def Message.signature (env : Env) (m : Message) : Digest := env.sha3Sum256 m.written

/-- The message for one channel: the last free entry is for blocks only. -/
def Channel.deliver (c : Channel) (m : Message) : Channel :=
  if c.buffer.length + 1 < c.capacity then { c with buffer := c.buffer ++ [m] }
  else if m.command = blockCommand then
    if c.buffer.length < c.capacity then { c with buffer := c.buffer ++ [m] } else c
  else c

namespace BroadcastQueue

/-- The queue that `init` makes. -/
def make (queueSize : ℕ) : BroadcastQueue := ⟨[], queueSize, ∅, []⟩

/-- The map and the list with a new signature: the oldest one is dropped if there are too many. -/
def remember (queue : BroadcastQueue) (sum : Digest) : BroadcastQueue :=
  let cache := insert sum queue.cache
  let index := queue.index ++ [sum]
  if index.length > indexLimit then
    match index with
    | [] => { queue with cache, index }
    | s :: index => { queue with cache := cache.erase s, index }
  else { queue with cache, index }

/-- `Send`. -/
def send (env : Env) (queue : BroadcastQueue) (m : Message) : BroadcastQueue :=
  let sum := m.signature env
  if sum ∈ queue.cache then queue
  else
    let queue := queue.remember sum
    { queue with out := queue.out.map (·.deliver m) }

/-- `Chan`: a negative size asks for the default. -/
def chan (queue : BroadcastQueue) (size : ℤ) : BroadcastQueue :=
  let size := if size < 0 then queue.defaultSize else size.toNat
  { queue with out := queue.out ++ [⟨size, []⟩] }

/-- A receiver takes the first message of its channel. -/
def receive (queue : BroadcastQueue) (i : ℕ) : BroadcastQueue :=
  { queue with out := queue.out.modify i fun c => { c with buffer := c.buffer.tail } }

end BroadcastQueue

theorem BroadcastQueue.remember_out (queue : BroadcastQueue) (sum : Digest) :
    (queue.remember sum).out = queue.out := by
  unfold remember
  dsimp only
  split
  · split <;> rfl
  · rfl

/-! ## Runs -/

/-- What happens to the queue. -/
inductive Op
  | send (m : Message)
  | chan (size : ℤ)
  | receive (i : ℕ)

/-- One of them. -/
def Op.run (env : Env) (queue : BroadcastQueue) : Op → BroadcastQueue
  | .send m => queue.send env m
  | .chan size => queue.chan size
  | .receive i => queue.receive i

/-- The runs of a queue. -/
def QueueRun (env : Env) (queueSize : ℕ) : List (BroadcastQueue × Op) → BroadcastQueue → Prop :=
  Run (fun queue op queue' => queue' = op.run env queue) (BroadcastQueue.make queueSize)

/-- The message is not sent: there is one with its signature. -/
def Suppresses (env : Env) (queue : BroadcastQueue) (m : Message) : Prop :=
  m.signature env ∈ queue.cache

instance (env : Env) (queue : BroadcastQueue) (m : Message) : Decidable (Suppresses env queue m) :=
  inferInstanceAs (Decidable (_ ∈ queue.cache))

/-- The message that a call sent. -/
def accepted? (env : Env) : BroadcastQueue × Op → Option Message
  | (queue, .send m) => if Suppresses env queue m then none else some m
  | _ => none

/-- The messages that the calls of a run sent. -/
def accepted (env : Env) (trace : List (BroadcastQueue × Op)) : List Message :=
  trace.filterMap (accepted? env)

/-- The last hundred of them. -/
def recent (env : Env) (trace : List (BroadcastQueue × Op)) : List Message :=
  (accepted env trace).rtake indexLimit

/-! ## The two records of signatures -/

/-- **What the queue remembers**: the signatures of these messages, without repeats. -/
structure Tracks (env : Env) (queue : BroadcastQueue) (messages : List Message) : Prop where
  index : queue.index = messages.map (Message.signature env)
  cache : queue.cache = queue.index.toFinset
  nodup : queue.index.Nodup
  limit : messages.length ≤ indexLimit

section Records

variable {env : Env} {queue queue' : BroadcastQueue} {m m' : Message} {messages : List Message}
  {trace : List (BroadcastQueue × Op)} {queueSize : ℕ}

/-- The last `n` of a list with one more element: the first of them goes if there are too many. -/
theorem rtake_append_singleton {α : Type} (l : List α) (x : α) (n : ℕ) :
    (l ++ [x]).rtake n =
      if (l.rtake n ++ [x]).length > n then (l.rtake n ++ [x]).tail else l.rtake n ++ [x] := by
  rw [List.rtake, List.rtake, List.length_append, List.length_append, List.length_drop,
    List.length_singleton]
  by_cases hfull : n ≤ l.length
  · have hdrop : l.length + 1 - n = l.length - n + 1 := by omega
    rw [if_pos (by omega), hdrop, ← List.drop_append_of_le_length (by omega), List.tail_drop]
  · have hdrop : l.length + 1 - n = 0 := by omega
    have hdrop' : l.length - n = 0 := by omega
    rw [if_neg (by omega), hdrop, hdrop', List.drop_zero, List.drop_zero]

theorem Tracks.mem_cache (h : Tracks env queue messages) {s : Digest} :
    s ∈ queue.cache ↔ ∃ m ∈ messages, m.signature env = s := by
  rw [h.cache, List.mem_toFinset, h.index, List.mem_map]

/-- Channels come and go without the records. -/
theorem Tracks.congr (h : Tracks env queue messages) (hcache : queue'.cache = queue.cache)
    (hindex : queue'.index = queue.index) : Tracks env queue' messages where
  index := by rw [hindex, h.index]
  cache := by rw [hcache, hindex, h.cache]
  nodup := by rw [hindex]; exact h.nodup
  limit := h.limit

/-- With a new signature the records are those of the message too. -/
theorem Tracks.remember {l : List Message} (h : Tracks env queue (l.rtake indexLimit))
    (hnew : m.signature env ∉ queue.cache) :
    Tracks env (queue.remember (m.signature env)) ((l ++ [m]).rtake indexLimit) := by
  have hindex : queue.index ++ [m.signature env] =
      (l.rtake indexLimit ++ [m]).map (Message.signature env) := by
    rw [List.map_append, ← h.index]
    rfl
  have hnodup : (queue.index ++ [m.signature env]).Nodup := by
    rw [h.cache, List.mem_toFinset] at hnew
    exact List.nodup_append_comm.mp (List.nodup_cons.mpr ⟨hnew, h.nodup⟩)
  have hcache : insert (m.signature env) queue.cache =
      (queue.index ++ [m.signature env]).toFinset := by
    rw [h.cache, List.toFinset_append, Finset.union_comm]
    rfl
  have hlength : (queue.index ++ [m.signature env]).length =
      (l.rtake indexLimit ++ [m]).length := by rw [hindex, List.length_map]
  have hlimit := h.limit
  rw [rtake_append_singleton, BroadcastQueue.remember]
  by_cases hfull : (l.rtake indexLimit ++ [m]).length > indexLimit
  · rw [if_pos hfull, if_pos (by rw [hlength]; exact hfull), hcache]
    -- The oldest signature is not among the others, so erasing it leaves theirs.
    generalize queue.index ++ [m.signature env] = index at hindex hnodup
    cases index with
    | nil => exact absurd (congrArg List.length hindex) (by simp)
    | cons s rest =>
      obtain ⟨hs, hrest⟩ := List.nodup_cons.mp hnodup
      refine ⟨?_, ?_, hrest, ?_⟩
      · show rest = _
        rw [List.map_tail, ← hindex]
        rfl
      · show (s :: rest).toFinset.erase s = rest.toFinset
        rw [List.toFinset_cons, Finset.erase_insert (by simpa using hs)]
      · rw [List.length_tail, List.length_append, List.length_singleton]
        omega
  · rw [if_neg hfull, if_neg (by rw [hlength]; exact hfull)]
    exact ⟨hindex, hcache, hnodup, Nat.le_of_not_lt hfull⟩

/-- One step keeps track. -/
theorem Tracks.step (h : Tracks env queue (recent env trace)) (op : Op) :
    Tracks env (op.run env queue) (recent env (trace ++ [(queue, op)])) := by
  have hrecent : accepted env (trace ++ [(queue, op)]) =
      accepted env trace ++ (accepted? env (queue, op)).toList := by
    rw [accepted, List.filterMap_append]
    cases hop : accepted? env (queue, op) <;> simp [hop, accepted]
  rw [recent, hrecent]
  cases op with
  | send m =>
    rw [Op.run, BroadcastQueue.send, accepted?]
    by_cases hmem : m.signature env ∈ queue.cache
    · rw [if_pos hmem, if_pos (show Suppresses env queue m from hmem), Option.toList_none,
        List.append_nil]
      exact h
    · rw [if_neg hmem, if_neg (show ¬ Suppresses env queue m from hmem)]
      exact (Tracks.remember h hmem).congr rfl rfl
  | chan size | receive i =>
    show Tracks env _ ((accepted env trace ++ []).rtake indexLimit)
    rw [List.append_nil]
    exact h.congr rfl rfl

/-- **The records along a run** are those of the last hundred messages that were sent. -/
theorem QueueRun.tracks (hrun : QueueRun env queueSize trace queue) :
    Tracks env queue (recent env trace) := by
  refine Run.history_invariant (P := fun trace queue => Tracks env queue (recent env trace)) hrun
    (guarded_true trace) ?_ ?_
  · exact ⟨rfl, rfl, List.nodup_nil, Nat.zero_le _⟩
  · intro trace queue op queue' _ _ h _ hstep
    rw [hstep]
    exact h.step op

/-! ## What is suppressed -/

/-- The bytes that the run hashes. -/
def hashed (trace : List (BroadcastQueue × Op)) : Set Bytes :=
  {b | ∃ queue m, (queue, Op.send m) ∈ trace ∧ m.written = b}

theorem mem_hashed (hm : m ∈ recent env trace) : m.written ∈ hashed trace := by
  have hm : m ∈ accepted env trace := List.mem_of_mem_drop hm
  obtain ⟨⟨queue, op⟩, hmem, hop⟩ := List.mem_filterMap.mp hm
  cases op with
  | send m' =>
    rw [accepted?] at hop
    split_ifs at hop
    cases hop
    exact ⟨queue, m, hmem, rfl⟩
  | chan size | receive i => cases hop

/-- A message is suppressed by one that is written the same. -/
theorem Tracks.suppresses_iff (h : Tracks env queue messages)
    (hinj : ∀ m' ∈ messages, env.sha3Sum256 m'.written = env.sha3Sum256 m.written →
      m'.written = m.written) :
    Suppresses env queue m ↔ ∃ m' ∈ messages, m'.written = m.written := by
  rw [Suppresses, h.mem_cache]
  constructor
  · rintro ⟨m', hm', hsum⟩
    exact ⟨m', hm', hinj m' hm' hsum⟩
  · rintro ⟨m', hm', hwritten⟩
    exact ⟨m', hm', by rw [Message.signature, hwritten]; rfl⟩

/-- The messages that are tracked are written differently. -/
theorem Tracks.eq_of_written (h : Tracks env queue messages) (hm : m ∈ messages)
    (hm' : m' ∈ messages) (hwritten : m'.written = m.written) : m' = m := by
  have hnodup := h.nodup
  rw [h.index] at hnodup
  exact List.inj_on_of_nodup_map hnodup hm' hm (by rw [Message.signature, hwritten]; rfl)

/-- The channel takes the message if more than one entry is free, or if one is and it is a block. -/
theorem Channel.deliver_eq (c : Channel) (m : Message) : c.deliver m =
    if c.buffer.length + 1 < c.capacity ∨
        (m.command = blockCommand ∧ c.buffer.length < c.capacity) then
      { c with buffer := c.buffer ++ [m] }
    else c := by
  unfold Channel.deliver
  split_ifs <;> grind

/-- **Suppressing repeats.** Along every run whose messages have no colliding hashes, the map has
the signatures of the list, which has no repeats and at most a hundred elements, those of the last
messages that were sent. A further message that is suppressed changes nothing; one that is not
becomes the last of the list and goes to every channel that has room for it. It is suppressed
exactly if it is one of the last messages, if and only if none of them is a different message that
is written the same. -/
theorem suppresses_only_repeats (hrun : QueueRun env queueSize trace queue) (m : Message)
    (hinj : Set.InjOn env.sha3Sum256 (insert m.written (hashed trace))) :
    (∀ s, s ∈ queue.cache ↔ s ∈ queue.index) ∧ queue.index.Nodup ∧ queue.index.length ≤ 100 ∧
      queue.index = (recent env trace).map (Message.signature env) ∧
      (Suppresses env queue m → queue.send env m = queue) ∧
      (¬ Suppresses env queue m →
        (queue.send env m).index =
          ((accepted env trace ++ [m]).rtake 100).map (Message.signature env) ∧
        (queue.send env m).out = queue.out.map fun c =>
          if c.buffer.length + 1 < c.capacity ∨
              (m.command = blockCommand ∧ c.buffer.length < c.capacity) then
            { c with buffer := c.buffer ++ [m] }
          else c) ∧
      ((Suppresses env queue m ↔ m ∈ recent env trace) ↔
        ∀ m' ∈ recent env trace, m'.written = m.written → m' = m) := by
  have htracks := hrun.tracks
  have hlength : queue.index.length ≤ 100 := by
    rw [htracks.index, List.length_map]
    exact htracks.limit
  have hsuppresses : Suppresses env queue m ↔ ∃ m' ∈ recent env trace, m'.written = m.written :=
    htracks.suppresses_iff fun m' hm' =>
      hinj (Set.mem_insert_of_mem _ (mem_hashed hm')) (Set.mem_insert _ _)
  refine ⟨fun s => ?_, htracks.nodup, hlength, htracks.index, fun h => if_pos h, fun hnew => ?_, ?_⟩
  · rw [htracks.cache, List.mem_toFinset]
  · rw [show queue.send env m = _ from if_neg hnew]
    refine ⟨(Tracks.remember htracks hnew).index, ?_⟩
    simp only [← Channel.deliver_eq, BroadcastQueue.remember_out]
  · rw [hsuppresses]
    constructor
    · intro h m' hm' hwritten
      exact htracks.eq_of_written (h.mp ⟨m', hm', hwritten⟩) hm' hwritten
    · intro h
      refine ⟨fun ⟨m', hm', hwritten⟩ => ?_, fun hm => ⟨m, hm, rfl⟩⟩
      rw [← h m' hm' hwritten]
      exact hm'

end Records

/-! ## Two messages -/

namespace Sample

open Bitmarkd.Sample

/-- The parameters are `ab`, `c` and `a`, `bc`. -/
def first : Message := ⟨[0x72, 0x70, 0x63], [[0x61, 0x62], [0x63]]⟩
def second : Message := ⟨[0x72, 0x70, 0x63], [[0x61], [0x62, 0x63]]⟩

def afterFirst : BroadcastQueue := (BroadcastQueue.make 1000).send env first

def firstTrace : List (BroadcastQueue × Op) := [(BroadcastQueue.make 1000, .send first)]

theorem queueRun_first : QueueRun env 1000 firstTrace afterFirst := Run.single rfl

/-- **A different message is suppressed.** Its parameters are split elsewhere. -/
theorem split_elsewhere_suppressed :
    QueueRun env 1000 firstTrace afterFirst ∧ accepted env firstTrace = [first] ∧
      second ≠ first ∧ Suppresses env afterFirst second ∧
        afterFirst.send env second = afterFirst := by
  refine ⟨queueRun_first, ?_⟩
  decide +kernel

/-- A message that is neither. -/
def third : Message := ⟨[0x72, 0x70, 0x63], [[0x64]]⟩

def opened : BroadcastQueue := (BroadcastQueue.make 1000).chan 10

def openedTrace : List (BroadcastQueue × Op) :=
  [(BroadcastQueue.make 1000, .chan 10), (opened, .send first)]

/-- After a first message the third one is sent on. -/
theorem suppresses_only_repeats_third : ¬ Suppresses env (opened.send env first) third ∧
    ((opened.send env first).send env third).index = [first, third].map (Message.signature env) ∧
    ((opened.send env first).send env third).out = [⟨10, [first, third]⟩] ∧
    third ∉ recent env openedTrace := by
  have hrun : QueueRun env 1000 openedTrace (opened.send env first) :=
    (Run.single (a := Op.chan 10) rfl).append (Run.single rfl)
  have hsub : insert third.written (hashed openedTrace) ⊆ {third.written, first.written} := by
    refine Set.insert_subset (Set.mem_insert _ _) ?_
    rintro b ⟨queue, m, hm, rfl⟩
    simp only [openedTrace, List.mem_cons, Prod.mk.injEq, reduceCtorEq, and_false, false_or,
      List.not_mem_nil, or_false, Op.send.injEq] at hm
    rw [hm.2]
    exact Set.mem_insert_of_mem _ rfl
  have hinj : Set.InjOn env.sha3Sum256 {third.written, first.written} :=
    Set.injOn_pair.mpr (by decide +kernel)
  obtain ⟨-, -, -, -, -, hsends, hiff⟩ := suppresses_only_repeats hrun third (hinj.mono hsub)
  have hnew : ¬ Suppresses env (opened.send env first) third := by decide +kernel
  refine ⟨hnew, (hsends hnew).1.trans (by decide +kernel),
    (hsends hnew).2.trans (by decide +kernel), ?_⟩
  exact mt (hiff.mpr (by decide +kernel)).mpr hnew

end Sample

end Bitmarkd.Messagebus
