import Bitmarkd.Lib.Hex
import Bitmarkd.Lib.Run
import Bitmarkd.Sample

/-!
# The queue of mining jobs

`proof/queue.go`. A block that is to be mined is published as a job, and the last jobs wait in 32
slots for a nonce. The number of a job is a counter of 16 bits, which wraps; its slot is the number
modulo 32, so the slots of two live jobs differ if their numbers do.

**The queue is sound** after any calls (`job_queue`): the ids of live jobs differ, a block is sent
only for a live job and a nonce that meets the difficulty, and when a block is sent the queue is
erased, so that older jobs send nothing any more. But **the queue is also erased by a submission
that is no nonce**: one that names a live job with another request sends nothing, and takes all jobs
with it.
-/

namespace Bitmarkd.Proof

open Lib

/-! ## The source -/

/-- `PublishedItem`, without the ids, which nothing here reads. The difficulty in the header is
either `difficulty.Current` itself, which goes on changing, or a value of its own. -/
structure PublishedItem where
  job : Bytes
  header : Header
  sharesCurrent : Bool
  txZero : Bytes
deriving DecidableEq

/-- `SubmittedItem`. -/
structure SubmittedItem where
  request : Bytes
  job : Bytes
  packed : Bytes
deriving DecidableEq

/-- `entryType`. -/
structure QueueEntry where
  item : PublishedItem
  transactions : Bytes
deriving DecidableEq

/-- `jobQueueType`. An entry that was cleared leaves its slot under the same lock, so that every
entry in a slot has its item. -/
structure JobQueue where
  entries : Fin 32 → Option QueueEntry
  count : UInt16
  clear : Bool

/-- The request `block.nonce`. -/
def blockNonce : Bytes := [0x62, 0x6c, 0x6f, 0x63, 0x6b, 0x2e, 0x6e, 0x6f, 0x6e, 0x63, 0x65]

/-- The id of a job: the number in the format `%04x`. -/
def jobText (count : UInt16) : Bytes := hexEncode (beBytes 2 count.toNat)

/-- The slot of a job: the number modulo `queueSize`. -/
def slot (count : UInt16) : Fin 32 := Fin.ofNat 32 count.toNat

/-- The header of an item, where the current difficulty is `current`. -/
def PublishedItem.headerAt (item : PublishedItem) (current : Difficulty) : Header :=
  if item.sharesCurrent then { item.header with difficulty := current } else item.header

/-- The item with the nonce of a submission in its header. -/
def QueueEntry.withNonce (e : QueueEntry) (nonce : UInt64) : QueueEntry :=
  { e with item := { e.item with header := { e.item.header with nonce } } }

namespace JobQueue

/-- `initialiseJobQueue`. The counter goes on. -/
def initialiseJobQueue (q : JobQueue) : JobQueue :=
  { q with entries := fun _ => none, clear := false }

/-- The queue with an entry in a slot. -/
def put (q : JobQueue) (i : Fin 32) (e : QueueEntry) : JobQueue :=
  { q with entries := Function.update q.entries i (some e) }

/-- `enqueueToJobQueue`. -/
def enqueueToJobQueue (q : JobQueue) (item : PublishedItem) (txdata : Bytes) : JobQueue :=
  let count := q.count + 1
  let item := { item with job := jobText count }
  JobQueue.put { q with count } (slot count) ⟨item, txdata⟩

/-- The loop `search` of `matchToJobQueue`: the first slot with the job. -/
def search (q : JobQueue) (job : Bytes) : Option (Fin 32 × QueueEntry) :=
  (List.finRange 32).findSome? fun i =>
    ((q.entries i).filter fun e => e.item.job = job).map fun e => (i, e)

/-- The part `cleanup` of `matchToJobQueue`. -/
def cleanup (q : JobQueue) : JobQueue := { q with entries := fun _ => none, clear := true }

/-- `matchToJobQueue`, and the block that it sends. The mode and the difficulty are those at the
time of the call. -/
def matchToJobQueue (env : Env) (current : Difficulty) (normal : Bool) (q : JobQueue)
    (received : SubmittedItem) : JobQueue × Option Bytes :=
  match q.search received.job with
  | none => (q, none)
  | some (i, e) =>
    if ¬ normal then (q.cleanup, none)
    else if received.request = blockNonce then
      if received.packed.length ≠ 8 then (q, none)
      else
        -- the nonce is stored in the item itself, and stays there if it does not do
        let e := e.withNonce (ofLE64 received.packed)
        let q := q.put i e
        let ph := (e.item.headerAt current).pack
        let digest := env.argon2Hash ph
        if ¬ isValidByDifficulty env digest (e.item.headerAt current).difficulty then (q, none)
        else (q.cleanup, some (ph ++ e.item.txZero ++ e.transactions))
    else (q.cleanup, none)

end JobQueue

/-! ## Runs -/

/-- The queue, and the difficulty that other parts of the program set. -/
structure Mining where
  queue : JobQueue
  current : Difficulty

/-- The calls. -/
inductive Op
  | enqueue (item : PublishedItem) (txdata : Bytes)
  | submit (normal : Bool) (received : SubmittedItem)
  | setCurrent (difficulty : Difficulty)

/-- A call, and the block that is sent. -/
def step (env : Env) (s : Mining) : Op → Mining × Option Bytes
  | .enqueue item txdata => ({ s with queue := s.queue.enqueueToJobQueue item txdata }, none)
  | .submit normal received =>
    let (queue, sent) := s.queue.matchToJobQueue env s.current normal received
    ({ s with queue }, sent)
  | .setCurrent current => ({ s with current }, none)

/-- A call with what it sends. -/
abbrev Label := Op × Option Bytes

/-- The calls one after the other, from a queue as it is initialised. -/
def MiningRun (env : Env) (q₀ : JobQueue) (d₀ : Difficulty) (trace : List (Mining × Label))
    (s : Mining) : Prop :=
  Run (fun s (a : Label) s' => step env s a.1 = (s', a.2)) ⟨q₀.initialiseJobQueue, d₀⟩ trace s

/-- A job is live. -/
def JobQueue.Live (q : JobQueue) (i : Fin 32) (e : QueueEntry) : Prop := q.entries i = some e

/-- The call enqueues under this id. -/
def EnqueuesAs (job : Bytes) (x : Mining × Label) : Prop :=
  ∃ item txdata, x.2.1 = .enqueue item txdata ∧ jobText (x.1.queue.count + 1) = job

/-- The entry is what a call of the trace enqueued, with another nonce perhaps. Afterwards nothing
was enqueued under the same id, and no block was sent. -/
def Enqueued (trace : List (Mining × Label)) (e : QueueEntry) : Prop :=
  ∃ before t item txdata after, trace = before ++ (t, .enqueue item txdata, none) :: after ∧
    e.item.job = jobText (t.queue.count + 1) ∧
    (∃ nonce, e = QueueEntry.withNonce ⟨{ item with job := e.item.job }, txdata⟩ nonce) ∧
    ∀ x ∈ after, x.2.2 = none ∧ ¬ EnqueuesAs e.item.job x

/-- The block is the one of a live job for a nonce that does. -/
def Mined (env : Env) (s : Mining) (received : SubmittedItem) (e : QueueEntry) (block : Bytes) :
    Prop :=
  received.request = blockNonce ∧ received.packed.length = 8 ∧
    let header :=
      { e.item.headerAt s.current with nonce := ofLE64 received.packed }
    isValidByDifficulty env (env.argon2Hash header.pack) header.difficulty ∧
      block = header.pack ++ e.item.txZero ++ e.transactions

/-- Every live job stays, with another nonce perhaps. -/
def JobQueue.Available (q q' : JobQueue) : Prop :=
  ∀ i e, q.Live i e → ∃ nonce, q'.Live i (e.withNonce nonce)

/-! ## Numbers, ids and slots -/

theorem jobText_injective : Function.Injective jobText := by
  intro m n h
  have hbytes : beBytes 2 m.toNat = beBytes 2 n.toNat := hexEncode_injective h
  have hvalue := congrArg beValue hbytes
  rw [beValue_beBytes, beValue_beBytes] at hvalue
  have hm := m.toNat_lt
  have hn := n.toNat_lt
  apply UInt16.toNat_inj.mp
  omega

/-- Job ids have four digits, also after the counter wrapped. -/
example : jobText 0x0abc = [0x30, 0x61, 0x62, 0x63] ∧ slot (0xffff + 1) = slot 0xffff + 1 := by
  decide

/-- The nonce goes into the header, whether its difficulty is its own or not. -/
theorem headerAt_withNonce (e : QueueEntry) (nonce : UInt64) (current : Difficulty) :
    (e.withNonce nonce).item.headerAt current = { e.item.headerAt current with nonce } := by
  unfold PublishedItem.headerAt QueueEntry.withNonce
  by_cases h : e.item.sharesCurrent
  · simp [h]
  · simp [h]

/-! ## One call -/

namespace JobQueue

variable {env : Env} {current : Difficulty} {normal : Bool} {q q' : JobQueue}
  {received : SubmittedItem} {sent : Option Bytes} {i : Fin 32} {e : QueueEntry}

theorem Available.refl (q : JobQueue) : q.Available q := by
  intro i e h
  exact ⟨e.item.header.nonce, h⟩

@[simp] theorem live_put_self {e' : QueueEntry} : (q.put i e).Live i e' ↔ e = e' := by
  simp [Live, put]

theorem live_put_of_ne {j : Fin 32} {e' : QueueEntry} (h : j ≠ i) :
    (q.put i e).Live j e' ↔ q.Live j e' := by
  simp [Live, put, Function.update_of_ne h]

theorem search_eq_none {job : Bytes} :
    q.search job = none ↔ ∀ i e, q.Live i e → e.item.job ≠ job := by
  simp [search, Live, List.findSome?_eq_none_iff, Option.filter_eq_none_iff]

theorem live_of_search {job : Bytes} (h : q.search job = some (i, e)) :
    q.Live i e ∧ e.item.job = job := by
  obtain ⟨j, -, hj⟩ := List.exists_of_findSome?_eq_some h
  obtain ⟨e', he', heq⟩ := Option.map_eq_some_iff.mp hj
  cases heq
  simpa [Live, Option.filter_eq_some_iff] using he'

/-- What `matchToJobQueue` does: nothing without a live job of that id, or with a nonce of another
length; it stores a nonce that does not do; it erases the queue outside of normal mode and for
another request; and it erases the queue and sends a block for a nonce that does. -/
inductive Matched (env : Env) (s : Mining) (normal : Bool) (received : SubmittedItem) :
    JobQueue → Option Bytes → Prop
  | absent (h : ∀ i e, s.queue.Live i e → e.item.job ≠ received.job) :
    Matched env s normal received s.queue none
  | abandoned (i : Fin 32) (e : QueueEntry) (he : s.queue.Live i e)
    (hjob : e.item.job = received.job) (h : normal = false ∨ received.request ≠ blockNonce) :
    Matched env s normal received s.queue.cleanup none
  | malformed (hrequest : received.request = blockNonce) :
    Matched env s normal received s.queue none
  | missed (i : Fin 32) (e : QueueEntry) (he : s.queue.Live i e)
    (hrequest : received.request = blockNonce) : Matched env s normal received
      (s.queue.put i (e.withNonce (ofLE64 received.packed))) none
  | mined (i : Fin 32) (e : QueueEntry) (he : s.queue.Live i e)
    (hjob : e.item.job = received.job) (hnormal : normal = true) (block : Bytes)
    (h : Mined env s received e block) : Matched env s normal received s.queue.cleanup (some block)

theorem matchToJobQueue_spec (env : Env) (s : Mining) (normal : Bool) (received : SubmittedItem) :
    Matched env s normal received (s.queue.matchToJobQueue env s.current normal received).1
      (s.queue.matchToJobQueue env s.current normal received).2 := by
  unfold matchToJobQueue
  cases hsearch : s.queue.search received.job with
  | none => exact .absent (search_eq_none.mp hsearch)
  | some x =>
    obtain ⟨i, e⟩ := x
    obtain ⟨he, hjob⟩ := live_of_search hsearch
    dsimp only
    by_cases hnormal : normal = true
    · rw [if_neg (not_not.mpr hnormal)]
      by_cases hrequest : received.request = blockNonce
      · rw [if_pos hrequest]
        by_cases hlength : received.packed.length = 8
        · rw [if_neg (not_not.mpr hlength), headerAt_withNonce]
          split
          · exact .missed i e he hrequest
          next hvalid =>
            exact .mined i e he hjob hnormal _ ⟨hrequest, hlength, not_not.mp hvalid, rfl⟩
        · rw [if_pos hlength]
          exact .malformed hrequest
      · rw [if_neg hrequest]
        exact .abandoned i e he hjob (.inr hrequest)
    · rw [if_pos hnormal]
      exact .abandoned i e he hjob (.inl (Bool.not_eq_true _ ▸ hnormal))

/-- The live jobs after a submission are live ones from before, and if a block was sent there are
none. -/
theorem Matched.live {s : Mining} (h : Matched env s normal received q' sent)
    (hlive : q'.Live i e) :
    sent = none ∧ ∃ e₀ nonce, s.queue.Live i e₀ ∧ e = e₀.withNonce nonce := by
  have hsame {e : QueueEntry} (h : s.queue.Live i e) :
      ∃ e₀ nonce, s.queue.Live i e₀ ∧ e = e₀.withNonce nonce :=
    ⟨e, e.item.header.nonce, h, rfl⟩
  cases h with
  | absent _ => exact ⟨rfl, hsame hlive⟩
  | abandoned _ _ _ _ _ => exact (Option.some_ne_none _ hlive.symm).elim
  | malformed _ => exact ⟨rfl, hsame hlive⟩
  | missed j e₀ he₀ _ =>
    refine ⟨rfl, ?_⟩
    by_cases hij : i = j
    · subst hij
      exact ⟨e₀, _, he₀, (live_put_self.mp hlive).symm⟩
    · exact hsame ((live_put_of_ne hij).mp hlive)
  | mined _ _ _ _ _ _ _ => exact (Option.some_ne_none _ hlive.symm).elim

theorem Matched.sends {s : Mining} {block : Bytes}
    (h : Matched env s normal received q' (some block)) :
    normal = true ∧ ∃ i e, s.queue.Live i e ∧ e.item.job = received.job ∧
      Mined env s received e block := by
  cases h with
  | mined i e he hjob hnormal _ hmined => exact ⟨hnormal, i, e, he, hjob, hmined⟩

/-- A submission in normal mode that sends nothing keeps the live jobs exactly if it is not another
request for a live job. -/
theorem Matched.available_iff {s : Mining} (h : Matched env s true received q' none) :
    s.queue.Available q' ↔
      ∀ i e, s.queue.Live i e → e.item.job = received.job → received.request = blockNonce := by
  generalize hsent : (none : Option Bytes) = sent at h
  cases h with
  | absent habsent =>
    apply iff_of_true (.refl _)
    intro i e he hjob
    exact (habsent i e he hjob).elim
  | abandoned i e he hjob hcause =>
    have hrequest : received.request ≠ blockNonce := hcause.resolve_left (by decide)
    apply iff_of_false
    · intro havailable
      obtain ⟨nonce, hlive⟩ := havailable i e he
      exact Option.some_ne_none _ hlive.symm
    · intro h
      exact hrequest (h i e he hjob)
  | malformed hrequest => exact iff_of_true (.refl _) fun _ _ _ _ => hrequest
  | missed i e he hrequest =>
    apply iff_of_true
    · intro j e' he'
      by_cases hji : j = i
      · subst hji
        have : e' = e := Option.some.inj (he'.symm.trans he)
        exact ⟨_, live_put_self.mpr (congrArg (QueueEntry.withNonce · _) this.symm)⟩
      · exact ⟨e'.item.header.nonce, (live_put_of_ne hji).mpr he'⟩
    · exact fun _ _ _ _ => hrequest
  | mined _ _ _ _ _ _ _ => cases hsent

end JobQueue

/-! ## Whole runs -/

section Runs

variable {env : Env} {q₀ : JobQueue} {d₀ : Difficulty} {trace : List (Mining × Label)}
  {s s' t : Mining} {e : QueueEntry} {op : Op} {sent : Option Bytes}

/-- Every live job has the id of a number of its slot, and was enqueued. -/
def Sound (trace : List (Mining × Label)) (q : JobQueue) : Prop :=
  ∀ i e, q.Live i e → (∃ n, slot n = i ∧ e.item.job = jobText n) ∧ Enqueued trace e

/-- A call that sends nothing and does not enqueue under the id. -/
theorem Enqueued.snoc (h : Enqueued trace e) {x : Mining × Label} (hsent : x.2.2 = none)
    (hx : ¬ EnqueuesAs e.item.job x) : Enqueued (trace ++ [x]) e := by
  obtain ⟨before, t, item, txdata, after, rfl, hjob, hitem, hafter⟩ := h
  refine ⟨before, t, item, txdata, after ++ [x], by simp, hjob, hitem, ?_⟩
  intro y hy
  rcases List.mem_append.mp hy with hy | hy
  · exact hafter y hy
  · rw [List.mem_singleton.mp hy]
    exact ⟨hsent, hx⟩

theorem Enqueued.withNonce (h : Enqueued trace e) (nonce : UInt64) :
    Enqueued trace (e.withNonce nonce) := by
  obtain ⟨before, t, item, txdata, after, htrace, hjob, ⟨nonce', he⟩, hafter⟩ := h
  refine ⟨before, t, item, txdata, after, htrace, hjob, ⟨nonce, ?_⟩, hafter⟩
  exact (congrArg (QueueEntry.withNonce · nonce) he :)

/-- What was enqueued is in the part of the trace after a block was sent. -/
theorem Enqueued.of_sent {pre post : List (Mining × Label)} {x : Mining × Label}
    (h : Enqueued (pre ++ x :: post) e) (hx : x.2.2 ≠ none) : Enqueued post e := by
  obtain ⟨before, t, item, txdata, after, htrace, hjob, hitem, hafter⟩ := h
  rcases List.append_eq_append_iff.mp htrace with ⟨l, hbefore, hpost⟩ | ⟨l, hpre, hafter'⟩
  · cases l with
    | nil =>
      cases hpost
      exact (hx rfl).elim
    | cons y l =>
      rw [List.cons_append] at hpost
      exact ⟨l, t, item, txdata, after, (List.cons.inj hpost).2, hjob, hitem, hafter⟩
  · cases l with
    | nil =>
      cases hafter'
      exact (hx rfl).elim
    | cons y l =>
      have hmem : x ∈ after := by
        rw [(List.cons.inj hafter').2]
        simp
      exact (hx (hafter x hmem).1).elim

theorem Sound.enqueue (h : Sound trace s.queue) (item : PublishedItem) (txdata : Bytes) :
    Sound (trace ++ [(s, .enqueue item txdata, none)])
      (s.queue.enqueueToJobQueue item txdata) := by
  intro i e he
  by_cases hi : i = slot (s.queue.count + 1)
  · subst hi
    cases JobQueue.live_put_self.mp he
    exact ⟨⟨_, rfl, rfl⟩, trace, s, item, txdata, [], rfl, rfl, ⟨item.header.nonce, rfl⟩, by simp⟩
  · obtain ⟨⟨n, hn, hjob⟩, henqueued⟩ := h i e ((JobQueue.live_put_of_ne hi).mp he)
    refine ⟨⟨n, hn, hjob⟩, henqueued.snoc rfl ?_⟩
    -- the same id would be the same number, in the same slot
    rintro ⟨item', txdata', -, hid⟩
    rw [hjob] at hid
    rw [← jobText_injective hid] at hn
    exact hi hn.symm

theorem Sound.step (h : Sound trace s.queue) (hstep : Proof.step env s op = (s', sent)) :
    Sound (trace ++ [(s, op, sent)]) s'.queue := by
  cases op with
  | enqueue item txdata =>
    cases hstep
    exact h.enqueue item txdata
  | submit normal received =>
    cases hstep
    intro i e he
    obtain ⟨hsent, e₀, nonce, he₀, rfl⟩ :=
      (JobQueue.matchToJobQueue_spec env s normal received).live he
    obtain ⟨hnumber, henqueued⟩ := h i e₀ he₀
    refine ⟨hnumber, (henqueued.withNonce nonce).snoc hsent ?_⟩
    rintro ⟨item, txdata, hop, -⟩
    cases hop
  | setCurrent current =>
    cases hstep
    intro i e he
    obtain ⟨hnumber, henqueued⟩ := h i e he
    refine ⟨hnumber, henqueued.snoc rfl ?_⟩
    rintro ⟨item, txdata, hop, -⟩
    cases hop

theorem MiningRun.sound (h : MiningRun env q₀ d₀ trace s) : Sound trace s.queue := by
  refine h.history_invariant (P := fun trace s => Sound trace s.queue) (guarded_true trace) ?_ ?_
  · intro i e he
    cases he
  · intro trace t a u _ _ hsound _ hstep
    exact hsound.step hstep

/-- **The queue of mining jobs.** After any calls, the ids of live jobs differ, and each is the last
one that was enqueued under its id. A block is sent only in normal mode, for a live job and a nonce
that meets the difficulty of its header; it is this header, and what was enqueued with it. After it,
only jobs that are enqueued later are live. And a submission in normal mode that sends nothing
leaves all live jobs exactly if it asks for `block.nonce` or names no live job. -/
theorem job_queue (h : MiningRun env q₀ d₀ trace s) :
    (∀ i j e e', s.queue.Live i e → s.queue.Live j e' → e.item.job = e'.item.job → i = j) ∧
    (∀ i e, s.queue.Live i e → Enqueued trace e) ∧
    (∀ normal received block,
      (s.queue.matchToJobQueue env s.current normal received).2 = some block →
        normal = true ∧ ∃ i e, s.queue.Live i e ∧ e.item.job = received.job ∧
          Mined env s received e block) ∧
    (∀ before x after, trace = before ++ x :: after → x.2.2 ≠ none →
      ∀ i e, s.queue.Live i e → Enqueued after e) ∧
    ∀ received, (s.queue.matchToJobQueue env s.current true received).2 = none →
      (s.queue.Available (s.queue.matchToJobQueue env s.current true received).1 ↔
        ∀ i e, s.queue.Live i e → e.item.job = received.job → received.request = blockNonce) := by
  have hsound := MiningRun.sound h
  refine ⟨?_, ?_, ?_, ?_, ?_⟩
  · intro i j e e' he he' hjob
    obtain ⟨⟨m, rfl, hm⟩, -⟩ := hsound i e he
    obtain ⟨⟨n, rfl, hn⟩, -⟩ := hsound j e' he'
    rw [jobText_injective ((hm.symm.trans hjob).trans hn)]
  · exact fun i e he => (hsound i e he).2
  · intro normal received block hsent
    have hmatched := JobQueue.matchToJobQueue_spec env s normal received
    rw [hsent] at hmatched
    exact hmatched.sends
  · intro before x after htrace hx i e he
    have henqueued : Enqueued trace e := (hsound i e he).2
    rw [htrace] at henqueued
    exact henqueued.of_sent hx
  · intro received hsent
    have hmatched := JobQueue.matchToJobQueue_spec env s true received
    rw [hsent] at hmatched
    exact hmatched.available_iff

end Runs

end Bitmarkd.Proof

namespace Bitmarkd.Proof.Sample

open Lib Bitmarkd.Sample

/-- The difficulty of a new value. -/
def difficulty : Difficulty := ⟨Difficulty.oneUint64, Difficulty.one, 0⟩

def item : PublishedItem := ⟨[], ⟨5, 1, 2, .zero 32, id 9, 1, difficulty, 0⟩, true, [1]⟩

def queue : JobQueue := ⟨fun _ => none, 0, false⟩

/-- The first job. -/
def submitted (request : Bytes) : SubmittedItem := ⟨request, jobText 1, List.replicate 8 7⟩

/-- A job is enqueued, and then there is a submission with another request. -/
def enqueued : Mining := (step env ⟨queue.initialiseJobQueue, difficulty⟩ (.enqueue item [2])).1

theorem run_enqueued : MiningRun env queue difficulty
    [(⟨queue.initialiseJobQueue, difficulty⟩, .enqueue item [2], none)] enqueued := Run.single rfl

theorem other_request_abandons : MiningRun env queue difficulty
    [(⟨queue.initialiseJobQueue, difficulty⟩, .enqueue item [2], none)] enqueued ∧
    (∃ e, enqueued.queue.Live 1 e) ∧
    (enqueued.queue.matchToJobQueue env difficulty true (submitted [0x78])).2 = none ∧
    ¬ enqueued.queue.Available
      (enqueued.queue.matchToJobQueue env difficulty true (submitted [0x78])).1 := by
  refine ⟨run_enqueued, ⟨_, rfl⟩, rfl, ?_⟩
  intro h
  obtain ⟨nonce, hlive⟩ := h 1 _ rfl
  cases hlive

/-- A chain on which the difficulty is tested. -/
def testing : Env := { env with chain := .testing }

/-- An item whose header has the digest zero, which meets every difficulty. -/
def easyItem : PublishedItem := { item with header := { item.header with merkleRoot := id 0 } }

/-- A second job is enqueued. -/
def twoJobs : Mining := (step testing enqueued (.enqueue easyItem [3])).1

def twoTrace : List (Mining × Label) :=
  [(⟨queue.initialiseJobQueue, difficulty⟩, .enqueue item [2], none),
    (enqueued, .enqueue easyItem [3], none)]

/-- The nonce does not do for the first job, and both stay available; it does for the second. -/
theorem job_queue_twoJobs :
    (twoJobs.queue.matchToJobQueue testing difficulty true (submitted blockNonce)).2 = none ∧
      twoJobs.queue.Available
        (twoJobs.queue.matchToJobQueue testing difficulty true (submitted blockNonce)).1 ∧
      ∃ block i e, (twoJobs.queue.matchToJobQueue testing difficulty true
          ⟨blockNonce, jobText 2, List.replicate 8 7⟩).2 = some block ∧
        twoJobs.queue.Live i e ∧ Enqueued twoTrace e ∧
        Mined testing twoJobs ⟨blockNonce, jobText 2, List.replicate 8 7⟩ e block := by
  have hrun : MiningRun testing queue difficulty twoTrace twoJobs :=
    (Run.nil.snoc rfl).snoc (a := (Op.enqueue easyItem [3], none)) rfl
  obtain ⟨-, henqueued, hsends, -, hkeeps⟩ := job_queue hrun
  have hnone : (twoJobs.queue.matchToJobQueue testing difficulty true
      (submitted blockNonce)).2 = none := by decide +kernel
  have hsome : (twoJobs.queue.matchToJobQueue testing difficulty true
      ⟨blockNonce, jobText 2, List.replicate 8 7⟩).2.isSome = true := by decide +kernel
  obtain ⟨block, hblock⟩ := Option.isSome_iff_exists.mp hsome
  obtain ⟨-, i, e, hlive, -, hmined⟩ := hsends true _ block hblock
  exact ⟨hnone, (hkeeps _ hnone).mpr fun _ _ _ _ => rfl, block, i, e, hblock, hlive,
    henqueued i e hlive, hmined⟩

end Bitmarkd.Proof.Sample
