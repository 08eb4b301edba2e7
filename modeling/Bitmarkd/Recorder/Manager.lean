import Bitmarkd.Recorder.Calendar

/-!
# The job manager of the recorder

`command/recorderd/job_manager.go`. A change of the calendar ends the two waiting goroutines and
starts new ones, each waiting for the next start or stop; when its time has come, a goroutine asks
the calendar for the next event, moving those that have passed to the next week. The calendar
answers `nil` if it has none, and the manager converts that to a time: it crashes.

A refresh, with what the manager does about it, and the expiry of a timer are one step each, with
one reading of the clock. A manager that waits for a goroutine that was never started takes no more
steps.

**When it crashes** (`manager_completes_iff`). The events of the first refresh are moved past the
present, so that there is a next one. Later refreshes leave out that step: on a Saturday after the
last start of the week there is none.
-/

namespace Bitmarkd.Recorder

open Lib

/-! ## Picking events -/

/-- `delayOfStartStop`. -/
def delayOfStartStop : ℤ := 5 * second

namespace JobCalendarData

/-- `isTimeBooked`. -/
def isTimeBooked (j : JobCalendarData) (event : ℤ) : Bool :=
  let events := j.events (weekday event)
  events.any fun t =>
    let afterOrEqualToStartTime := decide (t.start ≤ event)
    let beforeOrEqualToEndTime := t.stop.any (event ≤ ·)
    (afterOrEqualToStartTime && beforeOrEqualToEndTime) ||
      (events.head?.any (·.stop.isNone) && afterOrEqualToStartTime)

/-- `PickNextStartEvent`; `none` is `nil`. -/
def pickNextStartEvent (j : JobCalendarData) (event : ℤ) : Option ℤ := j.start.find? (event < ·)

/-- `PickNextStopEvent`. -/
def pickNextStopEvent (j : JobCalendarData) (event : ℤ) : Option ℤ := j.stop.find? (event < ·)

/-- `PickInitialiseStartEvent`. -/
def pickInitialiseStartEvent (j : JobCalendarData) (event : ℤ) : Option ℤ :=
  if j.isTimeBooked event then some (event + delayOfStartStop) else j.pickNextStartEvent event

/-- `PickInitialiseStopEvent`. -/
def pickInitialiseStopEvent (j : JobCalendarData) (event : ℤ) : Option ℤ :=
  if j.isTimeBooked event then j.pickNextStopEvent event else some (event + delayOfStartStop)

end JobCalendarData

/-! ## The manager -/

/-- `JobManagerData` with its calendar: the times that the two goroutines wait for, if they run, and
whether `resetAllEvent` waits for ever. -/
structure JobManagerData where
  calendar : JobCalendarData
  initialized : Bool
  startTimer : Option ℤ
  stopTimer : Option ℤ
  blocked : Bool

namespace JobManagerData

/-- `newJobManager`, with `newJobCalendar`. -/
def new : JobManagerData := ⟨.new, false, none, none, false⟩

/-- `rescheduleStartEvent`; `none` is the failed conversion of `nil`. -/
def rescheduleStartEvent (j : JobManagerData) (now : ℤ) : Option JobManagerData :=
  (j.calendar.pickInitialiseStartEvent now).map fun nextEvent =>
    { j with startTimer := some nextEvent }

/-- `rescheduleStopEvent`. -/
def rescheduleStopEvent (j : JobManagerData) (now : ℤ) : Option JobManagerData :=
  if j.calendar.runForever then some { j with stopTimer := none }
  else
    (j.calendar.pickInitialiseStopEvent now).map fun nextEvent =>
      { j with stopTimer := some nextEvent }

/-- `reschedule`. -/
def reschedule (j : JobManagerData) (now : ℤ) : Option JobManagerData :=
  (j.rescheduleStartEvent now).bind (·.rescheduleStopEvent now)

/-- A turn of `waitForRefresh`. The two goroutines are told to end and both are waited for; after a
calendar without stops there is only one. -/
def waitForRefresh (j : JobManagerData) (now : ℤ) : Option JobManagerData :=
  if j.initialized then
    if j.startTimer.isNone || j.stopTimer.isNone then
      some { j with startTimer := none, stopTimer := none, blocked := true }
    else j.reschedule now
  else
    let calendar :=
      (j.calendar.rescheduleStartEventsPrior now).rescheduleStopEventsPrior now
    reschedule { j with initialized := true, calendar } now

/-- A turn of `waitNextHasingStartEvent`, when the time has come. -/
def waitNextHasingStartEvent (j : JobManagerData) (now : ℤ) : Option JobManagerData :=
  let intf := j.calendar.pickNextStartEvent now
  let calendar := j.calendar.rescheduleStartEventsPrior now
  let intf := if intf.isNone then calendar.pickNextStartEvent now else intf
  intf.map fun nextEvent => { j with calendar, startTimer := some nextEvent }

/-- A turn of `waitNextHasingStopEvent`, when the time has come. -/
def waitNextHasingStopEvent (j : JobManagerData) (now : ℤ) : Option JobManagerData :=
  let intf := j.calendar.pickNextStopEvent now
  let calendar := j.calendar.rescheduleStopEventsPrior now
  let intf := if intf.isNone then calendar.pickNextStopEvent now else intf
  intf.map fun nextEvent => { j with calendar, stopTimer := some nextEvent }

end JobManagerData

/-! ## Steps -/

/-- What happens to the manager, and when. -/
inductive ManagerOp
  | refresh (now : ℤ) (calendar : ConfigCalendar)
  | startExpires (now : ℤ)
  | stopExpires (now : ℤ)

/-- A timer is due. -/
def due (timer : Option ℤ) (now : ℤ) : Bool := timer.any (· ≤ now)

/-- One step; `none` is a crash. The manager is told about a configuration that has changed. A
timer that does not run or is not due does not expire. -/
def ManagerOp.run (lib : Library) (j : JobManagerData) : ManagerOp → Option JobManagerData
  | .refresh now calendar =>
    if j.calendar.rawData = calendar ∨ j.blocked then some j
    else { j with calendar := j.calendar.refresh lib now calendar }.waitForRefresh now
  | .startExpires now =>
    if due j.startTimer now then j.waitNextHasingStartEvent now else some j
  | .stopExpires now =>
    if due j.stopTimer now then j.waitNextHasingStopEvent now else some j

/-- The manager after some steps, if it did not crash. -/
def runAll (lib : Library) : List ManagerOp → JobManagerData → Option JobManagerData :=
  execute fun j op => op.run lib j

/-! ## When a step completes -/

/-- The two events that a manager needs of a week at a time. -/
def HasEvents (week : JobCalendarData) (now : ℤ) : Prop :=
  (week.isTimeBooked now = true ∨ ∃ t ∈ week.start, now < t) ∧
    (week.stop = [] ∨ week.isTimeBooked now = false ∨ ∃ t ∈ week.stop, now < t)

/-- **The steps that complete.** A refresh changes nothing, or is the first one, or comes when the
stops are not waited for, or finds its events in the new week; a timer expires less than a week
after the last event. -/
def Completes (lib : Library) (j : JobManagerData) : ManagerOp → Prop
  | .refresh now calendar =>
    j.calendar.rawData = calendar ∨ j.blocked = true ∨ j.initialized = false ∨
      j.startTimer = none ∨ j.stopTimer = none ∨
      HasEvents (JobCalendarData.load lib now calendar) now
  | .startExpires now =>
    due j.startTimer now = false ∨ ∃ t ∈ j.calendar.start, now < t + oneWeekDuration
  | .stopExpires now =>
    due j.stopTimer now = false ∨ ∃ t ∈ j.calendar.stop, now < t + oneWeekDuration

section Steps

variable {lib : Library} {j : JobManagerData} {now : ℤ} {calendar : ConfigCalendar} {l : List ℤ}

theorem isSome_find_lt : (l.find? (now < ·)).isSome ↔ ∃ t ∈ l, now < t := by
  simp

theorem isSome_pickInitialiseStartEvent {week : JobCalendarData} :
    (week.pickInitialiseStartEvent now).isSome ↔
      (week.isTimeBooked now = true ∨ ∃ t ∈ week.start, now < t) := by
  rw [JobCalendarData.pickInitialiseStartEvent]
  cases week.isTimeBooked now with
  | true => simp
  | false =>
    rw [if_neg Bool.false_ne_true, JobCalendarData.pickNextStartEvent, isSome_find_lt]
    simp

theorem isSome_pickInitialiseStopEvent {week : JobCalendarData} :
    (week.pickInitialiseStopEvent now).isSome ↔
      (week.isTimeBooked now = false ∨ ∃ t ∈ week.stop, now < t) := by
  rw [JobCalendarData.pickInitialiseStopEvent]
  cases week.isTimeBooked now with
  | false => simp
  | true =>
    rw [if_pos rfl, JobCalendarData.pickNextStopEvent, isSome_find_lt]
    simp

/-- `reschedule` finds what it needs. -/
theorem isSome_reschedule : (j.reschedule now).isSome ↔ HasEvents j.calendar now := by
  have hstop (k : JobManagerData) : (k.rescheduleStopEvent now).isSome ↔
      (k.calendar.stop = [] ∨ k.calendar.isTimeBooked now = false ∨
        ∃ t ∈ k.calendar.stop, now < t) := by
    rw [JobManagerData.rescheduleStopEvent, JobCalendarData.runForever]
    by_cases hnone : k.calendar.stop = []
    · rw [if_pos (by rw [hnone]; rfl)]
      simp [hnone]
    · rw [if_neg (by simpa using hnone), Option.isSome_map, isSome_pickInitialiseStopEvent]
      simp [hnone]
  rw [JobManagerData.reschedule, HasEvents, ← isSome_pickInitialiseStartEvent,
    JobManagerData.rescheduleStartEvent]
  cases j.calendar.pickInitialiseStartEvent now with
  | none => simp
  | some nextEvent =>
    rw [Option.map_some, Option.bind_some, hstop]
    simp

/-- A passed event comes again, unless a whole week has passed. -/
theorem exists_lt_or_advance :
    ((∃ t ∈ l, now < t) ∨ ∃ t ∈ advance oneWeekDuration now l, now < t) ↔
      ∃ t ∈ l, now < t + oneWeekDuration := by
  have hweek := oneWeekDuration_pos
  constructor
  · rintro (⟨t, ht, hlt⟩ | ⟨t, ht, hlt⟩)
    · exact ⟨t, ht, by omega⟩
    · rcases mem_advance.mp ht with ht | ⟨s, hs, rfl⟩
      · exact ⟨t, (List.dropWhile_suffix _).subset ht, by omega⟩
      · exact ⟨s, (List.takeWhile_prefix _).subset hs, hlt⟩
  · rintro ⟨t, ht, hlt⟩
    by_cases hnext : ∃ t ∈ l, now < t
    · exact Or.inl hnext
    · -- All have passed, so all of them are moved.
      have hall : l.takeWhile (· ≤ now) = l := List.takeWhile_eq_self_iff.mpr fun s hs => by
        simpa using not_lt.mp fun hs' => hnext ⟨s, hs, hs'⟩
      refine Or.inr ⟨t + oneWeekDuration, mem_advance.mpr (Or.inr ⟨t, ?_, rfl⟩), hlt⟩
      rw [hall]
      exact ht

theorem isSome_waitNextHasingStartEvent : (j.waitNextHasingStartEvent now).isSome ↔
    ∃ t ∈ j.calendar.start, now < t + oneWeekDuration := by
  have hfirst : (j.calendar.pickNextStartEvent now).isSome ↔ ∃ t ∈ j.calendar.start, now < t :=
    isSome_find_lt
  have hsecond : ((j.calendar.rescheduleStartEventsPrior now).pickNextStartEvent now).isSome ↔
      ∃ t ∈ advance oneWeekDuration now j.calendar.start, now < t := by
    rw [← rescheduleEventsPrior_eq]
    exact isSome_find_lt
  rw [← exists_lt_or_advance, ← hfirst, ← hsecond, JobManagerData.waitNextHasingStartEvent,
    Option.isSome_map]
  cases j.calendar.pickNextStartEvent now <;> simp

theorem isSome_waitNextHasingStopEvent : (j.waitNextHasingStopEvent now).isSome ↔
    ∃ t ∈ j.calendar.stop, now < t + oneWeekDuration := by
  have hfirst : (j.calendar.pickNextStopEvent now).isSome ↔ ∃ t ∈ j.calendar.stop, now < t :=
    isSome_find_lt
  have hsecond : ((j.calendar.rescheduleStopEventsPrior now).pickNextStopEvent now).isSome ↔
      ∃ t ∈ advance oneWeekDuration now j.calendar.stop, now < t := by
    rw [← rescheduleEventsPrior_eq]
    exact isSome_find_lt
  rw [← exists_lt_or_advance, ← hfirst, ← hsecond, JobManagerData.waitNextHasingStopEvent,
    Option.isSome_map]
  cases j.calendar.pickNextStopEvent now <;> simp

/-- Every day has a start. -/
theorem load_start_ne_nil : (JobCalendarData.load lib now calendar).start ≠ [] := by
  rw [load_start, ← List.length_pos_iff, List.length_insertionSort, List.length_pos_iff, starts]
  intro h
  have hday := List.flatMap_eq_nil_iff.mp h 0 (List.mem_finRange 0)
  rw [List.map_eq_nil_iff, dayEvents] at hday
  split_ifs at hday with hnone
  exact hnone (List.map_eq_nil_iff.mp hday)

/-- A list advanced past a time in the week of its events has one to come. -/
theorem exists_lt_rescheduleEventsPrior (hl : l ≠ []) (hsorted : l.Pairwise (· ≤ ·))
    (hweek : ∀ t ∈ l, weekStart now ≤ t ∧ t ≤ weekStart now + oneWeekDuration) :
    ∃ t ∈ JobCalendarData.rescheduleEventsPrior l now, now < t := by
  rw [rescheduleEventsPrior_eq]
  obtain ⟨t, ht⟩ := List.exists_mem_of_ne_nil _ (advance_ne_nil hl)
  refine ⟨t, ht, lt_of_mem_advance hsorted (fun s hs => ?_) ht⟩
  have hnow := lt_weekStart_add now
  have hs := (hweek s hs).1
  omega

/-- The manager has its events if both lists are advanced past the present. -/
theorem hasEvents_reschedule {week : JobCalendarData}
    (hstart : ∃ t ∈ JobCalendarData.rescheduleEventsPrior week.start now, now < t)
    (hstop : week.stop ≠ [] →
      ∃ t ∈ JobCalendarData.rescheduleEventsPrior week.stop now, now < t) :
    HasEvents ((week.rescheduleStartEventsPrior now).rescheduleStopEventsPrior now) now := by
  refine ⟨Or.inr hstart, ?_⟩
  by_cases hnone : week.stop = []
  · left
    show JobCalendarData.rescheduleEventsPrior week.stop now = []
    rw [hnone]
    rfl
  · exact Or.inr (Or.inr (hstop hnone))

/-- The events of the first refresh are all to come. -/
theorem hasEvents_first (lib : Library) (now : ℤ) (calendar : ConfigCalendar) :
    HasEvents (((JobCalendarData.load lib now calendar).rescheduleStartEventsPrior
      now).rescheduleStopEventsPrior now) now :=
  hasEvents_reschedule
    (exists_lt_rescheduleEventsPrior load_start_ne_nil load_start_rota.sorted
      fun _ => mem_load_start_bounds)
    fun hstop => exists_lt_rescheduleEventsPrior hstop load_stop_rota.sorted
      fun _ => mem_load_stop_bounds

/-- **When a step completes.** -/
theorem isSome_run (op : ManagerOp) : (op.run lib j).isSome ↔ Completes lib j op := by
  cases op with
  | refresh now calendar =>
    rw [ManagerOp.run, Completes]
    by_cases hsame : j.calendar.rawData = calendar ∨ j.blocked
    · rw [if_pos hsame]
      simp only [Option.isSome_some, true_iff]
      tauto
    · obtain ⟨hnew, hfree⟩ := not_or.mp hsame
      rw [if_neg hsame, JobCalendarData.refresh, if_neg hnew, JobManagerData.waitForRefresh]
      dsimp only
      cases hinit : j.initialized with
      | false =>
        rw [if_neg Bool.false_ne_true, isSome_reschedule]
        simp only [hasEvents_first lib now calendar, true_iff]
        tauto
      | true =>
        rw [if_pos rfl]
        cases hstart : j.startTimer <;> cases hstop : j.stopTimer
        all_goals simp [hnew, hfree, isSome_reschedule]
  | startExpires now =>
    rw [ManagerOp.run, Completes]
    cases due j.startTimer now with
    | false => simp
    | true =>
      rw [if_pos rfl, isSome_waitNextHasingStartEvent]
      simp
  | stopExpires now =>
    rw [ManagerOp.run, Completes]
    cases due j.stopTimer now with
    | false => simp
    | true =>
      rw [if_pos rfl, isSome_waitNextHasingStopEvent]
      simp

/-- **When the manager crashes.** For every sequence of refreshes and timer expiries, the manager
gets through all of them exactly if each step completes in the state it is taken in. -/
theorem manager_completes_iff (lib : Library) (ops : List ManagerOp) :
    (runAll lib ops .new).isSome ↔ ∀ before op after k, ops = before ++ op :: after →
      runAll lib before .new = some k → Completes lib k op :=
  isSome_execute_iff (fun _ op => isSome_run op) ops .new

end Steps

/-! ## A Saturday -/

namespace Sample

/-- `8:00-9:30` on one day. -/
def morningOf (day : Weekday) : ConfigCalendar := fun d =>
  if d = day then [0x38, 0x3a, 0x30, 0x30, 0x2d, 0x39, 0x3a, 0x33, 0x30] else []

/-- Noon on Saturday. -/
def noon : ℤ := 6 * dayLength + 12 * hour

/-- **A crash at noon.** The calendar has a period on Friday, and at noon on Saturday it is changed
to one on Saturday morning: nothing is booked, and no start is left in the week. -/
theorem no_start_left :
    (runAll lib [.refresh (noon - hour) (morningOf 5)] .new).isSome = true ∧
      runAll lib [.refresh (noon - hour) (morningOf 5), .refresh noon (morningOf 6)] .new =
        none := by
  decide +kernel

end Sample

end Bitmarkd.Recorder
