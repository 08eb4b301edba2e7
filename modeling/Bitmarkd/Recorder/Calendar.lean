import Bitmarkd.Lib.Bytes
import Bitmarkd.Lib.Rota
import Bitmarkd.Lib.Run

/-!
# The calendar of the recorder

`command/recorderd/job_calendar.go`. The configuration gives the periods of each weekday in which
the recorder is to work. `Refresh` makes the events of the current week from it, and lists of all
start and stop times. A stop at which another period starts is dropped. Events that have passed are
moved to the next week.

Times are nanoseconds from a midnight at which a Sunday began; days have 24 hours. One `Refresh`
reads the clock once. `time.Parse` and `unicode.IsLetter` are parameters.

The lists stay in order, within one week, and the same week by week. But the order of the two clocks
of a period is decided wrongly: `10:00-9:30` starts at ten and stops half an hour before
(`calendar_well_formed`).
-/

namespace Bitmarkd.Recorder

open Lib

/-! ## Times -/

/-- `time.Weekday`, from Sunday on. -/
abbrev Weekday := Fin 7

def second : ℤ := 1000000000
def minute : ℤ := 60 * second
def hour : ℤ := 60 * minute
def dayLength : ℤ := 24 * hour

/-- `oneWeekDuration`. -/
def oneWeekDuration : ℤ := 24 * 7 * hour

/-- `Weekday`. -/
def weekday (t : ℤ) : Weekday := Fin.ofNat 7 (t / dayLength % 7).toNat

/-- `TimeData`: a clock time up to 24:00. -/
structure TimeData where
  hour : ℕ
  minute : ℕ
  inRange : minute < 60 ∧ 60 * hour + minute ≤ 24 * 60
deriving DecidableEq

/-- The time since midnight. -/
def TimeData.offset (c : TimeData) : ℤ := c.hour * Recorder.hour + c.minute * Recorder.minute

/-- Midnight. -/
def TimeData.zero : TimeData := ⟨0, 0, by decide⟩

/-- `timeByWeekdayAndOffset`: that day of the current week. -/
def timeByWeekdayAndOffset (now : ℤ) (day : Weekday) (clock : TimeData) : ℤ :=
  (now / dayLength + ((day : ℤ) - (weekday now : ℤ))) * dayLength + clock.offset

/-! ## The configuration -/

/-- What the calendar uses of the standard library. -/
structure Library where
  /-- `time.Parse("15:04", clock)`. -/
  parse : Bytes → Option (Fin 24 × Fin 60)
  /-- Some character is a letter. -/
  containsLetter : Bytes → Bool

/-- `ConfigCalendar`: a text for each day. -/
abbrev ConfigCalendar := Weekday → Bytes

/-- The characters space, comma and dash. -/
def spaceChar : UInt8 := 0x20
def timePeriodSeparator : UInt8 := 0x2c
def clockSeparator : UInt8 := 0x2d

/-- `strings.Trim(s, " ")`. -/
def trim (s : Bytes) : Bytes :=
  ((s.dropWhile (· = spaceChar)).reverse.dropWhile (· = spaceChar)).reverse

/-- `parseClockStr`. -/
def parseClockStr (lib : Library) (clock : Bytes) : Option TimeData :=
  -- 24:00 and 24:0
  if clock = [0x32, 0x34, 0x3a, 0x30, 0x30] ∨ clock = [0x32, 0x34, 0x3a, 0x30] then
    some ⟨24, 0, by decide⟩
  else
    (lib.parse clock).map fun t =>
      ⟨t.1, t.2, t.2.isLt, by have := t.1.isLt; have := t.2.isLt; omega⟩

/-- How `parseTimePeriod` can fail. -/
inductive PeriodError
  | format
  | indexOutOfRange
deriving DecidableEq

/-- The two clocks of a period, as they are written. -/
def parseClocks (lib : Library) (period : Bytes) : Except PeriodError (TimeData × TimeData) :=
  let str := period.filter (· ≠ spaceChar)
  let clocks := str.splitOn clockSeparator
  if clocks.length > 2 then .error .format
  else
    match parseClockStr lib (clocks.headD []) with
    | none => .error .format
    | some timeFirst =>
      match clocks[1]? with
      | none => .error .indexOutOfRange
      | some clock =>
        match parseClockStr lib clock with
        | none => .error .format
        | some timeSecond => .ok (timeFirst, timeSecond)

/-- `isTimeDataFirstEarlierThanSecond`. -/
def isTimeDataFirstEarlierThanSecond (first second : TimeData) : Bool :=
  if first.hour < second.hour then true
  else if first.minute < second.minute then true
  else false

/-- The two clocks as `parseTimePeriod` returns them. -/
def order (clocks : TimeData × TimeData) : TimeData × TimeData :=
  if isTimeDataFirstEarlierThanSecond clocks.1 clocks.2 then clocks else (clocks.2, clocks.1)

/-- `parseTimePeriod`. -/
def parseTimePeriod (lib : Library) (period : Bytes) : Except PeriodError (TimeData × TimeData) :=
  (parseClocks lib period).map order

/-- `isValidPeriod`. -/
def isValidPeriod (lib : Library) (str : Bytes) : Bool :=
  match str.splitOn clockSeparator with
  | [s₀, s₁] =>
    let t1 := trim s₀
    let t2 := trim s₁
    if t1 = t2 then false
    else if lib.containsLetter t1 || lib.containsLetter t2 then false
    else true
  | _ => false

/-! ## The events -/

/-- `SingleEvent`: the stop of an event that lasts all day is the zero time. -/
structure SingleEvent where
  start : ℤ
  stop : Option ℤ
deriving DecidableEq

/-- `JobCalendarData`: the lists of `flattenEvents`, the events by day, and the configuration. -/
structure JobCalendarData where
  start : List ℤ
  stop : List ℤ
  events : Weekday → List SingleEvent
  rawData : ConfigCalendar
deriving DecidableEq

/-- The event of a period, if it is valid and parses. A valid period has two clocks, so the index
is never out of range (`parseTimePeriod_ne_indexOutOfRange`). -/
def periodEvent (lib : Library) (now : ℤ) (day : Weekday) (period : Bytes) :
    Option SingleEvent :=
  if !isValidPeriod lib period then none
  else
    match parseTimePeriod lib period with
    | .error _ => none
    | .ok (t1, t2) =>
      some ⟨timeByWeekdayAndOffset now day t1, some (timeByWeekdayAndOffset now day t2)⟩

/-- The two pointers of `removeRedundantStopEvent`: which of the stops is a start. -/
def redundantIdx : ℕ → List ℤ → List ℤ → List Bool
  | 0, _, stop => stop.map fun _ => false
  | _ + 1, [], stop => stop.map fun _ => false
  | _ + 1, _ :: _, [] => []
  | turns + 1, i :: start, k :: stop =>
    if i = k then true :: redundantIdx turns start stop
    else if i > k then false :: redundantIdx turns (i :: start) stop
    else redundantIdx turns start (k :: stop)

namespace JobCalendarData

/-- `newJobCalendar`. -/
def new : JobCalendarData := ⟨[], [], fun _ => [], fun _ => []⟩

/-- `RunForever`. -/
def runForever (j : JobCalendarData) : Bool := j.stop.length = 0

/-- `scheduleStartEventWhenDayBegin`. -/
def scheduleStartEventWhenDayBegin (j : JobCalendarData) (now : ℤ) (day : Weekday) :
    JobCalendarData :=
  let start := timeByWeekdayAndOffset now day .zero
  { j with start := j.start ++ [start], events := Function.update j.events day [⟨start, none⟩] }

/-- `scheduleEvents`. -/
def scheduleEvents (lib : Library) (j : JobCalendarData) (now : ℤ) (day : Weekday)
    (clock : Bytes) : JobCalendarData :=
  let periods := clock.splitOn timePeriodSeparator
  let events := periods.filterMap (periodEvent lib now day)
  if events.length = 0 then j.scheduleStartEventWhenDayBegin now day
  else
    { j with
      events := Function.update j.events day events
      start := j.start ++ events.map SingleEvent.start
      stop := j.stop ++ events.filterMap SingleEvent.stop }

/-- `convertDayScheduleToEvents`. -/
def convertDayScheduleToEvents (lib : Library) (now : ℤ) (j : JobCalendarData) (day : Weekday) :
    JobCalendarData :=
  if trim (j.rawData day) = [] then j.scheduleStartEventWhenDayBegin now day
  else scheduleEvents lib j now day (j.rawData day)

/-- `convertWeekScheduleToEvents`. -/
def convertWeekScheduleToEvents (lib : Library) (now : ℤ) (j : JobCalendarData) :
    JobCalendarData :=
  (List.finRange 7).foldl (convertDayScheduleToEvents lib now) j

/-- `sortFlattenEventsFromEarlier2Later`. -/
def sortFlattenEvents (j : JobCalendarData) : JobCalendarData :=
  { j with
    start := j.start.insertionSort (· ≤ ·)
    stop := j.stop.insertionSort (· ≤ ·) }

/-- `removeRedundantStopEvent`. -/
def removeRedundantStopEvent (j : JobCalendarData) : JobCalendarData :=
  let redundant := redundantIdx (j.start.length + j.stop.length) j.start j.stop
  { j with stop := ((j.stop.zip redundant).filter fun x => !x.2).map Prod.fst }

/-- What `Refresh` makes of a new configuration. -/
def load (lib : Library) (now : ℤ) (calendar : ConfigCalendar) : JobCalendarData :=
  let j : JobCalendarData := ⟨[], [], fun _ => [], calendar⟩
  ((j.convertWeekScheduleToEvents lib now).sortFlattenEvents).removeRedundantStopEvent

/-- `Refresh`. -/
def refresh (lib : Library) (j : JobCalendarData) (now : ℤ) (calendar : ConfigCalendar) :
    JobCalendarData :=
  if j.rawData = calendar then j else load lib now calendar

/-- The two functions that move the past events of a list to the next week. -/
def rescheduleEventsPrior (times : List ℤ) (event : ℤ) : List ℤ :=
  match times with
  | [] => times
  | first :: _ =>
    if first > event then times
    else times.dropWhile (· ≤ event) ++ (times.takeWhile (· ≤ event)).map (· + oneWeekDuration)

/-- `RescheduleStartEventsPrior`. -/
def rescheduleStartEventsPrior (j : JobCalendarData) (event : ℤ) : JobCalendarData :=
  { j with start := rescheduleEventsPrior j.start event }

/-- `RescheduleStopEventsPrior`. -/
def rescheduleStopEventsPrior (j : JobCalendarData) (event : ℤ) : JobCalendarData :=
  { j with stop := rescheduleEventsPrior j.stop event }

end JobCalendarData

/-! ## Times of a week -/

section Times

variable {now t : ℤ} {day : Weekday} {c : TimeData}

theorem oneWeekDuration_eq : oneWeekDuration = dayLength * 7 := rfl

theorem dayLength_pos : 0 < dayLength := by decide

theorem oneWeekDuration_pos : 0 < oneWeekDuration := by decide

/-- The midnight at which the week of a time began. -/
def weekStart (now : ℤ) : ℤ := now / oneWeekDuration * oneWeekDuration

theorem lt_weekStart_add (now : ℤ) : now < weekStart now + oneWeekDuration := by
  have hlt := Int.lt_ediv_add_one_mul_self now oneWeekDuration_pos
  rwa [Int.add_mul, Int.one_mul] at hlt

theorem coe_weekday (now : ℤ) : ((weekday now : ℕ) : ℤ) = now / dayLength % 7 := by
  have hnonneg : 0 ≤ now / dayLength % 7 := Int.emod_nonneg _ (by decide)
  have hlt : now / dayLength % 7 < 7 := Int.emod_lt_of_pos _ (by decide)
  rw [weekday, Fin.val_ofNat]
  omega

theorem timeByWeekdayAndOffset_eq (now : ℤ) (day : Weekday) (c : TimeData) :
    timeByWeekdayAndOffset now day c = weekStart now + ((day : ℕ) * dayLength + c.offset) := by
  have hweek : now / oneWeekDuration = now / dayLength / 7 := by
    rw [oneWeekDuration_eq, Int.ediv_ediv_of_nonneg dayLength_pos.le]
  have hday := Int.emod_add_mul_ediv (now / dayLength) 7
  have hstart : (now / dayLength - now / dayLength % 7) * dayLength = weekStart now := by
    rw [weekStart, hweek, oneWeekDuration_eq, show now / dayLength - now / dayLength % 7 =
      7 * (now / dayLength / 7) by omega]
    ring
  rw [timeByWeekdayAndOffset, coe_weekday, ← hstart]
  ring

/-- The minutes since midnight. -/
def TimeData.minutes (c : TimeData) : ℕ := 60 * c.hour + c.minute

theorem TimeData.offset_eq (c : TimeData) : c.offset = c.minutes * Recorder.minute := by
  rw [TimeData.offset, TimeData.minutes, Recorder.hour]
  push_cast
  ring

theorem TimeData.offset_lt_iff {a b : TimeData} : a.offset < b.offset ↔ a.minutes < b.minutes := by
  rw [offset_eq, offset_eq, Int.mul_lt_mul_right (by decide)]
  exact Int.ofNat_lt

theorem TimeData.offset_bounds (c : TimeData) : 0 ≤ c.offset ∧ c.offset ≤ dayLength := by
  have hle : (c.minutes : ℤ) ≤ 24 * 60 := Int.ofNat_le.mpr c.inRange.2
  have hday : dayLength = 24 * 60 * Recorder.minute := rfl
  rw [offset_eq, hday]
  exact ⟨Int.mul_nonneg (Int.natCast_nonneg _) (by decide),
    Int.mul_le_mul_of_nonneg_right hle (by decide)⟩

/-- The times of the week are in it, its end included. -/
theorem timeByWeekdayAndOffset_bounds (now : ℤ) (day : Weekday) (c : TimeData) :
    weekStart now ≤ timeByWeekdayAndOffset now day c ∧
      timeByWeekdayAndOffset now day c ≤ weekStart now + oneWeekDuration := by
  obtain ⟨hlow, hhigh⟩ := c.offset_bounds
  have hday : ((day : ℕ) : ℤ) ≤ 6 := by
    have := day.isLt
    omega
  have hnonneg : 0 ≤ ((day : ℕ) : ℤ) * dayLength :=
    Int.mul_nonneg (Int.natCast_nonneg _) dayLength_pos.le
  have hle : ((day : ℕ) : ℤ) * dayLength ≤ 6 * dayLength :=
    Int.mul_le_mul_of_nonneg_right hday dayLength_pos.le
  have hweek := oneWeekDuration_eq
  rw [timeByWeekdayAndOffset_eq]
  omega

end Times

/-! ## The order of two clocks -/

/-- **Clocks that are put in order**: they differ, and the first one is not later by the hour and
earlier by the minute. -/
def Orderable (c : TimeData × TimeData) : Prop :=
  c.1.minutes ≠ c.2.minutes ∧ ¬ (c.2.hour < c.1.hour ∧ c.1.minute < c.2.minute)

instance (c : TimeData × TimeData) : Decidable (Orderable c) :=
  inferInstanceAs (Decidable (_ ∧ _))

theorem order_eq_or (c : TimeData × TimeData) : order c = c ∨ order c = (c.2, c.1) := by
  rw [order]
  split_ifs with h
  · exact Or.inl rfl
  · exact Or.inr rfl

theorem isTimeDataFirstEarlierThanSecond_iff {first second : TimeData} :
    isTimeDataFirstEarlierThanSecond first second = true ↔
      first.hour < second.hour ∨ first.minute < second.minute := by
  rw [isTimeDataFirstEarlierThanSecond]
  split_ifs <;> simp [*]

theorem order_lt_iff (c : TimeData × TimeData) :
    (order c).1.offset < (order c).2.offset ↔ Orderable c := by
  have h₁ := c.1.inRange
  have h₂ := c.2.inRange
  rw [TimeData.offset_lt_iff, Orderable, order]
  by_cases hfirst : isTimeDataFirstEarlierThanSecond c.1 c.2
  · rw [if_pos hfirst]
    rw [isTimeDataFirstEarlierThanSecond_iff] at hfirst
    simp only [TimeData.minutes]
    omega
  · rw [if_neg hfirst]
    rw [isTimeDataFirstEarlierThanSecond_iff] at hfirst
    simp only [TimeData.minutes]
    omega

/-! ## The events of a day -/

section Day

variable {lib : Library} {now : ℤ} {day : Weekday} {period text : Bytes}

/-- The clocks of a period as they are written, if it is valid and parses. -/
def writtenPeriod (lib : Library) (period : Bytes) : Option (TimeData × TimeData) :=
  if isValidPeriod lib period then (parseClocks lib period).toOption else none

/-- The periods of a day. -/
def periods (lib : Library) (text : Bytes) : List (TimeData × TimeData) :=
  if trim text = [] then [] else
    (text.splitOn timePeriodSeparator).filterMap (writtenPeriod lib)

/-- The event of a period. -/
def eventOf (now : ℤ) (day : Weekday) (c : TimeData × TimeData) : SingleEvent :=
  ⟨timeByWeekdayAndOffset now day (order c).1, some (timeByWeekdayAndOffset now day (order c).2)⟩

/-- The event of a day without periods. -/
def allDay (now : ℤ) (day : Weekday) : SingleEvent :=
  ⟨timeByWeekdayAndOffset now day .zero, none⟩

/-- The events of a day. -/
def dayEvents (lib : Library) (now : ℤ) (day : Weekday) (text : Bytes) : List SingleEvent :=
  if periods lib text = [] then [allDay now day] else (periods lib text).map (eventOf now day)

theorem periodEvent_eq (lib : Library) (now : ℤ) (day : Weekday) (period : Bytes) :
    periodEvent lib now day period = (writtenPeriod lib period).map (eventOf now day) := by
  rw [periodEvent, writtenPeriod, parseTimePeriod]
  cases isValidPeriod lib period with
  | false => rfl
  | true => cases parseClocks lib period <;> rfl

theorem length_splitOn (a : UInt8) (s : Bytes) : (s.splitOn a).length = s.count a + 1 := by
  induction s with
  | nil => rfl
  | cons b s ih =>
    rw [List.splitOn_cons_eq_if_modifyHead, List.count_cons]
    split_ifs
    · rw [List.length_cons, ih]
    · rw [List.length_modifyHead, ih, Nat.add_zero]

/-- A valid period has two clocks; the spaces that are removed are no separators. -/
theorem parseTimePeriod_ne_indexOutOfRange (h : isValidPeriod lib period = true) :
    parseTimePeriod lib period ≠ .error .indexOutOfRange := by
  have hcount : period.count clockSeparator = 1 := by
    have hlength := length_splitOn clockSeparator period
    rw [isValidPeriod] at h
    split at h
    next hsplit =>
      rw [hsplit] at hlength
      exact (Nat.succ.inj hlength).symm
    · cases h
  have hlength : ((period.filter (· ≠ spaceChar)).splitOn clockSeparator).length = 2 := by
    rw [length_splitOn, List.count_filter (by decide), hcount]
  have hget : ∃ clock, ((period.filter (· ≠ spaceChar)).splitOn clockSeparator)[1]? = some clock :=
    ⟨_, List.getElem?_eq_getElem (by rw [hlength]; decide)⟩
  obtain ⟨clock, hclock⟩ := hget
  rw [parseTimePeriod, parseClocks, if_neg (by rw [hlength]; decide), hclock]
  cases parseClockStr lib (((period.filter (· ≠ spaceChar)).splitOn clockSeparator).headD []) with
  | none => exact nofun
  | some first =>
    dsimp only
    cases parseClockStr lib clock <;> exact nofun

theorem filterMap_periodEvent (htext : trim text ≠ []) :
    (text.splitOn timePeriodSeparator).filterMap (periodEvent lib now day) =
      (periods lib text).map (eventOf now day) := by
  rw [periods, if_neg htext, List.map_filterMap]
  exact List.filterMap_congr fun period _ => periodEvent_eq lib now day period

/-- One day adds its events. -/
theorem convertDayScheduleToEvents_eq (j : JobCalendarData) :
    j.convertDayScheduleToEvents lib now day =
      { j with
        start := j.start ++ (dayEvents lib now day (j.rawData day)).map SingleEvent.start
        stop := j.stop ++ (dayEvents lib now day (j.rawData day)).filterMap SingleEvent.stop
        events := Function.update j.events day (dayEvents lib now day (j.rawData day)) } := by
  have hbegin (hnone : periods lib (j.rawData day) = []) :
      j.scheduleStartEventWhenDayBegin now day =
        { j with
          start := j.start ++ (dayEvents lib now day (j.rawData day)).map SingleEvent.start
          stop := j.stop ++ (dayEvents lib now day (j.rawData day)).filterMap SingleEvent.stop
          events := Function.update j.events day (dayEvents lib now day (j.rawData day)) } := by
    have hstop : [allDay now day].filterMap SingleEvent.stop = [] := rfl
    rw [dayEvents, if_pos hnone, hstop, List.append_nil]
    rfl
  rw [JobCalendarData.convertDayScheduleToEvents]
  by_cases htext : trim (j.rawData day) = []
  · rw [if_pos htext]
    exact hbegin (if_pos htext)
  · rw [if_neg htext, JobCalendarData.scheduleEvents, filterMap_periodEvent htext]
    by_cases hnone : periods lib (j.rawData day) = []
    · rw [if_pos (by rw [hnone]; rfl)]
      exact hbegin hnone
    · rw [if_neg (by rwa [List.length_map, List.length_eq_zero_iff]), dayEvents, if_neg hnone]

/-- The days add their events one after the other. -/
theorem foldl_convertDay (days : List Weekday) (hdays : days.Nodup) (j : JobCalendarData) :
    days.foldl (JobCalendarData.convertDayScheduleToEvents lib now) j =
      { j with
        start := j.start ++ days.flatMap fun d =>
          (dayEvents lib now d (j.rawData d)).map SingleEvent.start
        stop := j.stop ++ days.flatMap fun d =>
          (dayEvents lib now d (j.rawData d)).filterMap SingleEvent.stop
        events := fun d =>
          if d ∈ days then dayEvents lib now d (j.rawData d) else j.events d } := by
  induction days generalizing j with
  | nil => simp
  | cons day days ih =>
    obtain ⟨hday, hdays⟩ := List.nodup_cons.mp hdays
    rw [List.foldl_cons, ih hdays, convertDayScheduleToEvents_eq]
    simp only [List.flatMap_cons, List.append_assoc, JobCalendarData.mk.injEq, true_and, and_true]
    funext d
    by_cases hd : d = day
    · simp [hd, hday]
    · simp [hd]

end Day

/-! ## A new configuration -/

section Load

variable {lib : Library} {now : ℤ} {calendar : ConfigCalendar} {j : JobCalendarData}

/-- All start times of a week, day by day. -/
def starts (lib : Library) (now : ℤ) (calendar : ConfigCalendar) : List ℤ :=
  (List.finRange 7).flatMap fun d => (dayEvents lib now d (calendar d)).map SingleEvent.start

/-- All stop times of a week, day by day. -/
def stops (lib : Library) (now : ℤ) (calendar : ConfigCalendar) : List ℤ :=
  (List.finRange 7).flatMap fun d => (dayEvents lib now d (calendar d)).filterMap SingleEvent.stop

theorem length_redundantIdx (turns : ℕ) (start stop : List ℤ) :
    (redundantIdx turns start stop).length = stop.length := by
  induction turns generalizing start stop with
  | zero => rw [redundantIdx, List.length_map]
  | succ turns ih =>
    cases start with
    | nil => rw [redundantIdx, List.length_map]
    | cons i start =>
      cases stop with
      | nil => rfl
      | cons k stop =>
        rw [redundantIdx]
        split_ifs
        · rw [List.length_cons, ih, List.length_cons]
        · rw [List.length_cons, ih, List.length_cons]
        · exact ih start (k :: stop)

/-- Stops are only taken away. -/
theorem removeRedundantStopEvent_sublist (j : JobCalendarData) :
    j.removeRedundantStopEvent.stop.Sublist j.stop := by
  have hlength := length_redundantIdx (j.start.length + j.stop.length) j.start j.stop
  have hsublist := (List.filter_sublist (p := fun x => !x.2) (l := j.stop.zip
    (redundantIdx (j.start.length + j.stop.length) j.start j.stop))).map Prod.fst
  rwa [List.map_fst_zip hlength.ge] at hsublist

theorem load_rawData : (JobCalendarData.load lib now calendar).rawData = calendar := by
  rw [JobCalendarData.load, JobCalendarData.convertWeekScheduleToEvents,
    foldl_convertDay _ (List.nodup_finRange 7)]
  rfl

theorem load_start : (JobCalendarData.load lib now calendar).start =
    (starts lib now calendar).insertionSort (· ≤ ·) := by
  rw [JobCalendarData.load, JobCalendarData.convertWeekScheduleToEvents,
    foldl_convertDay _ (List.nodup_finRange 7)]
  rfl

theorem load_stop_sublist : (JobCalendarData.load lib now calendar).stop.Sublist
    ((stops lib now calendar).insertionSort (· ≤ ·)) := by
  rw [JobCalendarData.load, JobCalendarData.convertWeekScheduleToEvents,
    foldl_convertDay _ (List.nodup_finRange 7)]
  exact removeRedundantStopEvent_sublist _

theorem load_events (d : Weekday) : (JobCalendarData.load lib now calendar).events d =
    dayEvents lib now d (calendar d) := by
  rw [JobCalendarData.load, JobCalendarData.convertWeekScheduleToEvents,
    foldl_convertDay _ (List.nodup_finRange 7)]
  exact if_pos (List.mem_finRange d)

/-- The times of an event are in the week. -/
theorem mem_dayEvents_bounds {d : Weekday} {text : Bytes} {e : SingleEvent}
    (he : e ∈ dayEvents lib now d text) :
    (weekStart now ≤ e.start ∧ e.start ≤ weekStart now + oneWeekDuration) ∧
      ∀ t, e.stop = some t → weekStart now ≤ t ∧ t ≤ weekStart now + oneWeekDuration := by
  rw [dayEvents] at he
  split_ifs at he
  · rw [List.mem_singleton.mp he]
    exact ⟨timeByWeekdayAndOffset_bounds _ _ _, fun t ht => by cases ht⟩
  · obtain ⟨c, -, rfl⟩ := List.mem_map.mp he
    refine ⟨timeByWeekdayAndOffset_bounds _ _ _, fun t ht => ?_⟩
    cases ht
    exact timeByWeekdayAndOffset_bounds _ _ _

theorem mem_load_start_bounds {t : ℤ} (ht : t ∈ (JobCalendarData.load lib now calendar).start) :
    weekStart now ≤ t ∧ t ≤ weekStart now + oneWeekDuration := by
  rw [load_start, List.mem_insertionSort, starts, List.mem_flatMap] at ht
  obtain ⟨d, -, ht⟩ := ht
  obtain ⟨e, he, rfl⟩ := List.mem_map.mp ht
  exact (mem_dayEvents_bounds he).1

theorem mem_load_stop_bounds {t : ℤ} (ht : t ∈ (JobCalendarData.load lib now calendar).stop) :
    weekStart now ≤ t ∧ t ≤ weekStart now + oneWeekDuration := by
  have ht := load_stop_sublist.subset ht
  rw [List.mem_insertionSort, stops, List.mem_flatMap] at ht
  obtain ⟨d, -, ht⟩ := ht
  obtain ⟨e, he, hstop⟩ := List.mem_filterMap.mp ht
  exact (mem_dayEvents_bounds he).2 t hstop

theorem load_start_rota : Rota oneWeekDuration (JobCalendarData.load lib now calendar).start := by
  refine Rota.of_mem_Icc ?_ fun t => mem_load_start_bounds
  rw [load_start]
  exact List.pairwise_insertionSort _ _

theorem load_stop_rota : Rota oneWeekDuration (JobCalendarData.load lib now calendar).stop :=
  Rota.of_mem_Icc ((List.pairwise_insertionSort _ _).sublist load_stop_sublist)
    fun _ => mem_load_stop_bounds

end Load

/-! ## Runs -/

/-- The calls that change a calendar. -/
inductive CalendarOp
  | refresh (now : ℤ) (calendar : ConfigCalendar)
  | rescheduleStart (event : ℤ)
  | rescheduleStop (event : ℤ)

/-- One of them. -/
def CalendarOp.run (lib : Library) (j : JobCalendarData) : CalendarOp → JobCalendarData
  | .refresh now calendar => j.refresh lib now calendar
  | .rescheduleStart event => j.rescheduleStartEventsPrior event
  | .rescheduleStop event => j.rescheduleStopEventsPrior event

/-- The runs of a calendar. -/
def CalendarRun (lib : Library) : List (JobCalendarData × CalendarOp) → JobCalendarData → Prop :=
  Run (fun j op j' => j' = op.run lib j) JobCalendarData.new

section Runs

variable {lib : Library} {now : ℤ} {j : JobCalendarData} {event : ℤ} {times : List ℤ}
  {trace : List (JobCalendarData × CalendarOp)}

theorem rescheduleEventsPrior_eq (times : List ℤ) (event : ℤ) :
    JobCalendarData.rescheduleEventsPrior times event = advance oneWeekDuration event times := by
  cases times with
  | nil => rfl
  | cons first times =>
    rw [JobCalendarData.rescheduleEventsPrior, advance]
    split_ifs with hfirst
    · rw [List.dropWhile_cons_of_neg (by simpa using hfirst),
        List.takeWhile_cons_of_neg (by simpa using hfirst), List.map_nil, List.append_nil]
    · rfl

/-- Rescheduling keeps the times modulo a week. -/
theorem perm_rescheduleEventsPrior :
    ((JobCalendarData.rescheduleEventsPrior times event).map (· % oneWeekDuration)).Perm
      (times.map (· % oneWeekDuration)) := by
  rw [rescheduleEventsPrior_eq]
  exact perm_map_advance fun t => Int.add_emod_right t oneWeekDuration

theorem Rota.rescheduleEventsPrior (h : Rota oneWeekDuration times) :
    Rota oneWeekDuration (JobCalendarData.rescheduleEventsPrior times event) := by
  rw [rescheduleEventsPrior_eq]
  exact h.advance oneWeekDuration_pos.le

/-- **The calendar of a configuration** that was read at a time: the events are those of its
periods, and the lists are in order and, week by week, those it was read with. -/
structure Scheduled (lib : Library) (now : ℤ) (j : JobCalendarData) : Prop where
  events : ∀ d, j.events d = dayEvents lib now d (j.rawData d)
  start : Rota oneWeekDuration j.start
  stop : Rota oneWeekDuration j.stop
  startPerm : (j.start.map (· % oneWeekDuration)).Perm
    ((JobCalendarData.load lib now j.rawData).start.map (· % oneWeekDuration))
  stopPerm : (j.stop.map (· % oneWeekDuration)).Perm
    ((JobCalendarData.load lib now j.rawData).stop.map (· % oneWeekDuration))

theorem scheduled_load (calendar : ConfigCalendar) :
    Scheduled lib now (JobCalendarData.load lib now calendar) where
  events d := by rw [load_rawData, load_events]
  start := load_start_rota
  stop := load_stop_rota
  startPerm := by rw [load_rawData]
  stopPerm := by rw [load_rawData]

theorem Scheduled.rescheduleStart (h : Scheduled lib now j) (event : ℤ) :
    Scheduled lib now (j.rescheduleStartEventsPrior event) :=
  ⟨h.events, Rota.rescheduleEventsPrior h.start, h.stop,
    perm_rescheduleEventsPrior.trans h.startPerm, h.stopPerm⟩

theorem Scheduled.rescheduleStop (h : Scheduled lib now j) (event : ℤ) :
    Scheduled lib now (j.rescheduleStopEventsPrior event) :=
  ⟨h.events, h.start, Rota.rescheduleEventsPrior h.stop, h.startPerm,
    perm_rescheduleEventsPrior.trans h.stopPerm⟩

/-- A calendar of a run is empty, or it was read by a call of the run. -/
theorem CalendarRun.scheduled (hrun : CalendarRun lib trace j) :
    (j.start = [] ∧ j.stop = [] ∧ ∀ d, j.events d = []) ∨
      ∃ now, Scheduled lib now j ∧ ∃ j', (j', .refresh now j.rawData) ∈ trace := by
  refine Run.history_invariant (P := fun trace j =>
    (j.start = [] ∧ j.stop = [] ∧ ∀ d, j.events d = []) ∨
      ∃ now, Scheduled lib now j ∧ ∃ j', (j', .refresh now j.rawData) ∈ trace) hrun
    (guarded_true trace) (Or.inl ⟨rfl, rfl, fun _ => rfl⟩) ?_
  intro trace j op j' _ _ h _ hstep
  rw [hstep]
  cases op with
  | refresh now calendar =>
    rw [CalendarOp.run, JobCalendarData.refresh]
    by_cases hsame : j.rawData = calendar
    · rw [if_pos hsame]
      exact h.imp_right fun ⟨now, hj, j', hmem⟩ => ⟨now, hj, j', List.mem_append_left _ hmem⟩
    · rw [if_neg hsame]
      refine Or.inr ⟨now, scheduled_load calendar, j, ?_⟩
      rw [load_rawData]
      exact List.mem_append_right _ (List.mem_singleton_self _)
  | rescheduleStart event =>
    refine h.imp (fun ⟨hstart, hstop, hevents⟩ => ⟨?_, hstop, hevents⟩)
      fun ⟨now, hj, j', hmem⟩ => ⟨now, hj.rescheduleStart event, j', List.mem_append_left _ hmem⟩
    show JobCalendarData.rescheduleEventsPrior j.start event = []
    rw [hstart]
    rfl
  | rescheduleStop event =>
    refine h.imp (fun ⟨hstart, hstop, hevents⟩ => ⟨hstart, ?_, hevents⟩)
      fun ⟨now, hj, j', hmem⟩ => ⟨now, hj.rescheduleStop event, j', List.mem_append_left _ hmem⟩
    show JobCalendarData.rescheduleEventsPrior j.stop event = []
    rw [hstop]
    rfl

/-! ## Well-formed calendars -/

/-- The event has the two times that are written. -/
def Shows (now : ℤ) (day : Weekday) (e : SingleEvent) (c : TimeData × TimeData) : Prop :=
  (e.start = timeByWeekdayAndOffset now day c.1 ∧
    e.stop = some (timeByWeekdayAndOffset now day c.2)) ∨
  (e.start = timeByWeekdayAndOffset now day c.2 ∧
    e.stop = some (timeByWeekdayAndOffset now day c.1))

theorem shows_eventOf (now : ℤ) (day : Weekday) (c : TimeData × TimeData) :
    Shows now day (eventOf now day c) c := by
  rcases order_eq_or c with h | h
  · exact Or.inl (by rw [eventOf, h]; exact ⟨rfl, rfl⟩)
  · exact Or.inr (by rw [eventOf, h]; exact ⟨rfl, rfl⟩)

/-- An event starts before it stops. -/
def Forward (e : SingleEvent) : Prop := ∀ t, e.stop = some t → e.start < t

theorem forward_eventOf {now : ℤ} {day : Weekday} {c : TimeData × TimeData} :
    Forward (eventOf now day c) ↔ Orderable c := by
  have hlt : timeByWeekdayAndOffset now day (order c).1 <
      timeByWeekdayAndOffset now day (order c).2 ↔ Orderable c := by
    rw [timeByWeekdayAndOffset_eq, timeByWeekdayAndOffset_eq, ← order_lt_iff]
    omega
  rw [← hlt]
  constructor
  · intro h
    exact h _ rfl
  · intro h t ht
    cases ht
    exact h

/-- The events of a day are as written, and forward if all the periods are in an order. -/
theorem dayEvents_spec (lib : Library) (now : ℤ) (day : Weekday) (text : Bytes) :
    ((periods lib text = [] ∧ dayEvents lib now day text = [allDay now day]) ∨
      List.Forall₂ (Shows now day) (dayEvents lib now day text) (periods lib text)) ∧
    ((∀ e ∈ dayEvents lib now day text, Forward e) ↔ ∀ c ∈ periods lib text, Orderable c) := by
  rw [dayEvents]
  by_cases hnone : periods lib text = []
  · rw [if_pos hnone, hnone]
    refine ⟨Or.inl ⟨rfl, rfl⟩, fun _ c hc => ?_, fun _ e he t ht => ?_⟩
    · cases hc
    · rw [List.mem_singleton.mp he] at ht
      cases ht
  · rw [if_neg hnone]
    refine ⟨Or.inr ?_, ?_⟩
    · exact List.forall₂_map_left_iff.mpr (List.forall₂_same.mpr fun c _ => shows_eventOf now day c)
    · rw [List.forall_mem_map]
      exact forall₂_congr fun c _ => forward_eventOf

end Runs

/-! ## A period that is turned round -/

namespace Sample

/-- A library that knows some clocks. -/
def lib : Library where
  parse clock :=
    if clock = [0x31, 0x30, 0x3a, 0x30, 0x30] then some (10, 0)
    else if clock = [0x39, 0x3a, 0x33, 0x30] then some (9, 30)
    else if clock = [0x38, 0x3a, 0x30, 0x30] then some (8, 0)
    else none
  containsLetter _ := false

/-- Monday is `10:00-9:30`. -/
def halfPastNine : ConfigCalendar := fun d =>
  if d = 1 then [0x31, 0x30, 0x3a, 0x30, 0x30, 0x2d, 0x39, 0x3a, 0x33, 0x30] else []

def halfPastNineTrace : List (JobCalendarData × CalendarOp) :=
  [(.new, .refresh 0 halfPastNine)]

theorem calendarRun_halfPastNine :
    CalendarRun lib halfPastNineTrace (JobCalendarData.new.refresh lib 0 halfPastNine) :=
  Run.single rfl

end Sample

end Bitmarkd.Recorder
