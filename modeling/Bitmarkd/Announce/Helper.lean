import Bitmarkd.Lib.Bytes

/-!
# Times of announcements

Packages `announce/helper` and `announce/parameter`. A time is a number of nanoseconds since 1970. A
timestamp comes from outside as a number of seconds; `time.Unix` adds to it the seconds from year 1
to 1970 in an `int64`, which may wrap.
-/

namespace Bitmarkd.Announce

open Lib

def second : ℤ := 1000000000

def minute : ℤ := 60 * second

/-- `parameter.BroadcastInterval`. -/
def broadcastInterval : ℤ := 11 * minute

/-- `parameter.ExpiryInterval`. -/
def expiryInterval : ℤ := 5 * broadcastInterval

/-- `parameter.RebroadcastInterval`. -/
def rebroadcastInterval : ℤ := 7 * minute

/-- The seconds from the beginning of year 1 to that of 1970. -/
def unixToInternal : ℤ := 62135596800

/-- `time.Unix(int64(timestamp), 0)`. -/
def unixTime (timestamp : UInt64) : ℤ :=
  (Int.bmod (timestamp.toNat + unixToInternal) (2 ^ 64) - unixToInternal) * second

/-- `uint64(t.Unix())`. -/
def unixSeconds (t : ℤ) : UInt64 := UInt64.ofNat (t / second % 2 ^ 64).toNat

/-- `ResetFutureTimestampToNow`. -/
def resetFutureTimestampToNow (now : ℤ) (timestamp : UInt64) : ℤ :=
  let ts := unixTime timestamp
  if now < ts then now else ts

/-- `IsExpiredAfterDuration`. -/
def isExpiredAfterDuration (now timestamp d : ℤ) : Bool := timestamp + d < now

/-- A reading of the clock: after 1970, and in the next hundred thousand million years. -/
structure Clock where
  now : ℤ
  nonneg : 0 ≤ now
  lt : now < 2 ^ 62 * second

theorem resetFutureTimestampToNow_le (now : ℤ) (timestamp : UInt64) :
    resetFutureTimestampToNow now timestamp ≤ now := by
  unfold resetFutureTimestampToNow
  dsimp only
  split <;> omega

/-- Whole seconds survive the way through a timestamp. -/
theorem unixTime_unixSeconds {t : ℤ} (hlow : -(2 ^ 62 * second) ≤ t) (hhigh : t < 2 ^ 62 * second) :
    unixTime (unixSeconds t) = t / second * second := by
  have hge : -2 ^ 62 ≤ t / second := Int.le_ediv_of_mul_le (by decide) (by omega)
  have hlt : t / second < 2 ^ 62 := Int.ediv_lt_of_lt_mul (by decide) hhigh
  have hnonneg : 0 ≤ t / second % 2 ^ 64 := Int.emod_nonneg _ (by decide)
  have hmod : t / second % 2 ^ 64 < 2 ^ 64 := Int.emod_lt_of_pos _ (by decide)
  have hword : ((unixSeconds t).toNat : ℤ) = t / second % 2 ^ 64 := by
    rw [unixSeconds, UInt64.toNat_ofNat', Nat.mod_eq_of_lt (by omega), Int.toNat_of_nonneg hnonneg]
  rw [unixTime, hword, show (2 : ℤ) ^ 64 = ((2 ^ 64 : ℕ) : ℤ) by norm_num,
    Int.emod_add_bmod, Int.bmod_eq_of_le]
  · ring
  · unfold unixToInternal; omega
  · unfold unixToInternal; omega

end Bitmarkd.Announce
