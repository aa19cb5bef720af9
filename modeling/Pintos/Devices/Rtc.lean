import Mathlib

/-!
# Pintos.Devices.Rtc

The real-time clock (`devices/rtc.c`): from the CMOS registers to seconds since the epoch.

`unixTime` is what the seconds should be.  `rtc_get_time` adds the days of the current month
to those of the months before it, and it counts leap days from 1970, which is not one of the
leap years; no date of the clock comes out right (`rtcGetTime_ne_unixTime`).
-/

namespace Pintos.Rtc

/-! ## the code -/

/-- The registers of the time, in BCD. -/
structure Cmos where
  sec : UInt8
  min : UInt8
  hour : UInt8
  mday : UInt8
  mon : UInt8
  year : UInt8

def bcdToBin (x : UInt8) : Nat := (x &&& 0x0f).toNat + (x >>> 4).toNat * 10

def daysPerMonth : List Nat := [31, 28, 31, 30, 31, 30, 31, 31, 30, 31, 30, 31]

/-- The loop that reads the registers.  A round is what it finds in them, and the seconds as
they are read once more. -/
def readTime : List (Cmos × UInt8) → Option Cmos
  | [] => none
  | (c, sec) :: rounds =>
    if bcdToBin c.sec = bcdToBin sec then some c else readTime rounds

/-- Years since 1970, from a register that counts them from 1900. -/
def yearOf (year : Nat) : Nat := (if year < 70 then year + 100 else year) - 70

/-- The seconds of the years and months.  The first month is `days_per_month[0]`; `none` when
the loop reads behind the array. -/
def monthTime (year mon : Nat) : Option Int := do
  let time : Int := (year * 365 + ((year : Int) - 1).tdiv 4) * 24 * 60 * 60
  let time ← (List.range mon).foldlM
    (fun (time : Int) i => daysPerMonth[i]?.map fun days : Nat => time + days * 24 * 60 * 60)
    time
  return if 2 < mon ∧ year % 4 = 0 then time + 24 * 60 * 60 else time

/-- `rtc_get_time`; `time_t` is an unsigned word. -/
def rtcGetTime (rounds : List (Cmos × UInt8)) : Option Nat := do
  let c ← readTime rounds
  let time ← monthTime (yearOf (bcdToBin c.year)) (bcdToBin c.mon)
  let time := time + ((bcdToBin c.mday : Int) - 1) * 24 * 60 * 60 + bcdToBin c.hour * 60 * 60
    + bcdToBin c.min * 60 + bcdToBin c.sec
  return (time % 2 ^ 32).toNat

/-! ## the calendar -/

def isLeap (year : Nat) : Bool := year % 4 = 0 ∧ (year % 100 ≠ 0 ∨ year % 400 = 0)

/-- The days of a month, counted from 0, of a Gregorian year. -/
def daysInMonth (year month : Nat) : Nat :=
  daysPerMonth.getD month 0 + if month = 1 ∧ isLeap year then 1 else 0

def daysInYear (year : Nat) : Nat := if isLeap year then 366 else 365

/-- The days from the epoch to the first of a month, with years counted from 1970. -/
def daysBefore (year month : Nat) : Nat :=
  ((List.range year).map fun y => daysInYear (1970 + y)).sum +
    ((List.range month).map (daysInMonth (1970 + year))).sum

/-- A date and time from 1970 to 2037; the year counts from 1970, the month and the day
from 0. -/
structure Date where
  year : Fin 68
  month : Fin 12
  day : Fin (daysInMonth (1970 + year) month)
  hour : Fin 24
  minute : Fin 60
  second : Fin 60

/-- The seconds since the epoch. -/
def unixTime (d : Date) : Nat :=
  (daysBefore d.year d.month + d.day) * 86400 + d.hour * 3600 + d.minute * 60 + d.second

def toBcd (n : Nat) : UInt8 := UInt8.ofNat (n / 10 * 16 + n % 10)

/-- The registers while the clock shows a date. -/
def cmos (d : Date) : Cmos where
  sec := toBcd d.second
  min := toBcd d.minute
  hour := toBcd d.hour
  mday := toBcd (d.day + 1)
  mon := toBcd (d.month + 1)
  year := toBcd ((1970 + d.year) % 100)

/-! ## what comes out -/

theorem bcdToBin_toBcd {n : Nat} (h : n < 100) : bcdToBin (toBcd n) = n := by
  have hall : ∀ n : Fin 100, bcdToBin (toBcd n) = n := by decide +kernel
  exact hall ⟨n, h⟩

theorem yearOf_cmos (y : Fin 68) : yearOf ((1970 + y) % 100) = y := by
  revert y
  decide +kernel

/-- The first of every month is at least 26 days ahead of the calendar. -/
theorem ahead_of_monthTime (y : Fin 68) (m : Fin 12) :
    ∀ t ∈ monthTime y (m + 1),
      ((daysBefore y m : Int) + 26) * 86400 ≤ t ∧ t < (daysBefore y m + 36) * 86400 := by
  revert y m
  decide +kernel

theorem daysBefore_lt (y : Fin 68) (m : Fin 12) : daysBefore y m < 24838 := by
  revert y m
  decide +kernel

theorem daysInMonth_le (year : Nat) (m : Fin 12) : daysInMonth year m ≤ 31 := by
  unfold daysInMonth
  split
  · next h => rw [h.1]; decide
  · exact (by decide : ∀ m : Fin 12, daysPerMonth.getD m 0 ≤ 31) m

/-- **No time of the clock is Unix time**: with registers that hold a date in BCD and do not
change between the reads, `rtc_get_time` is at least 26 days ahead. -/
theorem rtcGetTime_ne_unixTime (d : Date) (rounds : List (Cmos × UInt8)) :
    rtcGetTime ((cmos d, (cmos d).sec) :: rounds) ≠ some (unixTime d) := by
  have hday := daysInMonth_le (1970 + d.year) d.month
  have hread : readTime ((cmos d, (cmos d).sec) :: rounds) = some (cmos d) := if_pos rfl
  simp only [rtcGetTime, hread, Option.bind_eq_bind, Option.bind_some]
  simp only [cmos, bcdToBin_toBcd (n := d.second) (by omega),
    bcdToBin_toBcd (n := d.minute) (by omega), bcdToBin_toBcd (n := d.hour) (by omega),
    bcdToBin_toBcd (n := d.day + 1) (by omega), bcdToBin_toBcd (n := d.month + 1) (by omega),
    bcdToBin_toBcd (n := (1970 + d.year) % 100) (by omega), yearOf_cmos]
  cases h : monthTime d.year (d.month + 1) with
  | none => nofun
  | some t =>
    obtain ⟨hlow, hhigh⟩ := ahead_of_monthTime d.year d.month t h
    have hbefore := daysBefore_lt d.year d.month
    simp only [Option.bind_some, Option.pure_def, ne_eq, Option.some.injEq, unixTime]
    -- nothing wraps: all of it is below 2 ^ 32
    omega

/-- At the epoch the clock says that 31 days have passed. -/
theorem rtcGetTime_epoch :
    let d : Date := ⟨0, 0, ⟨0, by decide⟩, 0, 0, 0⟩
    unixTime d = 0 ∧ rtcGetTime [(cmos d, (cmos d).sec)] = some (31 * 86400) := by
  decide +kernel

end Pintos.Rtc
