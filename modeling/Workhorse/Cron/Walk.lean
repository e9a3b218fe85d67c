import Workhorse.Schedule.Fire
import Workhorse.Stats.Rollup

/-!
# The cron walk

`cron_occurrences_v1` and `resolve_cron_wall_clock_v1`. Wall-clock times are in microseconds from the local
midnight of day 0, as instants are in UTC. The walk goes over the dates of a window and, on each date that
matches, over the hours, minutes and seconds of the expression.
-/

namespace Workhorse

structure Zone where
  offsetAt : Time → Time
  /-- `AT TIME ZONE` on a wall-clock time. -/
  atTimeZone : Time → Time
  /-- During a fold it is the later instant. -/
  later : ∀ wall t, t + offsetAt t = wall → atTimeZone wall + offsetAt (atTimeZone wall) = wall ∧ t ≤ atTimeZone wall
  /-- In a gap it takes the offset from before the gap. -/
  gap : ∀ wall, (∀ t, t + offsetAt t ≠ wall) → ∃ b, b + offsetAt (b - 1) ≤ wall ∧ wall < b + offsetAt b ∧
    atTimeZone wall = wall - offsetAt (b - 1)

namespace Zone

/-- `AT TIME ZONE` on an instant. -/
def wallAt (z : Zone) (t : Time) : Time := t + z.offsetAt t

def dateAt (z : Zone) (t : Time) : Int := z.wallAt t / oneDay

/-- `resolve_cron_wall_clock_v1`. -/
def resolve (z : Zone) (wall : Time) : Time :=
  let default := z.atTimeZone wall
  let earliest := [-48, -24, 0, 24, 48].foldl (fun earliest hours =>
    let candidate := wall - z.offsetAt (default + hours * oneHour)
    if z.wallAt candidate = wall ∧ (earliest.all fun e => candidate < e) then some candidate else earliest) none
  earliest.getD default

end Zone

/-- The fields of an accepted expression. The values of a field are distinct and in order. -/
structure CronFields where
  seconds : List Nat
  minutes : List Nat
  hours : List Nat
  matchesDate : Int → Bool
  seconds_ordered : seconds.Pairwise (· < ·)
  minutes_ordered : minutes.Pairwise (· < ·)
  hours_ordered : hours.Pairwise (· < ·)
  seconds_le : ∀ s ∈ seconds, s ≤ 59
  minutes_le : ∀ m ∈ minutes, m ≤ 59
  hours_le : ∀ h ∈ hours, h ≤ 23

def oneSecond : Time := 1000000

def wallOf (date : Int) (second : Nat) : Time := date * oneDay + second * oneSecond

/-- A call with a position. `horizonDate` is the date 128 years before a date. -/
structure CronCall where
  zone : Zone
  fields : CronFields
  horizonDate : Int → Int
  last : Time
  now : Time
  limit : Nat

namespace CronCall

variable (c : CronCall)

def nowSecond : Time := truncSecond c.now

def endDate : Int := c.zone.dateAt c.now

def startDate : Int := max (c.zone.dateAt c.last) (c.horizonDate c.endDate)

def dates : List Int := (List.range (c.endDate - c.startDate + 1).toNat).map fun (i : Nat) => c.startDate + i

/-- `v_upper_wall`. -/
def upperWall : Time :=
  c.nowSecond + ((List.range 9).map fun (i : Nat) => c.zone.offsetAt (c.nowSecond - i * (8 * oneHour))).foldl max
    (c.zone.offsetAt c.nowSecond)

/-- `v_lower_wall`. -/
def lowerWall : Option Time :=
  if c.horizonDate c.endDate ≤ c.zone.dateAt c.last ∧ c.zone.dateAt c.last ≤ c.endDate then
    let probe (i : Nat) : Time := c.last + min ((i - 4) * (8 * oneHour)) (c.nowSecond - c.last)
    some (c.last + ((List.range 9).map fun i => c.zone.offsetAt (probe i)).foldl min (c.zone.offsetAt (probe 0)))
  else none

def inWindow (t : Time) : Bool := c.last < t && t ≤ c.nowSecond

end CronCall

structure CronWalk where
  candidates : List Time
  candidateCount : Nat
  normalizedCount : Nat
  exited : Bool

namespace CronCall

variable (c : CronCall)

def visit (wall : Time) (w : CronWalk) : CronWalk :=
  let occurrence := c.zone.resolve wall
  if c.inWindow occurrence then
    let candidateCount := w.candidateCount + 1
    let normalizedCount := if c.zone.wallAt occurrence ≠ wall then w.normalizedCount + 1 else w.normalizedCount
    ⟨w.candidates ++ [occurrence], candidateCount, normalizedCount, c.limit + normalizedCount ≤ candidateCount⟩
  else w

/-- The checks before a block of wall-clock times: `CONTINUE` when its last one is below the lower bound, and
`EXIT walk` when its first one is above the upper bound. -/
def guarded (first final : Time) (inner : CronWalk → CronWalk) (w : CronWalk) : CronWalk :=
  if w.exited then w
  else if c.lowerWall.any fun lower => final < lower then w
  else if c.upperWall < first then { w with exited := true }
  else inner w

def walkSeconds (date : Int) (minuteSecond : Nat) (w : CronWalk) : CronWalk := c.fields.seconds.foldl (fun w second =>
    c.guarded (wallOf date (minuteSecond + second)) (wallOf date (minuteSecond + second))
      (c.visit (wallOf date (minuteSecond + second))) w) w

def walkMinutes (date : Int) (hourSecond : Nat) (w : CronWalk) : CronWalk := c.fields.minutes.foldl (fun w minute =>
    c.guarded (wallOf date (hourSecond + minute * 60)) (wallOf date (hourSecond + minute * 60 + 59))
      (c.walkSeconds date (hourSecond + minute * 60)) w) w

def walkHours (date : Int) (w : CronWalk) : CronWalk := c.fields.hours.foldl (fun w hour =>
    c.guarded (wallOf date (hour * 3600)) (wallOf date (hour * 3600 + 3599)) (c.walkMinutes date (hour * 3600)) w) w

def walkDate (w : CronWalk) (date : Int) : CronWalk :=
  if w.exited then w
  else if c.upperWall < wallOf date 0 then { w with exited := true }
  else if !c.fields.matchesDate date then w
  else c.walkHours date w

/-- `cron_occurrences_v1` with a position. -/
def occurrences : List Time := (c.dates.foldl c.walkDate ⟨[], 0, 0, false⟩).candidates.eraseDups.take c.limit

/-! ## A call without a position

The position of the call is not read here. -/

def latestSecond (date : Int) (minuteSecond : Nat) : Option Time := c.fields.seconds.reverse.findSome? fun second =>
    if c.upperWall < wallOf date (minuteSecond + second) then none
    else
      let occurrence := c.zone.resolve (wallOf date (minuteSecond + second))
      if occurrence ≤ c.nowSecond then some occurrence else none

def latestMinute (date : Int) (hourSecond : Nat) : Option Time := c.fields.minutes.reverse.findSome? fun minute =>
    if c.upperWall < wallOf date (hourSecond + minute * 60) then none
    else c.latestSecond date (hourSecond + minute * 60)

def latestHour (date : Int) : Option Time := c.fields.hours.reverse.findSome? fun hour =>
    if c.upperWall < wallOf date (hour * 3600) then none else c.latestMinute date (hour * 3600)

def latestDate : Nat → Int → Option Time
  | 0, _ => none
  | days + 1, date =>
    (if c.fields.matchesDate date then c.latestHour date else none).or (latestDate days (date - 1))

/-- `cron_occurrences_v1` without a position. It raises when there is none up to the horizon. -/
def latest : Option Time := c.latestDate (c.endDate - c.horizonDate c.endDate + 1).toNat c.endDate

/-! ## The walk without bounds -/

def secondsOf (date : Int) (minuteSecond : Nat) : List Time :=
  c.fields.seconds.map fun second => wallOf date (minuteSecond + second)

def minutesOf (date : Int) (hourSecond : Nat) : List Time :=
  c.fields.minutes.flatMap fun minute => c.secondsOf date (hourSecond + minute * 60)

def hoursOf (date : Int) : List Time := c.fields.hours.flatMap fun hour => c.minutesOf date (hour * 3600)

def wallClocks : List Time := c.dates.flatMap fun date => if c.fields.matchesDate date then c.hoursOf date else []

/-- The instants of all of them, without bounds and early exit: each instant of the window once, cut to the
limit. -/
def allOccurrences : List Time := ((c.wallClocks.map c.zone.resolve).filter c.inWindow).eraseDups.take c.limit

end CronCall

end Workhorse
