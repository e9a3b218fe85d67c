import Mathlib.Algebra.BigOperators.Pi
import Workhorse.Lib.GroupBy
import Workhorse.Schema.Types

/-!
# Rolling statistics

`rollup_stats_v1`, `stat_window_tier_v1` and `stat_buckets_v1`. A pass materialises closed minutes from
raw history, rebuilds the hours and days that they belong to, advances the watermarks and deletes aged
rows. A read stitches day, hour and minute rows and derives the minutes above the watermark live.

The raw history stands for the rows that `aggregate_stats_v1` computes from it, one for each minute, queue
and task type. No minute has more of them than the group limit, so none is folded into another.
-/

namespace Workhorse

/-- What a bucket adds up. The wait sketch is a count for each of its bins. -/
inductive StatMeasure where
  | enqueued
  | taskSucceeded
  | taskFailed
  | taskCanceled
  | attemptSucceeded
  | attemptFailed
  | attemptRetry
  | attemptLeaseExpired
  | attemptCanceled
  | attemptOther
  | attemptDurationMs
  | waitBin (bin : Int)
deriving DecidableEq

abbrev StatRow := StatMeasure → Nat

structure BucketKey where
  bucketStart : Time
  queueName : String
  taskType : String
deriving DecidableEq

abbrev Buckets := Table BucketKey StatRow

/-- `interval '1 minute'`. -/
def oneMinute : Time := 60 * 1000000

def oneHour : Time := 60 * oneMinute

def oneDay : Time := 24 * oneHour

/-- `date_bin` with the origin 2000-01-01 UTC, which is a multiple of every unit in use. -/
def dateBin (unit t : Time) : Time := t / unit * unit

namespace BucketKey

def bin (unit : Time) (k : BucketKey) : BucketKey := { k with bucketStart := dateBin unit k.bucketStart }

/-- The bucket starts in `[lo, hi)`. -/
def within (lo hi : Time) (k : BucketKey) : Bool := lo ≤ k.bucketStart && k.bucketStart < hi

end BucketKey

/-! ## The pass -/

structure StatPolicy where
  rollupIntervalMs : Nat
  recomputeBuckets : Nat
  retentionDays : Option Nat
  rowsPerPass : Nat

/-- The bucket tables and `task_stat_state`. -/
structure StatState where
  minute : Buckets
  hour : Buckets
  day : Buckets
  rolledUpThrough : Time
  hourlyRolledUpThrough : Time
  dailyRolledUpThrough : Time
  lastRunAt : Option Time

def StatState.installed (now : Time) : StatState where
  minute := .empty
  hour := .empty
  day := .empty
  rolledUpThrough := dateBin oneMinute now
  hourlyRolledUpThrough := dateBin oneHour now
  dailyRolledUpThrough := dateBin oneDay now
  lastRunAt := none

/-- `aggregate_stats_v1` over `[lo, hi)`. -/
def aggregateStats (raw : Buckets) (lo hi : Time) : Buckets := raw.filter fun k _ => k.within lo hi

/-- Delete the rows of `[lo, hi)` and insert others. -/
def rewrite (t : Buckets) (lo hi : Time) (new : Buckets) : Buckets := (t.filter fun k _ => !k.within lo hi).overlay new

/-- The rows of `[lo, hi)` added up by a longer unit. -/
def regroup (unit : Time) (source : Buckets) (lo hi : Time) : Buckets :=
  Table.groupSum (·.bin unit) (source.filter fun k _ => k.within lo hi).rows

/-- One call of `rollup_stats_v1` that has the lock, with the policies that it reads. -/
structure RollupPass where
  force : Bool
  now : Time
  maxBuckets : Nat
  policy : StatPolicy
  /-- The rows that retention can lock, numbered as it finds those of one time. -/
  finds : BucketKey → Option Nat

namespace RollupPass

variable (pass : RollupPass) (s : StatState)

def skips : Bool := !pass.force && (pass.policy.rollupIntervalMs == 0 ||
    s.lastRunAt.any (pass.now - milliseconds pass.policy.rollupIntervalMs < ·))

def closed : Time := dateBin oneMinute pass.now

def start : Time := min (s.rolledUpThrough - pass.policy.recomputeBuckets * oneMinute) pass.closed

def stop : Time := min pass.closed (pass.start s + pass.maxBuckets * oneMinute)

def hourFrom : Time := min s.hourlyRolledUpThrough (dateBin oneHour (pass.start s))

def hourTo : Time :=
  if pass.hourFrom s < dateBin oneHour (pass.stop s) then dateBin oneHour (pass.stop s)
  else s.hourlyRolledUpThrough

def dayFrom : Time := min s.dailyRolledUpThrough (dateBin oneDay (pass.hourFrom s))

def dayTo : Time :=
  if pass.dayFrom s < dateBin oneDay (pass.hourTo s) then dateBin oneDay (pass.hourTo s)
  else s.dailyRolledUpThrough

def minutes (raw : Buckets) : Buckets :=
  rewrite s.minute (pass.start s) (pass.stop s) (aggregateStats raw (pass.start s) (pass.stop s))

def hours (raw : Buckets) : Buckets :=
  if pass.hourFrom s < dateBin oneHour (pass.stop s) then
    rewrite s.hour (pass.hourFrom s) (pass.hourTo s)
      (regroup oneHour (pass.minutes s raw) (pass.hourFrom s) (pass.hourTo s))
  else s.hour

def days (raw : Buckets) : Buckets :=
  if pass.dayFrom s < dateBin oneDay (pass.hourTo s) then
    rewrite s.day (pass.dayFrom s) (pass.dayTo s)
      (regroup oneDay (pass.hours s raw) (pass.dayFrom s) (pass.dayTo s))
  else s.day

/-- The phase `stat_rollup`. -/
def rollUp (raw : Buckets) : StatState :=
  if pass.start s < pass.stop s then
    { minute := pass.minutes s raw
      hour := pass.hours s raw
      day := pass.days s raw
      rolledUpThrough := pass.stop s
      hourlyRolledUpThrough := max s.hourlyRolledUpThrough (pass.hourTo s)
      dailyRolledUpThrough := max s.dailyRolledUpThrough (pass.dayTo s)
      lastRunAt := some pass.now }
  else { s with lastRunAt := some pass.now }

def expire (t : Buckets) (before : Time) (limit : Nat) : Buckets :=
  let expired := ((t.rows.map Prod.fst).filter fun k => k.bucketStart < before && (pass.finds k).isSome).insertionSort
    fun a b => a.bucketStart < b.bucketStart ∨ a.bucketStart = b.bucketStart ∧
      (pass.finds a).getD 0 ≤ (pass.finds b).getD 0
  t.filter fun k _ => !(expired.take limit).contains k

/-- The phase `stat_retention`. A day of an interval is one of the session's time zone, here UTC. -/
def retain : StatState :=
  let before (days : Nat) : Time := pass.now - days * oneDay
  { s with
    minute := pass.expire s.minute (before (min (pass.policy.retentionDays.getD 2) 2)) pass.policy.rowsPerPass
    hour := pass.expire s.hour (before (min (pass.policy.retentionDays.getD 90) 90)) pass.policy.rowsPerPass
    day := match pass.policy.retentionDays with
      | some days => pass.expire s.day (before days) pass.policy.rowsPerPass
      | none => s.day }

/-- `rollup_stats_v1`. -/
def run (raw : Buckets) : Except String StatState :=
  if pass.maxBuckets < 1 ∨ 100000 < pass.maxBuckets then
    .error "bucket limit must be between 1 and 100000"
  else if pass.skips s then .ok s
  else .ok (pass.retain (pass.rollUp s raw))

end RollupPass

/-! ## The read -/

inductive StatTier where
  | minute
  | hour
  | day
deriving DecidableEq

/-- `stat_window_tier_v1`. -/
def statWindowTier (lo hi : Time) : Except String StatTier :=
  if hi ≤ lo then .error "statistics window must have finite increasing bounds"
  else if 90 * oneDay ≤ hi - lo then
    if lo ≠ dateBin oneDay lo then
      .error "statistics windows of at least 90 days require a day-aligned lower bound"
    else .ok .day
  else if 2 * oneDay ≤ hi - lo then
    if lo ≠ dateBin oneHour lo then
      .error "statistics windows of at least 2 days require an hour-aligned lower bound"
    else .ok .hour
  else if lo ≠ dateBin oneMinute lo then
    .error "statistics windows require a minute-aligned lower bound"
  else .ok .minute

def boundaryFrom (unit t : Time) : Time := if t = dateBin unit t then t else dateBin unit t + unit

/-- `stat_buckets_v1`. -/
def statBuckets (raw : Buckets) (s : StatState) (lo hi : Time) : Except String (List (BucketKey × StatRow)) := do
  let tier ← statWindowTier lo hi
  let useHour := tier == .hour || tier == .day
  let useDay := tier == .day
  let hourStart := boundaryFrom oneHour lo
  let hourEnd := dateBin oneHour hi
  let dayStart := boundaryFrom oneDay lo
  let dayEnd := dateBin oneDay hi
  let minutes := s.minute.rows.filter fun e => e.1.within lo (min hi s.rolledUpThrough) &&
    (!useHour || e.1.bucketStart < hourStart || hourEnd ≤ e.1.bucketStart)
  let hours := s.hour.rows.filter fun e => useHour && e.1.within hourStart hourEnd &&
    (!useDay || e.1.bucketStart < dayStart || dayEnd ≤ e.1.bucketStart)
  let days := s.day.rows.filter fun e => useDay && e.1.within dayStart dayEnd
  let live := if s.rolledUpThrough < hi then (aggregateStats raw (max lo s.rolledUpThrough) hi).rows else []
  return minutes ++ hours ++ days ++ live

end Workhorse
