import Workhorse.Stats.Rollup

/-!
# Raw history under statistics

`retain_history_v1` beside `rollup_stats_v1`. A rollup pass computes its minutes from the raw rows that are
there, and a retention pass deletes raw rows below a cutoff. `History` keeps every row that was ever
recorded, with whether it is still there, and for each minute the rows that were recorded when it was last
written.
-/

namespace Workhorse

/-- What a raw row says. Events are in `task_event` and attempts in `attempt_history`. The other facts are in
outcomes and fast-tier rows, which the retention of history does not delete. -/
inductive RawFact
  | enqueued (task : TaskId)
  | claimed (task : TaskId)
  | attempt (outcome : StatMeasure) (durationMs : Nat)
  | other (measure : StatMeasure) (amount : Nat)
deriving DecidableEq

structure RawRow where
  fact : RawFact
  occurredAt : Time
  queueName : String
  taskType : String
  /-- Whether the row is in the partition of its day, or in the default partition. -/
  partitioned : Bool
deriving DecidableEq

def StatRow.single (measure : StatMeasure) (amount : Nat) : StatRow := fun m => if m = measure then amount else 0

section Aggregate

-- `stat_sketch_index_v1` on a wait.
variable (index : Time → Int)

namespace RawRow

def key (r : RawRow) : BucketKey := ⟨dateBin oneMinute r.occurredAt, r.queueName, r.taskType⟩

/-- What a row adds to its bucket. A first claim is joined with the enqueue events of its task. -/
def samples (rows : List RawRow) (r : RawRow) : List StatRow :=
  match r.fact with
  | .enqueued _ => [.single .enqueued 1]
  | .claimed task => (rows.filter fun e => e.fact = .enqueued task && e.occurredAt ≤ r.occurredAt).map
      fun e => .single (.waitBin (index (r.occurredAt - e.occurredAt))) 1
  | .attempt outcome durationMs => [StatRow.single outcome 1 + StatRow.single .attemptDurationMs durationMs]
  | .other measure amount => [.single measure amount]

def entries (rows : List RawRow) (r : RawRow) : List (BucketKey × StatRow) :=
  (r.samples index rows).map fun x => (r.key, x)

end RawRow

def rawBuckets (rows : List RawRow) : Buckets := Table.groupSum id (rows.flatMap fun r => r.entries index rows)

end Aggregate

/-! ## Retention -/

/-- One call of `retain_history_v1` that is due, with the policies that it reads. -/
structure HistoryPass where
  now : Time
  eventDays : Option Nat
  attemptDays : Option Nat
  /-- While cold export is enabled, how far events and attempts are exported. -/
  exportedThrough : Option (Time × Time)

namespace HistoryPass

/-- The session's time zone, in whose days an interval steps, is UTC. -/
def daysAgo (p : HistoryPass) (days : Nat) : Time := dateBin oneDay p.now - days * oneDay

/-- `v_event_before`. -/
def eventBefore (p : HistoryPass) (s : StatState) : Time :=
  let before := min (p.daysAgo (p.eventDays.getD 0)) s.rolledUpThrough
  (p.exportedThrough.map fun e => min before e.1).getD before

/-- `v_attempt_before`. -/
def attemptBefore (p : HistoryPass) (s : StatState) : Time :=
  let before := min (p.daysAgo (p.attemptDays.getD 0)) s.rolledUpThrough
  (p.exportedThrough.map fun e => min before e.2).getD before

def cutoff (p : HistoryPass) (s : StatState) : RawFact → Option Time
  | .enqueued _ => p.eventDays.map fun _ => p.eventBefore s
  | .claimed _ => p.eventDays.map fun _ => p.eventBefore s
  | .attempt _ _ => p.attemptDays.map fun _ => p.attemptBefore s
  | .other _ _ => none

/-- Whether a pass may delete a row: with its whole day, or by itself in the default partition. -/
def mayDrop (p : HistoryPass) (s : StatState) (r : RawRow) : Bool := (p.cutoff s r.fact).any fun before =>
    if r.partitioned then dateBin oneDay r.occurredAt + oneDay ≤ before else r.occurredAt < before

end HistoryPass

/-! ## Runs -/

structure RecordedRow where
  row : RawRow
  present : Bool

structure History where
  recorded : List RecordedRow
  stats : StatState
  counted : Time → List RawRow

namespace History

def installed (now : Time) : History := ⟨[], .installed now, fun _ => []⟩

def ever (h : History) : List RawRow := h.recorded.map RecordedRow.row

def rows (h : History) : List RawRow := (h.recorded.filter RecordedRow.present).map RecordedRow.row

end History

/-- What happens to the history. The rows that a retention pass has the time and the locks for are among
those that it may delete. -/
inductive HistoryEvent
  | record (r : RawRow)
  | rollUp (pass : RollupPass)
  | retain (pass : HistoryPass) (reaches : RawRow → Bool)

namespace History

variable (index : Time → Int)

def step (h : History) : HistoryEvent → History
  | .record r => { h with recorded := h.recorded ++ [⟨r, true⟩] }
  | .rollUp pass =>
    match pass.run h.stats (rawBuckets index h.rows) with
    | .error _ => h
    | .ok s =>
      if pass.skips h.stats then h
      else
        { h with
          stats := s
          counted := fun m => if pass.start h.stats ≤ m ∧ m < pass.stop h.stats then h.ever else h.counted m }
  | .retain pass reaches =>
    { h with
      recorded := h.recorded.map fun e =>
        { e with present := e.present && !(reaches e.row && pass.mayDrop h.stats e.row) } }

def run (h : History) (events : List HistoryEvent) : History := events.foldl (step index) h

end History

end Workhorse
