import Workhorse.Retention.History

/-!
# Cold export

`set_cold_export_policy_v1`, `claim_cold_export_segment_v1`, `complete_cold_export_segment_v1` and
`fail_cold_export_segment_v1`, beside the passes that delete what is exported. Each call locks the row of its
dataset or of its segment and is one step, at the lock. The first call reads the oldest day before its lock: that
no row of an older day comes between the two is assumed. A pass is several steps: it starts, reads the policy, and
deletes. The switch and the ends of the datasets, which it reads in statements of their own, are one reading.
-/

namespace Workhorse

inductive Dataset
  | taskEvent
  | attemptHistory
  | fastTaskOutcome
deriving DecidableEq

inductive SegmentStatus
  | exporting
  | complete
deriving DecidableEq

/-- A row of `cold_export_segment`. A segment is one day long. -/
structure Segment where
  start : Time
  status : SegmentStatus
  attempts : Nat
  leaseExpiresAt : Option Time
deriving DecidableEq

inductive ExportFault
  /-- `cold export of % already started at %; the start cannot move` -/
  | startCannotMove (d : Dataset) (exportedThrough : Time)
  /-- `cold export exporter id must contain 1 through 256 bytes` -/
  | exporterId
  /-- `cold export lease must be between 1000 and 86400000 milliseconds` -/
  | leaseRange
  /-- The primary key of `cold_export_segment`. -/
  | duplicateSegment
  /-- `cold export segment counts must be non-negative` -/
  | negativeCounts
  /-- `cold export of % has not been enabled` -/
  | notEnabled (d : Dataset)
  /-- `cold export segment % starting % is not held by attempt %` -/
  | notHeld (d : Dataset) (start : Time) (attempts : Nat)
deriving DecidableEq

/-- A dataset: its row in `cold_export_dataset`, its segments, the times of its retained rows and the days
that have a partition. -/
structure ExportedDataset where
  exportedThrough : Option Time
  segments : List Segment
  rows : List Time
  partitions : List Time

namespace ExportedDataset

def blank : ExportedDataset := ⟨none, [], [], []⟩

/-- `cold_export_oldest_history_day_internal_v1`. The row of a partition is on the partition's day, so it does
not matter that the source looks at the rows of the default partition only. -/
def oldestDay (x : ExportedDataset) : Option Time := (x.partitions ++ x.rows.map (dateBin oneDay)).min?

/-- The part of `set_cold_export_policy_v1` for one dataset, when it enables export. -/
def enable (d : Dataset) (x : ExportedDataset) (start : Option Time) (now : Time) :
    Except ExportFault ExportedDataset :=
  let oldest := x.oldestDay.getD (dateBin oneDay now)
  match x.exportedThrough with
  | some e =>
    if start.any fun t => dateBin oneDay t ≠ e then .error (.startCannotMove d e)
    else .ok { x with exportedThrough := some (max e oldest) }
  | none => .ok { x with exportedThrough := some ((start.map (dateBin oneDay)).getD oldest) }

def exporting (x : ExportedDataset) : Option Segment :=
  ((x.segments.filter fun s => s.status = .exporting).insertionSort fun a b => a.start ≤ b.start).head?

def update (x : ExportedDataset) (start : Time) (f : Segment → Segment) : List Segment :=
  x.segments.map fun s => if s.start = start then f s else s

/-- `cold_export_exportable_through_internal_v1`. -/
def exportableThrough (rolledUpThrough now : Time) : Time := min (dateBin oneDay rolledUpThrough) (dateBin oneDay now)

/-- `claim_cold_export_segment_v1`, with the switch as it was read before the row was locked. It returns the
start and the attempt of the segment. -/
def claim (x : ExportedDataset) (enabled : Bool) (exporterId : String) (leaseMs : Int)
    (rolledUpThrough now : Time) : Except ExportFault (ExportedDataset × Option (Time × Nat)) :=
  if exporterId = "" ∨ 256 < exporterId.utf8ByteSize then .error .exporterId
  else if leaseMs < 1000 ∨ 86400000 < leaseMs then .error .leaseRange
  else if !enabled then .ok (x, none)
  else
    match x.exportedThrough with
    | none => .ok (x, none)
    | some e =>
      match x.exporting with
      | some s =>
        if s.leaseExpiresAt.any fun lease => now < lease then .ok (x, none)
        else
          let segments := x.update s.start fun s =>
            { s with attempts := s.attempts + 1, leaseExpiresAt := some (now + milliseconds leaseMs) }
          .ok ({ x with segments }, some (s.start, s.attempts + 1))
      | none =>
        if exportableThrough rolledUpThrough now < e + oneDay then .ok (x, none)
        else if x.segments.any fun s => s.start = e then .error .duplicateSegment
        else
          let segments := ⟨e, .exporting, 1, some (now + milliseconds leaseMs)⟩ :: x.segments
          .ok ({ x with segments }, some (e, 1))

def advance (segments : List Segment) : Nat → Time → List Time
  | 0, _ => []
  | fuel + 1, e =>
    if segments.any fun s => s.start = e && s.status = .complete then
      e :: advance segments fuel (e + oneDay)
    else []

def held (x : ExportedDataset) (start : Time) (attempts : Nat) : Bool :=
  x.segments.any fun s => s.start = start && s.status = .exporting && s.attempts = attempts

/-- `complete_cold_export_segment_v1`. The keys, the checksum and the table's checks on them are left out. -/
def complete (d : Dataset) (x : ExportedDataset) (start : Time) (attempts : Nat)
    (byteLength rowCount : Int) : Except ExportFault ExportedDataset :=
  if rowCount < 0 ∨ byteLength < 0 then .error .negativeCounts
  else
    match x.exportedThrough with
    | none => .error (.notEnabled d)
    | some e =>
      if !x.held start attempts then .error (.notHeld d start attempts)
      else
        let segments := x.update start fun s => { s with status := .complete, leaseExpiresAt := none }
        let days := advance segments segments.length e
        .ok { x with segments, exportedThrough := some (e + days.length * oneDay) }

/-- `fail_cold_export_segment_v1`. -/
def fail (d : Dataset) (x : ExportedDataset) (start : Time) (attempts : Nat) : Except ExportFault ExportedDataset :=
  if !x.held start attempts then .error (.notHeld d start attempts)
  else .ok { x with segments := x.update start fun s => { s with leaseExpiresAt := none } }

end ExportedDataset

/-! ## Passes -/

/-- A call of `retain_history_v1` that is due, with the statistics that it reads, or one call of
`prune_terminal_tasks_v1`, for the fast tier. -/
inductive DeletePass
  | history (pass : HistoryPass) (stats : StatState)
  | terminal (outcomeBefore historyBefore : Time)

structure RunningPass where
  pass : DeletePass
  startedEnabled : Bool
  /-- Whether it was enabled when the pass read the policy, and the cutoffs that came of it. -/
  read : Option (Bool × (Dataset → Option Time))

def exportEpoch : Time := 946684800000000

structure ColdExport where
  enabled : Bool
  data : Dataset → ExportedDataset
  passes : Table Nat RunningPass

namespace ColdExport

def initial : ColdExport := ⟨false, fun _ => .blank, .empty⟩

def set (σ : ColdExport) (d : Dataset) (x : ExportedDataset) : ColdExport :=
  { σ with data := fun d' => if d' = d then x else σ.data d' }

def through (σ : ColdExport) (d : Dataset) : Time := (σ.data d).exportedThrough.getD exportEpoch

def cutoffs (σ : ColdExport) : DeletePass → Dataset → Option Time
  | .history pass stats, d =>
    let pass := { pass with
      exportedThrough := if σ.enabled then some (σ.through .taskEvent, σ.through .attemptHistory) else none }
    match d with
    | .taskEvent => pass.eventDays.map fun _ => pass.eventBefore stats
    | .attemptHistory => pass.attemptDays.map fun _ => pass.attemptBefore stats
    | .fastTaskOutcome => none
  | .terminal outcomeBefore historyBefore, .fastTaskOutcome =>
    some (min outcomeBefore (if σ.enabled then min historyBefore (σ.through .fastTaskOutcome) else historyBefore))
  | .terminal _ _, _ => none

end ColdExport

inductive ExportEvent
  | record (d : Dataset) (t : Time)
  /-- Fast outcomes are not partitioned. -/
  | createPartition (d : Dataset) (day : Time)
  | setPolicy (enabled : Bool) (start : Option Time) (now : Time)
  | claim (d : Dataset) (enabled : Bool) (exporterId : String) (leaseMs : Int) (rolledUpThrough now : Time)
  | complete (d : Dataset) (start : Time) (attempts : Nat) (byteLength rowCount : Int)
  | fail (d : Dataset) (start : Time) (attempts : Nat)
  | startPass (conn : Nat) (pass : DeletePass)
  | readPolicy (conn : Nat)
  /-- The rows and the partitions that the pass has the time and the locks for. -/
  | deleteRows (conn : Nat) (d : Dataset) (reaches drops : Time → Bool)
  | endPass (conn : Nat)

namespace ColdExport

def claimed (σ : ColdExport) (d : Dataset) : ExportEvent → Option (Time × Nat)
  | .claim d' enabled exporterId leaseMs rolledUpThrough now =>
    if d' = d then
      match (σ.data d).claim enabled exporterId leaseMs rolledUpThrough now with
      | .ok (_, r) => r
      | .error _ => none
    else none
  | _ => none

def step (σ : ColdExport) : ExportEvent → ColdExport
  | .record d t => σ.set d { σ.data d with rows := t :: (σ.data d).rows }
  | .createPartition d day =>
    if d = .fastTaskOutcome then σ
    else σ.set d { σ.data d with partitions := dateBin oneDay day :: (σ.data d).partitions }
  | .setPolicy false start _ => if start.isSome then σ else { σ with enabled := false }
  | .setPolicy true start now =>
    match (σ.data .taskEvent).enable .taskEvent start now, (σ.data .attemptHistory).enable .attemptHistory start now,
      (σ.data .fastTaskOutcome).enable .fastTaskOutcome start now with
    | .ok event, .ok attempt, .ok outcome =>
      { ((σ.set .taskEvent event).set .attemptHistory attempt).set .fastTaskOutcome outcome with enabled := true }
    | _, _, _ => σ
  | .claim d enabled exporterId leaseMs rolledUpThrough now =>
    match (σ.data d).claim enabled exporterId leaseMs rolledUpThrough now with
    | .ok (x, _) => σ.set d x
    | .error _ => σ
  | .complete d start attempts byteLength rowCount =>
    match (σ.data d).complete d start attempts byteLength rowCount with
    | .ok x => σ.set d x
    | .error _ => σ
  | .fail d start attempts =>
    match (σ.data d).fail d start attempts with
    | .ok x => σ.set d x
    | .error _ => σ
  | .startPass conn pass => { σ with passes := σ.passes.put conn ⟨pass, σ.enabled, none⟩ }
  | .readPolicy conn =>
    match σ.passes.get? conn with
    | some p => { σ with passes := σ.passes.put conn { p with read := some (σ.enabled, σ.cutoffs p.pass) } }
    | none => σ
  | .deleteRows conn d reaches drops =>
    match (σ.passes.get? conn).bind RunningPass.read with
    | some (_, before) =>
      let rows := (σ.data d).rows.filter fun t => !(reaches t && (before d).any fun b => t < b)
      let partitions := (σ.data d).partitions.filter fun day =>
        !(drops day && (before d).any fun b => day + oneDay ≤ b)
      σ.set d { σ.data d with rows, partitions }
    | none => σ
  | .endPass conn => { σ with passes := σ.passes.erase conn }

def run (σ : ColdExport) (events : List ExportEvent) : ColdExport := events.foldl step σ

end ColdExport

end Workhorse
