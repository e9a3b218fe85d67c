import Workhorse.Task.Fast

/-!
# Dependency resolution

A statement that inserts outcomes fires `resolve_task_outcome_dependencies_v1`, which resolves the
edges that leave the new terminal tasks and settles the dependents that have no pending edge left.
Settling a rejected dependent inserts its outcome, so the trigger recurses; it also recurses through
the released dependents whose deadline has passed. The functions take the trigger they fire as an
argument, and `trigger` ties the knot with fuel: every level of the recursion deletes a runtime row,
so one more than the number of runtime rows is enough (`trigger_eq_onOutcomes`).
-/

namespace Workhorse

/-- What a statement trigger does with the outcomes that a statement inserted. -/
abbrev Fire := List (TaskId × OutcomeState) → Session → Session

/-- Identities in the order of `ORDER BY task_id`. -/
def byId (ids : List TaskId) : List TaskId := ids.insertionSort (· ≤ ·)

namespace Db

def pendingEdges (db : Db) (id : TaskId) : Nat := db.dependencies.count fun k d => k.1 = id && d.pending

/-- Whether a resolved edge of a dependent chose `fail` or `cancel`. -/
def rejectedEdges (db : Db) (id : TaskId) : Bool := db.dependencies.any fun k d => k.1 = id && d.rejects

def isBlocked (db : Db) (id : TaskId) : Bool := (db.runtime.get? id).any (·.state == .blocked)

/-- The order in which rejecting edges decide: `fail` before `cancel`, then by prerequisite. -/
def decides (a b : TaskId × Action) : Prop := a.2.rank < b.2.rank ∨ (a.2.rank = b.2.rank ∧ a.1 ≤ b.1)

instance (a b : TaskId × Action) : Decidable (decides a b) := inferInstanceAs (Decidable (_ ∨ _))

/-- The edge that decides the fate of a rejected dependent: its prerequisite and its action. -/
def decidingEdge (db : Db) (id : TaskId) : Option (TaskId × Action) :=
  (((db.dependencies.select fun k d => k.1 = id && d.rejects).filterMap fun e =>
    e.2.resolution.map fun a => (e.1.2, a)).insertionSort decides).head?

/-- The boundary that a suspended attempt was declared under: the newest wait of the attempt. -/
def suspension (db : Db) (id : TaskId) (attempt : Nat) : Option Provenance :=
  let timers := (db.waits.select fun k w => k.1 = id && w.provenance.attempt = attempt).map
    fun e => (e.1.2, e.2.provenance)
  let signals := (db.signalWaits.select fun k w => k.1 = id && w.provenance.attempt = attempt).map
    fun e => (e.1.2, e.2.provenance)
  let humans := (db.humanWaits.select fun k w => k.1 = id && w.provenance.attempt = attempt).map
    fun e => (e.1.2, e.2.provenance)
  (((timers ++ signals ++ humans).insertionSort fun a b =>
    b.2.createdAt < a.2.createdAt ∨ (b.2.createdAt = a.2.createdAt ∧ ¬ a.1 < b.1)).head?).map Prod.snd

end Db

def insertOutcomes (fire : Fire) (rows : List (TaskId × Outcome)) (s : Session) : Session :=
  fire (rows.map fun e => (e.1, e.2.state))
    (s.update fun db => rows.foldl (fun db e => db.setOutcome e.1 e.2) db)

def finish (fire : Fire) (id : TaskId) (outcome : Outcome) (s : Session) : Session :=
  insertOutcomes fire [(id, outcome)] (s.update fun db => db.deleteRuntime id)

def Runtime.cancellation (r : Runtime) (requestedAt : Time) : Envelope :=
  .cancellationRequested requestedAt r.cancelRequestedBy r.cancelReason

/-- `terminalize_deadline_v1`. A suspended attempt is attributed to the worker of its boundary. -/
def terminalizeDeadlineWith (fire : Fire) (id : TaskId) (s : Session) : Bool × Session :=
  if s.db.fastRuntime.contains id then fastTerminalizeDeadline id s
  else
    match s.db.runtime.get? id with
    | none => (false, s)
    | some r =>
      match r.deadlineAt with
      | none => (false, s)
      | some deadline =>
        if s.now < deadline then (false, s.ask)
        else
          let s := s.ask
          match r.cancelRequestedAt with
          | some at_ =>
            let error := r.cancellation at_
            let s' := finish fire id {
              state := .canceled, currentAttempt := r.currentAttempt, fenceToken := r.fenceToken
              runAt := r.runAt, result := none, error := some error, finishedAt := s.now } s.ask
            (true, s'.update fun db =>
              (db.addAttempt {
                taskId := id, attempt := r.currentAttempt, fenceToken := r.fenceToken
                workerId := r.workerId, outcome := .canceled, startedAt := r.attemptStartedAt
                claimedAt := r.acquiredAt, error := some error }).addEvent
                id (some r.currentAttempt) .canceled)
          | none =>
            let error := Envelope.deadlineExceeded deadline
            let owner : Option (Option String × Nat × Option Time) :=
              if r.state = .active then some (r.workerId, r.fenceToken, r.acquiredAt)
              else if r.attemptStartedAt.isSome then
                (s.db.suspension id r.currentAttempt).map
                  fun p => (some p.workerId, p.fenceToken, p.claimedAt)
              else none
            let s' := finish fire id {
              state := .failed, currentAttempt := r.currentAttempt
              fenceToken := (owner.map (·.2.1)).getD 0
              runAt := r.runAt, result := none, error := some error, finishedAt := s.now } s.ask
            (true, s'.update fun db =>
              match owner with
              | some (worker, fence, claimedAt) =>
                (db.addAttempt {
                  taskId := id, attempt := r.currentAttempt, fenceToken := fence
                  workerId := worker, outcome := .deadlineExceeded
                  startedAt := r.attemptStartedAt, claimedAt, error := some error }).addEvent
                  id (some r.currentAttempt) .deadlineExceeded
              | none => db.addEvent id none .deadlineExceeded)

/-- The row of a dependent that is released at `now`: `ready` with its place in the queue when its run
time has come, else `scheduled`. -/
def Runtime.dependencyReleased (r : Runtime) (now : Time) (sequence : Nat) : Runtime :=
  { r with
    state := if r.runAt ≤ now then .ready else .scheduled
    readyAt := if r.runAt ≤ now then some now else none
    sequence := if r.runAt ≤ now then some sequence else none
    pendingPrerequisites := 0
    dependencyRejected := false }

def releaseDependent (now : Time) (s : Session) (id : TaskId) : Session :=
  match s.db.runtime.get? id with
  | none => s
  | some r =>
    let (sequence, s) := if r.runAt ≤ now then s.nextReadySequence else (0, s)
    if r.state = .blocked then
      s.update fun db =>
        (db.setRuntime id (r.dependencyReleased now sequence)).addEvent id none .dependencyReleased
    else s

def rejection (db : Db) (now : Time) (r : Runtime) (decider : TaskId × Action) : Outcome where
  state := if decider.2 = .fail then .failed else .canceled
  currentAttempt := r.currentAttempt
  fenceToken := 0
  runAt := r.runAt
  result := none
  error :=
    let state := (db.outcomes.get? decider.1).map (·.state)
    some (if decider.2 = .fail then .dependencyFailed decider.1 state
      else .dependencyCanceled decider.1 state)
  finishedAt := now

def Db.setCounters (db : Db) (id : TaskId) (pending : Nat) (rejected : Bool) : Db :=
  { db with
    runtime := db.runtime.modify id fun r =>
      { r with pendingPrerequisites := pending, dependencyRejected := rejected } }

def recountRejected (db : Db) (id : TaskId) : Db :=
  let db := db.addEvent id none .dependencyCounterRepaired
  if db.pendingEdges id = 0 then db else db.setCounters id (db.pendingEdges id) false

def settledRow (db : Db) (now : Time) (id : TaskId) : Option (TaskId × Outcome) :=
  match db.runtime.get? id, db.decidingEdge id with
  | some r, some decider =>
    if r.state = .blocked then some (id, rejection db now r decider) else none
  | _, _ => none

def settledRows (db : Db) (now : Time) (rejected : List TaskId) : List (TaskId × Outcome) :=
  (byId rejected).filterMap (settledRow db now)

def removeSettled (db : Db) (rows : List (TaskId × Outcome)) : Db :=
  rows.foldl (fun db e => (db.deleteRuntime e.1).addEvent e.1 none
    (if e.2.state = .failed then .dependencyFailed else .dependencyCanceled)) db

/-- `settle_dependents_v1`. The rejected dependents close first, and their trigger runs before the
others are released. -/
def settleDependents (fire : Fire) (now : Time) (rejected released : List TaskId) (s : Session) : Session :=
  let unexplained := rejected.filter fun id => s.db.isBlocked id && !s.db.rejectedEdges id
  let repaired := unexplained.filter fun id => s.db.pendingEdges id = 0
  let s := s.update fun db => (byId unexplained).foldl recountRejected db
  let rows := settledRows s.db now rejected
  let s := insertOutcomes fire rows (s.update fun db => removeSettled db rows)
  let releasing := byId (released ++ repaired)
  let due := releasing.filter fun id =>
    (s.db.runtime.get? id).any fun r => r.state == .blocked && r.deadlineAt.any (· ≤ now)
  let s := releasing.foldl (releaseDependent now) s
  due.foldl (fun s id => (terminalizeDeadlineWith fire id s).2) s

def Db.mapEdges (db : Db) (f : TaskId × TaskId → Dependency → Dependency) : Db :=
  { db with dependencies := db.dependencies.mapRows f }

structure Measure where
  taskId : TaskId
  remaining : Nat
  rejected : Bool
  repaired : Bool

def resolvable (prerequisites : List (TaskId × OutcomeState)) (k : TaskId × TaskId)
    (d : Dependency) : Bool :=
  d.pending && (prerequisites.lookup k.2).isSome

def dependentsOf (db : Db) (prerequisites : List (TaskId × OutcomeState)) : List TaskId :=
  byId ((db.runtime.select fun id r => r.state == .blocked &&
    db.dependencies.any fun k d => k.1 = id && resolvable prerequisites k d).map Prod.fst)

def resolveEdge (prerequisites : List (TaskId × OutcomeState)) (dependents : List TaskId) (now : Time)
    (k : TaskId × TaskId) (d : Dependency) : Dependency :=
  match prerequisites.lookup k.2 with
  | some state =>
    if d.pending && dependents.contains k.1 then { d with resolved := some (now, d.actionOn state) }
    else d
  | none => d

/-- The counters of a dependent after `before`'s edges were resolved. A counter that would fall below
zero, or reach zero while an edge is pending, has drifted from the edges and is recounted. -/
def measure (before after : Db) (prerequisites : List (TaskId × OutcomeState)) (id : TaskId) : Option Measure :=
  (after.runtime.get? id).map fun r =>
    let decrement := before.dependencies.count fun k d => k.1 = id && resolvable prerequisites k d
    let rejected := before.dependencies.any fun k d => k.1 = id && d.pending &&
      (prerequisites.lookup k.2).any fun state => (d.actionOn state).rejects
    let repaired := r.pendingPrerequisites < decrement ||
      (r.pendingPrerequisites == decrement && after.pendingEdges id != 0)
    { taskId := id
      remaining := if repaired then after.pendingEdges id else r.pendingPrerequisites - decrement
      rejected := if repaired then after.rejectedEdges id else r.dependencyRejected || rejected
      repaired }

def recordMeasure (db : Db) (m : Measure) : Db :=
  let db := if m.repaired then db.addEvent m.taskId none .dependencyCounterRepaired else db
  if m.remaining = 0 then db else db.setCounters m.taskId m.remaining m.rejected

/-- `resolve_dependents_many_v1`. -/
def resolveDependentsMany (fire : Fire) : Fire := fun prerequisites s =>
  let now := s.now
  let s := s.ask
  let before := s.db
  let dependents := dependentsOf before prerequisites
  if dependents = [] then s
  else
    let s := s.update fun db => db.mapEdges (resolveEdge prerequisites dependents now)
    let measures := dependents.filterMap (measure before s.db prerequisites)
    let s := s.update fun db => measures.foldl recordMeasure db
    let settled := measures.filter fun m => m.remaining = 0
    settleDependents fire now ((settled.filter (·.rejected)).map (·.taskId))
      ((settled.filter fun m => !m.rejected).map (·.taskId)) s

def releaseEdge (new : List (TaskId × OutcomeState)) (now : Time) (k : TaskId × TaskId)
    (d : Dependency) : Dependency :=
  if d.pending && (new.map Prod.fst).contains k.1 then { d with resolved := some (now, .release) } else d

/-- `resolve_task_outcome_dependencies_v1`: release the pending edges of the new terminal tasks, then
resolve the edges that name them as prerequisite. -/
def resolveTaskOutcomeDependencies (resolve : Fire) : Fire := fun new s =>
  if s.db.dependencies.any fun k d => d.pending &&
      ((new.map Prod.fst).contains k.1 || (new.map Prod.fst).contains k.2) then
    let now := s.now
    resolve (new.insertionSort fun a b => a.1 ≤ b.1)
      (s.ask.update fun db => db.mapEdges (releaseEdge new now))
  else s

def trigger : Nat → Fire
  | 0 => fun _ s => s
  | fuel + 1 => resolveTaskOutcomeDependencies (resolveDependentsMany (trigger fuel))

/-- The trigger `task_outcome_resolve_dependencies_insert`. -/
def onOutcomes : Fire := fun new s => trigger (s.db.runtime.size + 1) new s

def terminalizeDeadline (id : TaskId) : Session → Bool × Session := terminalizeDeadlineWith onOutcomes id

end Workhorse
