import Workhorse.Schema.Db

/-!
# Closing fast-tier rows

The fast tier keeps its live tasks in `fast_task_runtime` and its finished ones in
`fast_task_outcome`. These are the two functions through which a fast-tier row closes.
-/

namespace Workhorse

/-- `fast_records_attempts_v1`. -/
def fastRecordsAttempts (db : Db) (queue : String) : Bool := (db.queueControl.get? queue).any (·.recordAttempts)

/-- The outcome row of a fast-tier task. It names the last claim only when the row was active. -/
def FastRuntime.finished (r : FastRuntime) (state : OutcomeState) (result : Option Jsonb)
    (error : Option Envelope) (closedAs : Option ClosedAs) (now : Time) : FastOutcome where
  queueName := r.queueName
  taskType := r.taskType
  state := state
  attempt := r.attempt
  result := result
  error := error
  fenceToken := if r.state = .active then some r.fenceToken else none
  workerId := if r.state = .active then r.workerId else none
  claimedAt := if r.state = .active then r.claimedAt else none
  enqueuedAt := r.enqueuedAt
  finishedAt := now
  errors := r.errors
  errorsDropped := r.errorsDropped
  closedAs := closedAs

/-- `fast_finish_v1`. -/
def fastFinish (id : TaskId) (r : FastRuntime) (state : OutcomeState) (result : Option Jsonb)
    (error : Option Envelope) (closedAs : Option ClosedAs) (historyOutcome : AttemptOutcome)
    (s : Session) : Session :=
  let outcome := r.finished state result error closedAs s.now
  s.ask.update fun db =>
    let db := { db with
      fastRuntime := db.fastRuntime.erase id, fastOutcomes := db.fastOutcomes.put id outcome }
    if r.state = .active ∧ fastRecordsAttempts db r.queueName then
      db.addAttempt {
        taskId := id, attempt := r.attempt, fenceToken := r.fenceToken, workerId := r.workerId
        outcome := historyOutcome, startedAt := r.claimedAt, claimedAt := r.claimedAt, error }
    else db

def FastRuntime.cancellation (r : FastRuntime) (requestedAt : Time) : Envelope :=
  .cancellationRequested requestedAt r.cancelRequestedBy r.cancelReason

/-- `fast_terminalize_deadline_v1`. -/
def fastTerminalizeDeadline (id : TaskId) (s : Session) : Bool × Session :=
  match s.db.fastRuntime.get? id with
  | none => (false, s)
  | some r =>
    match r.deadlineAt with
    | none => (false, s)
    | some deadline =>
      if s.now < deadline then (false, s.ask)
      else
        match r.cancelRequestedAt with
        | some at_ =>
          (true, fastFinish id r .canceled none (some (r.cancellation at_)) (some .canceled) .canceled
            s.ask)
        | none =>
          (true, fastFinish id r .failed none (some (.deadlineExceeded deadline))
            (some .deadlineExceeded) .deadlineExceeded s.ask)

end Workhorse
