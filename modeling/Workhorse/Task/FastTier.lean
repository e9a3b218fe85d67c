import Workhorse.Task.Fast
import Workhorse.Task.Retry

/-!
# Fast-tier transitions

The fast-tier branches of the calls that a worker makes on a task it owns, and of the passes.
-/

namespace Workhorse

def fastOwned (id : TaskId) (worker : String) (fence : Nat) : Tx (Option FastRuntime) := do
  pure (((← database).fastRuntime.get? id).filter (·.ownedBy worker fence))

def fastClose (id : TaskId) (r : FastRuntime) (state : OutcomeState) (result : Option Jsonb)
    (error : Option Envelope) (closedAs : Option ClosedAs) (historyOutcome : AttemptOutcome) :
    Tx Unit :=
  perform fun s => ((), fastFinish id r state result error closedAs historyOutcome s)

def appendError (errors : List FastError) (e : FastError) : List FastError :=
  if 10 ≤ errors.length then errors.tail ++ [e] else errors ++ [e]

/-- `fast_retry_v1`: close one attempt and return the row to ready. -/
def fastRetry (id : TaskId) (r : FastRuntime) (outcome : AttemptOutcome) (error : Option Envelope)
    (delay : RetryDelay) : Tx Status := do
  let now ← clockTimestamp
  let records := fastRecordsAttempts (← database) r.queueName
  let sequence ← nextReadySequence
  let entry : FastError := ⟨r.attempt, r.fenceToken, r.workerId, r.claimedAt, now, outcome, error⟩
  write fun db =>
    let db := if records then
        db.addAttempt {
          taskId := id, attempt := r.attempt, fenceToken := r.fenceToken, workerId := r.workerId
          outcome, startedAt := r.claimedAt, claimedAt := r.claimedAt, error }
      else db
    db.setFast id { r with
      state := .ready, attempt := r.attempt + 1, workerId := none, claimedAt := none
      expiresAt := none, attemptTimeoutAt := none
      previousRetryDelayMs := delay.nextPreviousRetryDelayMs
      runAt := now + milliseconds delay.delayMs, sequence
      errors := if records then r.errors else appendError r.errors entry
      errorsDropped := r.errorsDropped + (if !records && 10 ≤ r.errors.length then 1 else 0) }
  pure (if 0 < delay.delayMs then .scheduled else .ready)

/-- `fast_timeout_owned_v1`. -/
def fastTimeoutOwned (id : TaskId) (worker : String) (fence : Nat) : Tx Bool := do
  match ← fastOwned id worker fence with
  | none => pure false
  | some r =>
    match r.attemptTimeoutAt with
    | none => pure false
    | some timeoutAt =>
      if r.cancelRequestedAt.isSome then pure false
      else if (← clockTimestamp) < timeoutAt then pure false
      else
        let now ← clockTimestamp
        if r.deadlineAt.any fun d => d ≤ timeoutAt && d ≤ now then
          perform (fastTerminalizeDeadline id)
        else
          let error := Envelope.executionTimeout r.executionTimeoutMs timeoutAt
          if r.attempt < r.maxAttempts then
            let delay ← perform (retryDelay id r.attempt r.retryPolicy r.previousRetryDelayMs none
              .executionTimeoutImmediate)
            let _ ← fastRetry id r .timeout (some error) delay
            pure true
          else
            fastClose id r .failed none (some error) (some .timeout) .timeout
            pure true

/-- `fast_expire_owned_v1`. -/
def fastExpireOwned (id : TaskId) (worker : String) (fence : Nat) : Tx Status := do
  match ← fastOwned id worker fence with
  | none => pure .stale
  | some r =>
    if r.cancelRequestedAt.isSome then pure .cancelRequested
    else
      let t₁ ← clockTimestamp
      let t₂ ← clockTimestamp
      if r.deadlineAt.any fun d => d ≤ t₁ && r.attemptTimeoutAt.all fun t => t₂ < t || d ≤ t then
        if ← perform (fastTerminalizeDeadline id) then pure .deadlineExceeded else pure .stale
      else
        let t₃ ← clockTimestamp
        if r.attemptTimeoutAt.any (· ≤ t₃) then
          if ← fastTimeoutOwned id worker fence then pure .timeoutExceeded else pure .stale
        else pure .notDue

/-- `fast_fail_v1`. A delay of `-1` means no further attempt. -/
def fastFail (id : TaskId) (worker : String) (fence : Nat) (error : Option Envelope)
    (retryDelayMs : Option Int) : Tx Status := do
  match ← fastOwned id worker fence with
  | none => pure .stale
  | some r =>
    let t₁ ← clockTimestamp
    if r.expiresAt.any (· ≤ t₁) then pure .stale
    else if r.cancelRequestedAt.isSome then pure .cancelRequested
    else
      let t₂ ← clockTimestamp
      let t₃ ← clockTimestamp
      if r.deadlineAt.any (· ≤ t₂) || r.attemptTimeoutAt.any (· ≤ t₃) then
        fastExpireOwned id worker fence
      else
        let error := redactErrorDetails error r.redact
        if r.attempt < r.maxAttempts ∧ retryDelayMs ≠ some (-1) then
          let delay ← perform (retryDelay id r.attempt r.retryPolicy r.previousRetryDelayMs
            retryDelayMs .legacyHandler)
          fastRetry id r .retry error delay
        else
          fastClose id r .failed none error none .failed
          pure .failed

/-- `fast_release_owned_v1`. -/
def fastReleaseOwned (id : TaskId) (worker : String) (fence : Nat) : Tx Status := do
  match ← fastOwned id worker fence with
  | none => pure .stale
  | some r =>
    let t₁ ← clockTimestamp
    if r.expiresAt.any (· ≤ t₁) then pure .stale
    else if r.cancelRequestedAt.isSome then pure .cancelRequested
    else
      let t₂ ← clockTimestamp
      let t₃ ← clockTimestamp
      if r.deadlineAt.any (· ≤ t₂) || r.attemptTimeoutAt.any (· ≤ t₃) then
        fastExpireOwned id worker fence
      else
        let runAt ← clockTimestamp
        let sequence ← nextReadySequence
        write fun db => db.setFast id { r with
          state := .ready, workerId := none, claimedAt := none, expiresAt := none
          attemptTimeoutAt := none, runAt, sequence }
        pure .released

/-- `fast_acknowledge_cancel_v1`. -/
def fastAcknowledgeCancel (id : TaskId) (worker : String) (fence : Nat) : Tx Bool := do
  match ← fastOwned id worker fence with
  | none => pure false
  | some r =>
    let now ← clockTimestamp
    match r.cancelRequestedAt with
    | none => pure false
    | some at_ =>
      if r.expiresAt.any (· ≤ now) then pure false
      else
        fastClose id r .canceled none (some (r.cancellation at_)) (some .canceled) .canceled
        pure true

structure Completion where
  taskId : TaskId
  fenceToken : Nat
  result : Option Jsonb

/-- The size that a result counts against its limit, `COALESCE(result, 'null')`. -/
def resultSize (result : Option Jsonb) : Nat := (result.getD .null).octetLength

def Completion.oversized (db : Db) (c : Completion) : Bool :=
  (db.fastRuntime.get? c.taskId).any fun r => r.resultMaxBytes < resultSize c.result

/-- Complete one entry at `now` if its generation still allows it. -/
def fastCompleteEntry (worker : String) (now : Time) (accepted : List TaskId) (c : Completion) : Tx (List TaskId) := do
  match (← database).fastRuntime.get? c.taskId with
  | none => pure accepted
  | some r =>
    if r.fenceToken = c.fenceToken ∧ r.workerId = some worker ∧ r.lease.renewable now = true then
      fastClose c.taskId r .succeeded (some (c.result.getD .null)) none none .succeeded
      pure (accepted ++ [c.taskId])
    else pure accepted

/-- `fast_complete_many_v1`: fail the oversized entries, then complete the others. -/
def fastCompleteMany (worker : String) (entries : List Completion) : Tx (List TaskId) := do
  let db ← database
  let oversized := (entries.filter (·.oversized db)).insertionSort fun a b => a.taskId ≤ b.taskId
  oversized.forM fun c => do
    let taskType := ((db.fastRuntime.get? c.taskId).map (·.taskType)).getD ""
    let _ ← fastFail c.taskId worker c.fenceToken (some (.taskValueSizeLimitError taskType)) none
  let now ← clockTimestamp
  let rest := entries.filter fun c => !(oversized.map (·.taskId)).contains c.taskId
  rest.foldlM (fastCompleteEntry worker now) []

/-- `fast_complete_v1`. -/
def fastComplete (id : TaskId) (worker : String) (fence : Nat) (result : Option Jsonb) : Tx Bool := do
  let entry : Completion := ⟨id, fence, result⟩
  ensure (!entry.oversized (← database)) "result exceeds its configured size limit"
  pure ((← fastCompleteMany worker [entry]).length == 1)

structure Beat where
  taskId : TaskId
  fenceToken : Nat
  leaseMs : Nat

/-- `fast_heartbeat_many_v1`. A row that two entries name is updated by one of them. -/
def fastHeartbeatMany (worker : String) (beats : List Beat) : Tx (List (TaskId × Status)) := do
  let now ← clockTimestamp
  let (statuses, _) ← beats.foldlM (fun (acc : List (TaskId × Status) × List TaskId) b => do
    match ← fastOwned b.taskId worker b.fenceToken with
    | none => pure (acc.1 ++ [(b.taskId, .stale)], acc.2)
    | some r =>
      if acc.2.contains b.taskId then pure (acc.1 ++ [(b.taskId, .stale)], acc.2)
      else
        write fun db => db.setFast b.taskId (r.renewed now b.leaseMs)
        pure (acc.1 ++ [(b.taskId, (r.renewed now b.leaseMs).lease.beat now)], b.taskId :: acc.2))
    ([], [])
  pure statuses

end Workhorse
