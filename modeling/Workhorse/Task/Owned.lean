import Workhorse.Dependency.Resolve
import Workhorse.Task.FastTier

/-!
# Calls on an owned task

What a worker calls on a task it owns, naming the task, itself and its fence token: heartbeat,
complete, fail, release, acknowledge a cancellation, and settle a crossed deadline or timeout. Each
function reads the clock once for every `clock_timestamp()` of its source.
-/

namespace Workhorse

def owned (id : TaskId) (worker : String) (fence : Nat) : Tx (Option Runtime) := do
  pure (((← database).runtime.get? id).filter (·.ownedBy worker fence))

/-- The condition `expires_at > clock_timestamp()` with the deadline and the timeout still ahead. -/
def unexpired (r : Runtime) : Tx Bool := do
  let t₁ ← clockTimestamp
  let t₂ ← clockTimestamp
  let t₃ ← clockTimestamp
  pure (r.expiresAt.any (t₁ < ·) && r.deadlineAt.all (t₂ < ·) && r.attemptTimeoutAt.all (t₃ < ·))

/-- Delete a runtime row and insert the outcome of its task, finished at the next reading. -/
def close (id : TaskId) (r : Runtime) (state : OutcomeState) (fence : Nat) (result : Option Jsonb)
    (error : Option Envelope) : Tx Unit := do
  let finishedAt ← clockTimestamp
  perform fun s => ((), finish onOutcomes id {
    state, currentAttempt := r.currentAttempt, fenceToken := fence, runAt := r.runAt, result, error
    finishedAt } s)

def Runtime.closedAttempt (r : Runtime) (id : TaskId) (outcome : AttemptOutcome)
    (error : Option Envelope) : Attempt where
  taskId := id
  attempt := r.currentAttempt
  fenceToken := r.fenceToken
  workerId := r.workerId
  outcome := outcome
  startedAt := r.attemptStartedAt
  claimedAt := r.acquiredAt
  error := error

/-- The row of the next attempt after a retry: ready at once without a delay, else scheduled. -/
def Runtime.retried (r : Runtime) (runAt readyAt : Time) (sequence : Option Nat) (delay : RetryDelay)
    (error : Option Envelope) : Runtime :=
  { r with
    state := if delay.delayMs = 0 then .ready else .scheduled
    currentAttempt := r.currentAttempt + 1
    fenceToken := 0
    runAt
    readyAt := if delay.delayMs = 0 then some readyAt else none
    sequence
    workerId := none, acquiredAt := none, heartbeatAt := none, expiresAt := none
    waitName := none, attemptStartedAt := none, executionUsedMs := 0, attemptTimeoutAt := none
    previousRetryDelayMs := delay.nextPreviousRetryDelayMs
    error }

def retryAt (id : TaskId) (r : Runtime) (runAt : Time) (delay : RetryDelay)
    (error : Option Envelope) : Tx Status := do
  let readyAt ← clockTimestamp
  let sequence ← if delay.delayMs = 0 then some <$> nextReadySequence else pure none
  write fun db => db.setRuntime id (r.retried runAt readyAt sequence delay error)
  pure (if delay.delayMs = 0 then .ready else .scheduled)

def Runtime.usedAt (r : Runtime) (now : Time) : Nat := min maxDelayMs (r.executionUsedMs +
    (r.acquiredAt.map fun acquired => ((now - acquired) / 1000).toNat).getD 0)

/-- `timeout_owned_v1`. -/
def timeoutOwned (id : TaskId) (worker : String) (fence : Nat) : Tx Bool := do
  if (← database).fastRuntime.contains id then fastTimeoutOwned id worker fence
  else
    match ← owned id worker fence with
    | none => pure false
    | some r =>
      match r.attemptTimeoutAt with
      | none => pure false
      | some timeoutAt =>
        if (← clockTimestamp) < timeoutAt then pure false
        else if r.cancelRequestedAt.isSome then pure false
        else
          let task ← strictTask id
          let now ← clockTimestamp
          if task.deadlineAt.any fun d => d ≤ timeoutAt && d ≤ now then
            perform (terminalizeDeadline id)
          else
            let error := some (Envelope.executionTimeout task.executionTimeoutMs timeoutAt)
            if r.currentAttempt < task.maxAttempts then
              let delay ← perform (retryDelay id r.currentAttempt task.retryPolicy
                r.previousRetryDelayMs none .executionTimeoutImmediate)
              let runAt := (← clockTimestamp) + milliseconds delay.delayMs
              let _ ← retryAt id r runAt delay error
            else
              close id r .failed fence none error
            write fun db => (db.addEvent id (some r.currentAttempt) .executionTimedOut).addAttempt
              (r.closedAttempt id .timeout error)
            pure true

/-- `expire_owned_v1`. -/
def expireOwned (id : TaskId) (worker : String) (fence : Nat) : Tx Status := do
  if (← database).fastRuntime.contains id then fastExpireOwned id worker fence
  else
    match ← owned id worker fence with
    | none => pure .stale
    | some r =>
      if r.cancelRequestedAt.isSome then pure .cancelRequested
      else
        let t₁ ← clockTimestamp
        let t₂ ← clockTimestamp
        if r.deadlineAt.any fun d => d ≤ t₁ && r.attemptTimeoutAt.all fun t => t₂ < t || d ≤ t then
          if ← perform (terminalizeDeadline id) then pure .deadlineExceeded else pure .stale
        else
          let t₃ ← clockTimestamp
          if r.attemptTimeoutAt.any (· ≤ t₃) then
            if ← timeoutOwned id worker fence then pure .timeoutExceeded else pure .stale
          else
            let t₄ ← clockTimestamp
            if r.deadlineAt.any (· ≤ t₄) then
              if ← perform (terminalizeDeadline id) then pure .deadlineExceeded else pure .stale
            else pure .notDue

/-- `complete_v1`. -/
def complete (id : TaskId) (worker : String) (fence : Nat) (result : Option Jsonb) : Tx Bool := do
  let db ← database
  if db.fastRuntime.contains id then fastComplete id worker fence result
  else
    match ← owned id worker fence, db.tasks.get? id with
    | some r, some task =>
      if !(← unexpired r) || r.cancelRequestedAt.isSome then pure false
      else
        ensure (resultSize result ≤ task.resultMaxBytes) "result exceeds its configured size limit"
        if !(← unexpired r) then pure false
        else
          close id r .succeeded fence result none
          write fun db => (db.addAttempt (r.closedAttempt id .succeeded none)).addEvent
            id (some r.currentAttempt) .succeeded
          pure true
    | _, _ => pure false

/-- `fail_v1`. A delay of `-1` means no further attempt. -/
def fail (id : TaskId) (worker : String) (fence : Nat) (error : Option Envelope)
    (retryDelayMs : Option Int) : Tx Status := do
  if (← database).fastRuntime.contains id then fastFail id worker fence error retryDelayMs
  else
    match ← owned id worker fence with
    | none => pure .stale
    | some r =>
      let t₁ ← clockTimestamp
      if r.expiresAt.any (· ≤ t₁) then pure .stale
      else if r.cancelRequestedAt.isSome then pure .cancelRequested
      else
        let t₂ ← clockTimestamp
        if r.deadlineAt.any (· ≤ t₂) then expireOwned id worker fence
        else
          let t₃ ← clockTimestamp
          if r.attemptTimeoutAt.any (· ≤ t₃) then expireOwned id worker fence
          else
            let task ← strictTask id
            let error := redactErrorDetails error task.redacts
            if r.currentAttempt < task.maxAttempts ∧ retryDelayMs ≠ some (-1) then
              let delay ← perform (retryDelay id r.currentAttempt task.retryPolicy
                r.previousRetryDelayMs retryDelayMs .legacyHandler)
              let runAt := (← clockTimestamp) + milliseconds delay.delayMs
              if !(← unexpired r) then pure .stale
              else
                let state ← retryAt id r runAt delay error
                write fun db => (db.addAttempt (r.closedAttempt id .retry error)).addEvent
                  id (some r.currentAttempt) .retryScheduled
                pure state
            else if !(← unexpired r) then pure .stale
            else
              close id r .failed fence none error
              write fun db => (db.addAttempt (r.closedAttempt id .failed error)).addEvent
                id (some r.currentAttempt) .failed
              pure .failed

/-- `release_owned_v1`. -/
def releaseOwned (id : TaskId) (worker : String) (fence : Nat) : Tx Status := do
  if (← database).fastRuntime.contains id then fastReleaseOwned id worker fence
  else
    match ← owned id worker fence with
    | none => pure .stale
    | some r =>
      let t₁ ← clockTimestamp
      if r.expiresAt.any (· ≤ t₁) then pure .stale
      else if r.cancelRequestedAt.isSome then pure .cancelRequested
      else
        let t₂ ← clockTimestamp
        if r.deadlineAt.any (· ≤ t₂) then expireOwned id worker fence
        else
          let t₃ ← clockTimestamp
          if r.attemptTimeoutAt.any (· ≤ t₃) then expireOwned id worker fence
          else if !(← unexpired r) then pure .stale
          else
            let runAt ← clockTimestamp
            let readyAt ← clockTimestamp
            let now ← clockTimestamp
            let sequence ← nextReadySequence
            write fun db => (db.setRuntime id { r with
              state := .ready, fenceToken := 0, runAt, readyAt := some readyAt
              sequence := some sequence, workerId := none, acquiredAt := none, heartbeatAt := none
              expiresAt := none, waitName := none, executionUsedMs := r.usedAt now
              attemptTimeoutAt := none, error := none }).addEvent
              id (some r.currentAttempt) .released
            pure .released

/-- `acknowledge_cancel_v1`. -/
def acknowledgeCancel (id : TaskId) (worker : String) (fence : Nat) : Tx Bool := do
  if (← database).fastRuntime.contains id then fastAcknowledgeCancel id worker fence
  else
    match ← owned id worker fence with
    | none => pure false
    | some r =>
      let t₁ ← clockTimestamp
      match r.cancelRequestedAt with
      | none => pure false
      | some at_ =>
        if r.expiresAt.any (· ≤ t₁) then pure false
        else
          let t₂ ← clockTimestamp
          if !r.expiresAt.any (t₂ < ·) then pure false
          else
            let error := some (r.cancellation at_)
            close id r .canceled fence none error
            write fun db => (db.addAttempt (r.closedAttempt id .canceled error)).addEvent
              id (some r.currentAttempt) .canceled
            pure true

def Status.closed : Status → Bool
  | .ready | .scheduled | .failed | .released | .deadlineExceeded | .timeoutExceeded => true
  | _ => false

end Workhorse
