import Workhorse.Schema.Types

/-!
# Rows

One structure for each relation the modelled functions read or write. A nullable column is an
`Option`. Columns whose table constraint ties them together are one field, so that a row which
breaks the constraint cannot be written; the constraints of `task_runtime` are left to be proved.
-/

namespace Workhorse

/-- A row of `task`: the accepted definition. -/
structure Task where
  queueName : String
  taskType : String
  concurrencyKey : Option String
  payload : Jsonb
  contractVersion : Option String
  payloadMaxBytes : Nat
  resultMaxBytes : Nat
  payloadRedactKeys : List String
  resultRedactKeys : List String
  maxAttempts : Nat
  retryPolicy : Option RetryPolicy
  deadlineAt : Option Time
  executionTimeoutMs : Option Nat
  priority : Nat
  budgetName : Option String
deriving DecidableEq

def Task.redacts (t : Task) : Bool := t.payloadRedactKeys ≠ [] || t.resultRedactKeys ≠ []

/-- A row of `task_runtime`: the sole mutable row of a nonterminal task. -/
structure Runtime where
  queueName : String
  concurrencyKey : Option String
  state : RuntimeState
  currentAttempt : Nat
  fenceToken : Nat
  runAt : Time
  readyAt : Option Time
  sequence : Option Nat
  workerId : Option String
  acquiredAt : Option Time
  heartbeatAt : Option Time
  expiresAt : Option Time
  deadlineAt : Option Time
  executionUsedMs : Nat
  attemptTimeoutAt : Option Time
  waitName : Option String
  attemptStartedAt : Option Time
  cancelRequestedAt : Option Time
  cancelRequestedBy : Option String
  cancelReason : Option String
  error : Option Envelope
  previousRetryDelayMs : Option Nat
  priority : Nat
  budgetName : Option String
  pendingPrerequisites : Nat
  dependencyRejected : Bool
  admissionShard : Option Nat
deriving DecidableEq

/-- A row of `task_outcome`. -/
structure Outcome where
  state : OutcomeState
  currentAttempt : Nat
  fenceToken : Nat
  runAt : Time
  result : Option Jsonb
  error : Option Envelope
  finishedAt : Time
deriving DecidableEq

/-- A row of `task_dependency`, without its key. `resolved` holds `released_at` and `resolution`,
which are set together. -/
structure Dependency where
  onSuccess : Action
  onFailure : Action
  onCancellation : Action
  resolved : Option (Time × Action)
deriving DecidableEq

namespace Dependency

/-- `released_at IS NULL`. -/
def pending (d : Dependency) : Bool := d.resolved.isNone

def resolution (d : Dependency) : Option Action := d.resolved.map Prod.snd

/-- `resolution IN ('fail', 'cancel')`. -/
def rejects (d : Dependency) : Bool := d.resolution.any Action.rejects

def actionOn (d : Dependency) : OutcomeState → Action
  | .succeeded => d.onSuccess
  | .failed => d.onFailure
  | .canceled => d.onCancellation

end Dependency

/-- The worker, generation and attempt that a durable boundary was declared under. -/
structure Provenance where
  attempt : Nat
  fenceToken : Nat
  workerId : String
  claimedAt : Option Time
  createdAt : Time
deriving DecidableEq

/-- How a timed wait was requested: `mode` with `duration_ms` or `requested_wake_at`. -/
inductive WaitMode
  | relative (durationMs : Nat)
  | absolute (requestedWakeAt : Time)
deriving DecidableEq

/-- A row of `task_wait`. -/
structure TaskWait where
  mode : WaitMode
  wakeAt : Time
  provenance : Provenance
deriving DecidableEq

structure Delivery where
  payload : Jsonb
  idempotencyKey : String
  deliveredBy : String
  deliveredAt : Time
deriving DecidableEq

/-- A row of `task_signal_wait`. -/
structure SignalWait where
  delivery : Option Delivery
  timeoutAt : Time
  provenance : Provenance
deriving DecidableEq

/-- A row of `task_human_wait`. -/
structure HumanWait where
  context : Jsonb
  delivery : Option Delivery
  timeoutAt : Time
  provenance : Provenance
deriving DecidableEq

/-- A row of `task_checkpoint`. -/
structure Checkpoint where
  value : Jsonb
  attempt : Nat
  fenceToken : Nat
  workerId : String
  inputFingerprint : Option String
deriving DecidableEq

/-- A row of `task_progress`. -/
structure Progress where
  value : Jsonb
  revision : Nat
  attempt : Nat
  fenceToken : Nat
  workerId : String
  updatedAt : Time
deriving DecidableEq

/-- A row of `attempt_history`. -/
structure Attempt where
  taskId : TaskId
  attempt : Nat
  fenceToken : Nat
  workerId : Option String
  outcome : AttemptOutcome
  startedAt : Option Time
  claimedAt : Option Time
  error : Option Envelope
deriving DecidableEq

/-- A row of `task_event`. -/
structure Event where
  taskId : TaskId
  attempt : Option Nat
  eventType : EventType
deriving DecidableEq

structure FastError where
  attempt : Nat
  fenceToken : Nat
  workerId : Option String
  claimedAt : Option Time
  finishedAt : Time
  outcome : AttemptOutcome
  error : Option Envelope
deriving DecidableEq

/-- `fast_task_runtime.state`. -/
inductive FastState
  | ready
  | active
deriving DecidableEq

/-- A row of `fast_task_runtime`. -/
structure FastRuntime where
  queueName : String
  taskType : String
  state : FastState
  priority : Nat
  runAt : Time
  sequence : Nat
  resultMaxBytes : Nat
  redact : Bool
  retryPolicy : Option RetryPolicy
  maxAttempts : Nat
  attempt : Nat
  fenceToken : Nat
  workerId : Option String
  claimedAt : Option Time
  expiresAt : Option Time
  deadlineAt : Option Time
  executionTimeoutMs : Option Nat
  attemptTimeoutAt : Option Time
  previousRetryDelayMs : Option Nat
  cancelRequestedAt : Option Time
  cancelRequestedBy : Option String
  cancelReason : Option String
  errors : List FastError
  errorsDropped : Nat
  enqueuedAt : Time
deriving DecidableEq

structure Lease where
  expiresAt : Option Time
  deadlineAt : Option Time
  attemptTimeoutAt : Option Time
  cancelRequestedAt : Option Time

namespace Lease

/-- Whether a heartbeat at `now` extends the lease. -/
def renewable (l : Lease) (now : Time) : Bool :=
  l.cancelRequestedAt.isNone && l.deadlineAt.all (now < ·) && l.attemptTimeoutAt.all (now < ·) &&
    l.expiresAt.any (now < ·)

/-- The status a heartbeat at `now` returns for the lease it leaves. -/
def beat (l : Lease) (now : Time) : Status :=
  if l.cancelRequestedAt.isSome then .cancelRequested
  else if l.deadlineAt.any (· ≤ now) then .deadlineExceeded
  else if l.attemptTimeoutAt.any (· ≤ now) then .timeoutExceeded
  else if l.expiresAt.any (· ≤ now) then .stale
  else .accepted

end Lease

namespace Runtime

def lease (r : Runtime) : Lease := ⟨r.expiresAt, r.deadlineAt, r.attemptTimeoutAt, r.cancelRequestedAt⟩

def ownedBy (r : Runtime) (worker : String) (fence : Nat) : Bool :=
  r.state == .active && r.workerId == some worker && r.fenceToken == fence

def renewed (r : Runtime) (now : Time) (leaseMs : Nat) : Runtime :=
  if r.lease.renewable now then
    { r with heartbeatAt := some now, expiresAt := some (now + milliseconds leaseMs) }
  else r

end Runtime

namespace FastRuntime

def lease (r : FastRuntime) : Lease := ⟨r.expiresAt, r.deadlineAt, r.attemptTimeoutAt, r.cancelRequestedAt⟩

def ownedBy (r : FastRuntime) (worker : String) (fence : Nat) : Bool :=
  r.state == .active && r.workerId == some worker && r.fenceToken == fence

def renewed (r : FastRuntime) (now : Time) (leaseMs : Nat) : FastRuntime :=
  if r.lease.renewable now then { r with expiresAt := some (now + milliseconds leaseMs) } else r

end FastRuntime

/-- `fast_task_outcome.closed_as`. -/
inductive ClosedAs
  | canceled
  | deadlineExceeded
  | timeout
  | leaseExpired
deriving DecidableEq

/-- A row of `fast_task_outcome`. -/
structure FastOutcome where
  queueName : String
  taskType : String
  state : OutcomeState
  attempt : Nat
  result : Option Jsonb
  error : Option Envelope
  fenceToken : Option Nat
  workerId : Option String
  claimedAt : Option Time
  enqueuedAt : Time
  finishedAt : Time
  errors : List FastError
  errorsDropped : Nat
  closedAs : Option ClosedAs
deriving DecidableEq

/-- A row of `queue_control`. -/
structure QueueControl where
  paused : Bool
  tier : Tier
  recordAttempts : Bool
  recordClaims : Bool
deriving DecidableEq

/-- A row of `concurrency_policy`. -/
structure ConcurrencyPolicy where
  maxActive : Nat
  maxActivePerKey : Option Nat
  maxActive_pos : 0 < maxActive
  maxActivePerKey_le : ∀ k ∈ maxActivePerKey, 0 < k ∧ k ≤ maxActive

/-- A row of `rate_limit_policy`. -/
structure RateLimitPolicy where
  queue : RateRule
  perKey : Option RateRule
deriving DecidableEq

/-- A stored token bucket: a row of `rate_limit_bucket` or of `budget_bucket`. -/
structure Bucket where
  tokens : ℚ
  refilledAt : Time
deriving DecidableEq

/-- A row of `admission_shard`. Null tokens mean a full bucket. -/
structure AdmissionShard where
  tokens : Option ℚ
  refilledAt : Time
deriving DecidableEq

/-- A row of `budget`. -/
structure Budget where
  maxActive : Option Nat
  rate : Option RateRule
  limited : maxActive.isSome ∨ rate.isSome
deriving DecidableEq

end Workhorse
