import Mathlib.Data.Rat.Defs

/-!
# Column types

The enumerations, envelopes and policies that the relations of `sql/schema/current.sql` store.
-/

namespace Workhorse

/-- A `timestamptz`, in microseconds since the epoch. -/
abbrev Time := Int

/-- A task identity. The order of `uuid` values is the order of the naturals. -/
abbrev TaskId := Nat

/-- A `jsonb` value, held as the text that it prints. -/
structure Jsonb where
  text : String
deriving DecidableEq

namespace Jsonb

def null : Jsonb := ⟨"null"⟩

/-- The size of a value, `octet_length(value::text)`. -/
def octetLength (j : Jsonb) : Nat := j.text.utf8ByteSize

/-- Where a reader of a text is: in a string, or in a fraction with the zeros that it has not copied. -/
inductive Reading
  | outside
  | string (escaped : Bool)
  | fraction (pending : List Char)

/-- Numbers print with their scale. The value of `1.0` is that of `1`, so the last zeros of a fraction go. -/
def dropScale : Reading → List Char → List Char
  | _, [] => []
  | .string true, c :: cs => c :: dropScale (.string false) cs
  | .string false, c :: cs => c :: dropScale (if c = '\x22' then .outside else .string (c = '\x5c')) cs
  | .fraction pending, c :: cs =>
    if c = '0' then dropScale (.fraction (pending ++ [c])) cs
    else if c.isDigit then pending ++ c :: dropScale (.fraction []) cs
    else c :: dropScale .outside cs
  | .outside, c :: cs =>
    if c = '.' then dropScale (.fraction [c]) cs
    else c :: dropScale (if c = '\x22' then .string false else .outside) cs

def canonical (j : Jsonb) : Jsonb := ⟨String.ofList (dropScale .outside j.text.toList)⟩

/-- The `=` of `jsonb`, which compares values and not texts. -/
abbrev Equal (i j : Jsonb) : Prop := i.canonical = j.canonical

example : (Jsonb.mk "[1.50, \"2.0\", -10.00]").Equal ⟨"[1.5, \"2.0\", -10]"⟩ := by decide +kernel

end Jsonb

/-- An interval of milliseconds, in the unit of `Time`. -/
def milliseconds (ms : Int) : Time := ms * 1000

/-- `task_runtime.state`. -/
inductive RuntimeState
  | blocked
  | scheduled
  | ready
  | active
deriving DecidableEq

/-- `task_outcome.state`. -/
inductive OutcomeState
  | succeeded
  | failed
  | canceled
deriving DecidableEq

/-- What a dependency edge does with its dependent once its prerequisite is terminal. -/
inductive Action
  | release
  | cancel
  | fail
deriving DecidableEq

namespace Action

/-- The actions that reject a dependent, `resolution IN ('fail', 'cancel')`. -/
def rejects : Action → Bool
  | release => false
  | cancel => true
  | fail => true

def rank : Action → Nat
  | fail => 0
  | _ => 1

end Action

/-- `attempt_history.outcome`. -/
inductive AttemptOutcome
  | succeeded
  | failed
  | retry
  | leaseExpired
  | canceled
  | deadlineExceeded
  | timeout
deriving DecidableEq

/-- `task_event.event_type`, for the events the modelled functions record. -/
inductive EventType
  | enqueued
  | dependencyBlocked
  | dependencyReleased
  | dependencyFailed
  | dependencyCanceled
  | dependencyCounterRepaired
  | promoted
  | claimed
  | released
  | retryScheduled
  | succeeded
  | failed
  | cancelRequested
  | canceled
  | leaseExpired
  | deadlineExceeded
  | executionTimedOut
  | checkpointSaved
  | progressUpdated
  | waitScheduled
  | waitElapsed
  | waitReplayed
  | signalWaiting
  | signalReplayed
  | signalReceived
  | signalRejected
  | humanWaitCreated
  | humanWaitReplayed
  | humanWaitCompleted
  | humanWaitRejected
  | debounced
  | debounceRejected
deriving DecidableEq

inductive Envelope
  | given (error : Jsonb)
  /-- `redact_error_details_v1`. -/
  | redactedTaskError
  /-- `cancellation_envelope_v1`. -/
  | cancellationRequested (requestedAt : Time) (requestedBy reason : Option String)
  /-- `deadline_envelope_v1`. -/
  | deadlineExceeded (deadlineAt : Time)
  /-- `timeout_envelope_v1`. -/
  | executionTimeout (timeoutMs : Option Nat) (timeoutAt : Time)
  | leaseExpired
  | dependencyFailed (prerequisite : TaskId) (state : Option OutcomeState)
  | dependencyCanceled (prerequisite : TaskId) (state : Option OutcomeState)
  | taskValueSizeLimitError (taskType : String)
deriving DecidableEq

/-- `redact_error_details_v1`. -/
def redactErrorDetails (error : Option Envelope) (redact : Bool) : Option Envelope :=
  if redact then error.map fun _ => .redactedTaskError else error

inductive Status
  | accepted
  | stale
  | cancelRequested
  | deadlineExceeded
  | timeoutExceeded
  | notDue
  | busy
  | ready
  | scheduled
  | failed
  | released
deriving DecidableEq

/-- A retry policy that `normalize_retry_policy_v1` accepts. -/
inductive RetryPolicy
  | fixed (delayMs : Nat)
  | exponential (initialDelayMs multiplier maxDelayMs : Nat)
  | decorrelatedJitter (baseDelayMs maxDelayMs : Nat)
deriving DecidableEq

/-- A token bucket rule: `limit` starts per `intervalMs`, with at most `burst` saved up. -/
structure RateRule where
  limit : Nat
  intervalMs : Nat
  burst : Nat
  limit_pos : 0 < limit
  interval_pos : 0 < intervalMs
  burst_pos : 0 < burst
deriving DecidableEq

/-- `queue_control.tier`. -/
inductive Tier
  | fast
  | full
deriving DecidableEq

end Workhorse
