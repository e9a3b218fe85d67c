import Mathlib.Data.List.Sort
import Workhorse.Schema.Rows

/-!
# Enqueue requests

The members of an enqueue request, with the types that the schema requires of them.
-/

namespace Workhorse

/-- The member `dependencies`: one set of outcome policies for every prerequisite. -/
structure Dependencies where
  prerequisiteTaskIds : List TaskId
  onSuccess : Action
  onFailure : Action
  onCancellation : Action
deriving DecidableEq

/-- The member `idempotency`. -/
structure IdempotencyKey where
  key : String
  scope : Option String
  ttlMs : Option Nat
deriving DecidableEq

namespace IdempotencyKey

/-- The row that the key names in `enqueue_idempotency`. -/
def identity (i : IdempotencyKey) : String × String := (i.scope.getD "default", i.key)

def ttl (i : IdempotencyKey) : Nat := i.ttlMs.getD 86400000

end IdempotencyKey

structure Request where
  queue : String
  type : String
  payload : Jsonb
  priority : Option Nat
  concurrencyKey : Option String
  budget : Option String
  contractVersion : Option String
  payloadMaxBytes : Option Nat
  resultMaxBytes : Option Nat
  sensitivePayloadKeys : List String
  sensitiveResultKeys : List String
  tags : List String
  runAt : Option Time
  deadline : Option Time
  executionTimeoutMs : Option Nat
  maxAttempts : Option Nat
  retryPolicy : Option RetryPolicy
  prerequisiteTaskId : Option TaskId
  dependencies : Option Dependencies
  idempotency : Option IdempotencyKey
deriving DecidableEq

namespace Request

/-- The dependency policies of a request. A single prerequisite has the default ones. -/
def policies (r : Request) : Dependencies :=
  match r.dependencies with
  | some d => { d with prerequisiteTaskIds := d.prerequisiteTaskIds.insertionSort (· ≤ ·) }
  | none => ⟨r.prerequisiteTaskId.toList, .release, .fail, .cancel⟩

def prerequisites (r : Request) : List TaskId := r.policies.prerequisiteTaskIds

def edge (r : Request) : Dependency := ⟨r.policies.onSuccess, r.policies.onFailure, r.policies.onCancellation, none⟩

/-- What is stored of a request to recognise it by. Two fingerprints are compared as `jsonb`. -/
def fingerprint (r : Request) : Request :=
  { r with
    payload := r.payload.canonical
    priority := some (r.priority.getD 0)
    payloadMaxBytes := some (r.payloadMaxBytes.getD 1048576)
    resultMaxBytes := some (r.resultMaxBytes.getD 1048576)
    sensitivePayloadKeys := r.sensitivePayloadKeys.insertionSort (· ≤ ·)
    sensitiveResultKeys := r.sensitiveResultKeys.insertionSort (· ≤ ·)
    tags := r.tags.dedup.insertionSort (· ≤ ·)
    maxAttempts := some (r.maxAttempts.getD 25)
    prerequisiteTaskId := if r.dependencies.isSome then none else r.prerequisiteTaskId
    dependencies := r.dependencies.map fun _ => r.policies
    idempotency := r.idempotency.map fun i => ⟨"", none, some i.ttl⟩ }

end Request

inductive RequestField
  | budget
  | concurrencyKey
  | contractVersion
  | deadline
  | dependencies
  | executionTimeoutMs
  | maxAttempts
  | payload
  | payloadMaxBytes
  | prerequisiteTaskId
  | priority
  | queue
  | resultMaxBytes
  | retryPolicy
  | runAt
  | sensitivePayloadKeys
  | sensitiveResultKeys
  | tags
  | ttlMs
  | type
deriving DecidableEq

def RequestField.all : List RequestField :=
  [budget, concurrencyKey, contractVersion, deadline, dependencies, executionTimeoutMs, maxAttempts,
    payload, payloadMaxBytes, prerequisiteTaskId, priority, queue, resultMaxBytes, retryPolicy, runAt,
    sensitivePayloadKeys, sensitiveResultKeys, tags, ttlMs, type]

/-- The `jsonb` value of a member. -/
inductive FieldValue
  | null
  | text (s : String)
  | texts (ss : List String)
  | number (n : Nat)
  | instant (t : Time)
  | task (id : TaskId)
  | json (j : Jsonb)
  | policy (p : RetryPolicy)
  | dependencies (d : Dependencies)
deriving DecidableEq

/-- The value of a member that is `null` unless the request has it. -/
def FieldValue.ofOption {α : Type} (f : α → FieldValue) : Option α → FieldValue
  | none => null
  | some a => f a

namespace Request

/-- A member of a fingerprint, `v_fingerprint -> field`. Only `budget` may be absent. -/
def member (f : Request) : RequestField → Option FieldValue
  | .budget => f.budget.map .text
  | .concurrencyKey => some (.ofOption .text f.concurrencyKey)
  | .contractVersion => some (.ofOption .text f.contractVersion)
  | .deadline => some (.ofOption .instant f.deadline)
  | .dependencies => some (.ofOption .dependencies f.dependencies)
  | .executionTimeoutMs => some (.ofOption .number f.executionTimeoutMs)
  | .maxAttempts => some (.ofOption .number f.maxAttempts)
  | .payload => some (.json f.payload)
  | .payloadMaxBytes => some (.ofOption .number f.payloadMaxBytes)
  | .prerequisiteTaskId => some (.ofOption .task f.prerequisiteTaskId)
  | .priority => some (.ofOption .number f.priority)
  | .queue => some (.text f.queue)
  | .resultMaxBytes => some (.ofOption .number f.resultMaxBytes)
  | .retryPolicy => some (.ofOption .policy f.retryPolicy)
  | .runAt => some (.ofOption .instant f.runAt)
  | .sensitivePayloadKeys => some (.texts f.sensitivePayloadKeys)
  | .sensitiveResultKeys => some (.texts f.sensitiveResultKeys)
  | .tags => some (.texts f.tags)
  | .ttlMs => some (.ofOption .number (f.idempotency.map IdempotencyKey.ttl))
  | .type => some (.text f.type)

def conflictingFields (stored new : Request) : List RequestField :=
  RequestField.all.filter fun m => (new.member m).isSome && stored.member m ≠ new.member m

end Request

end Workhorse
