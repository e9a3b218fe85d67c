import Workhorse.Dependency.Validate
import Workhorse.Task.Retry

/-!
# Enqueue

`enqueue_batch_v1`. A batch locks its prerequisites, then checks its requests one by one against what
is committed at that moment, buffers the rows of the accepted ones, and writes them all at the end.
Every function below is one stage of that, so that the stages can also run with other transactions
between them.
-/

namespace Workhorse

structure Batch where
  now : Time
  fastQueues : List String
  locked : List TaskId
  keys : List ((String × String) × Idempotency)
  full : List (TaskId × Task × Runtime)
  edges : List ((TaskId × TaskId) × Dependency)
  fast : List (TaskId × Task × FastRuntime)
  replies : List (TaskId × Bool)

def Db.isFast (db : Db) (queue : String) : Bool := (db.queueControl.get? queue).any (·.tier == .fast)

def ensureIdempotency (r : Request) : Tx Unit := do
  match r.idempotency with
  | none => pure ()
  | some i =>
    ensure (i.key ≠ "" ∧ i.key.utf8ByteSize ≤ 512)
      "idempotency key must contain between 1 and 512 UTF-8 bytes"
    ensure (i.identity.1 ≠ "" ∧ i.identity.1.utf8ByteSize ≤ 256)
      "idempotency scope must contain between 1 and 256 UTF-8 bytes"
    ensure (1 ≤ i.ttl ∧ i.ttl ≤ maxDelayMs)
      "idempotency ttlMs must be an integer between 1 and 31536000000"

def openBatch (requests : List Request) : Tx Batch := do
  let now ← clockTimestamp
  ensure (requests.length ≤ 1000) "enqueue batch exceeds maximum size of 1000"
  requests.forM ensureIdempotency
  let db ← database
  pure {
    now
    fastQueues := (requests.map (·.queue)).filter fun q =>
      (db.queueControl.get? q).any (·.tier == .fast)
    locked := [], keys := [], full := [], edges := [], fast := [], replies := [] }

def lockPrerequisites (ids : List TaskId) (b : Batch) : Tx Batch := do
  let db ← database
  pure { b with locked := b.locked ++ ids.filter fun id => db.runtime.contains id }

/-- `reject_fast_feature_v1`. -/
def rejectFastFeature (queue feature : String) : Tx Unit :=
  raise ("fast-tier queue " ++ queue ++ " does not support " ++ feature)

/-- `set_queue_tier_v1`. A queue with live tasks keeps its tier, and so does one with policies that the
fast tier does not support. -/
def setQueueTier (queue : String) (tier : Tier) (requestedBy reason : String) : Tx Tier := do
  ensure (queue ≠ "") "queue_name must not be empty"
  ensure (requestedBy ≠ "" ∧ requestedBy.length ≤ 200)
    "requested_by must contain between 1 and 200 characters"
  ensure (reason ≠ "" ∧ reason.length ≤ 2000) "reason must contain between 1 and 2000 characters"
  let db ← database
  let control := (db.queueControl.get? queue).getD ⟨false, .full, false, false⟩
  if tier = control.tier then pure tier
  else
    if db.runtime.any (fun _ r => r.queueName = queue) ||
        db.fastRuntime.any (fun _ r => r.queueName = queue) then
      raise ("queue " ++ queue ++ " has live tasks, so its tier cannot change")
    if tier = .fast then
      if db.concurrencyPolicies.contains queue then rejectFastFeature queue "concurrency policies"
      if db.rateLimitPolicies.contains queue then rejectFastFeature queue "rate-limit policies"
    write fun db => { db with queueControl := db.queueControl.put queue { control with tier } }
    pure tier

def byteLimited (maximum : Nat) (text : String) : Bool := text ≠ "" && text.utf8ByteSize ≤ maximum

def charLimited (maximum : Nat) (text : String) : Bool := text ≠ "" && text.length ≤ maximum

/-- The checks on the members of a request, in the order of the source. -/
def ensureRequest (fast : Bool) (r : Request) : Tx Unit := do
  ensure (r.contractVersion.all (charLimited 100)) "contractVersion must contain 1 to 100 characters"
  let payloadMax := r.payloadMaxBytes.getD 1048576
  let resultMax := r.resultMaxBytes.getD 1048576
  ensure (1 ≤ payloadMax ∧ payloadMax ≤ 16777216 ∧ 1 ≤ resultMax ∧ resultMax ≤ 16777216)
    "payloadMaxBytes and resultMaxBytes must be integers between 1 and 16777216"
  ensure (r.payload.octetLength ≤ payloadMax) "payload exceeds its configured size limit"
  ensure (r.sensitivePayloadKeys.length ≤ 50 ∧ r.sensitiveResultKeys.length ≤ 50 ∧
      (r.sensitivePayloadKeys ++ r.sensitiveResultKeys).all (charLimited 200))
    "sensitive payload and result keys must contain at most 50 strings of 1 to 200 characters"
  ensure (r.sensitivePayloadKeys.Nodup ∧ r.sensitiveResultKeys.Nodup)
    "sensitive payload and result keys must contain unique values"
  ensure (r.concurrencyKey.all (byteLimited 256))
    "concurrencyKey must contain between 1 and 256 UTF-8 bytes"
  ensure (r.budget.all (byteLimited 256)) "budget must contain between 1 and 256 UTF-8 bytes"
  ensure (r.priority.getD 0 ≤ 100) "priority must be an integer between 0 and 100"
  let maxAttempts := r.maxAttempts.getD 25
  ensure (r.queue ≠ "" ∧ r.type ≠ "" ∧ r.tags.length ≤ 20 ∧ r.tags.all (charLimited 100) ∧
      1 ≤ maxAttempts ∧ maxAttempts ≤ 100)
    ("each request requires non-empty queue/type, maxAttempts between 1 and 100, and at most 20 " ++
      "non-empty tags of at most 100 characters")
  let _ ← normalizeRetryPolicy r.retryPolicy
  ensure (r.executionTimeoutMs.all fun t => 1 ≤ t && t ≤ maxDelayMs)
    "executionTimeoutMs must be an integer between 1 and 31536000000"
  ensure (r.prerequisiteTaskId.isNone ∨ r.dependencies.isNone)
    "prerequisiteTaskId and dependencies cannot be combined"
  ensure (r.dependencies.all fun d =>
      1 ≤ d.prerequisiteTaskIds.length && d.prerequisiteTaskIds.length ≤ 100)
    ("dependencies requires 1 to 100 UUID strings and release, cancel, or fail outcome policies")
  if fast then
    if r.concurrencyKey.isSome then rejectFastFeature r.queue "concurrency keys"
    if r.budget.isSome then rejectFastFeature r.queue "budgets"
    if r.dependencies.isSome then rejectFastFeature r.queue "dependencies"
    if r.prerequisites ≠ [] then rejectFastFeature r.queue "prerequisite tasks"
  ensure (r.prerequisites.Nodup) "dependency prerequisiteTaskIds must be unique"

def checkPrerequisites (r : Request) : Tx Unit := do
  let db ← database
  ensure (r.prerequisites.all fun id => db.tasks.contains id) "prerequisite task does not exist"
  match r.prerequisites.find? fun id => db.fastRuntime.contains id || db.fastOutcomes.contains id with
  | some id => throw (.rejected "P1007" "fast-tier task cannot be a prerequisite" id)
  | none => pure ()

def terminalAction (db : Db) (edge : Dependency) (id : TaskId) : Option Action :=
  (db.outcomes.get? id).map fun o => edge.actionOn o.state

structure Counts where
  pendingPrerequisites : Nat
  pendingEdges : Nat

def countPrerequisites (r : Request) : Tx Counts := do
  let db ← database
  pure {
    pendingPrerequisites := r.prerequisites.countP fun id => !db.outcomes.contains id
    pendingEdges := r.prerequisites.countP fun id =>
      (terminalAction db r.edge id).all (· ≠ .release) }

def isRejected (r : Request) : Tx Bool := do
  let db ← database
  pure (r.prerequisites.any fun id => (terminalAction db r.edge id).any Action.rejects)

def Request.task (r : Request) : Task where
  queueName := r.queue
  taskType := r.type
  concurrencyKey := r.concurrencyKey
  payload := r.payload
  contractVersion := r.contractVersion
  payloadMaxBytes := r.payloadMaxBytes.getD 1048576
  resultMaxBytes := r.resultMaxBytes.getD 1048576
  payloadRedactKeys := r.sensitivePayloadKeys.insertionSort (· ≤ ·)
  resultRedactKeys := r.sensitiveResultKeys.insertionSort (· ≤ ·)
  maxAttempts := r.maxAttempts.getD 25
  retryPolicy := r.retryPolicy
  deadlineAt := r.deadline
  executionTimeoutMs := r.executionTimeoutMs
  priority := r.priority.getD 0
  budgetName := r.budget

def Request.runtime (r : Request) (now : Time) (state : RuntimeState) (sequence : Option Nat)
    (pendingEdges : Nat) : Runtime where
  queueName := r.queue
  concurrencyKey := r.concurrencyKey
  state := state
  currentAttempt := 1
  fenceToken := 0
  runAt := r.runAt.getD now
  readyAt := if state = .ready then some now else none
  sequence := sequence
  workerId := none
  acquiredAt := none
  heartbeatAt := none
  expiresAt := none
  deadlineAt := r.deadline
  executionUsedMs := 0
  attemptTimeoutAt := none
  waitName := none
  attemptStartedAt := none
  cancelRequestedAt := none
  cancelRequestedBy := none
  cancelReason := none
  error := none
  previousRetryDelayMs := none
  priority := r.priority.getD 0
  budgetName := r.budget
  pendingPrerequisites := pendingEdges
  dependencyRejected := false
  admissionShard := none

def Request.fastRuntime (r : Request) (now : Time) (sequence : Nat) : FastRuntime where
  queueName := r.queue
  taskType := r.type
  state := .ready
  priority := r.priority.getD 0
  runAt := r.runAt.getD now
  sequence := sequence
  resultMaxBytes := r.resultMaxBytes.getD 1048576
  redact := r.task.redacts
  retryPolicy := r.retryPolicy
  maxAttempts := r.maxAttempts.getD 25
  attempt := 1
  fenceToken := 0
  workerId := none
  claimedAt := none
  expiresAt := none
  deadlineAt := r.deadline
  executionTimeoutMs := r.executionTimeoutMs
  attemptTimeoutAt := none
  previousRetryDelayMs := none
  cancelRequestedAt := none
  cancelRequestedBy := none
  cancelReason := none
  errors := []
  errorsDropped := 0
  enqueuedAt := now

/-- The identity that a request gets, and whether it is new: a retained key replays its first
request, and an expired one is taken over. -/
def resolveIdentity (r : Request) (b : Batch) : Tx (TaskId × Bool × Batch) := do
  let proposed ← asking Host.uuid
  match r.idempotency with
  | none => pure (proposed, true, b)
  | some i =>
    let entry : Idempotency := ⟨r.fingerprint, proposed, b.now + milliseconds i.ttl, false⟩
    match (b.keys.lookup i.identity).or ((← database).idempotency.get? i.identity) with
    | none => pure (proposed, true, { b with keys := (i.identity, entry) :: b.keys })
    | some stored =>
      if stored.expiresAt ≤ b.now then
        let proposed ← asking Host.uuid
        let entry := { entry with taskId := proposed }
        pure (proposed, true, { b with keys := (i.identity, entry) :: b.keys })
      else if stored.fingerprint ≠ r.fingerprint then
        throw (.rejected "P1001" "enqueue idempotency conflict with a retained request" stored.taskId
          (stored.fingerprint.conflictingFields r.fingerprint))
      else pure (stored.taskId, false, b)

def startState (now : Time) (r : Request) (c : Counts) (rejected : Bool) : RuntimeState :=
  if rejected || 0 < c.pendingPrerequisites then .blocked
  else if r.runAt.getD now ≤ now then .ready
  else .scheduled

def bufferRequest (r : Request) (c : Counts) (rejected : Bool) (b : Batch) : Tx Batch := do
  let (id, isNew, b) ← resolveIdentity r b
  let b := { b with replies := b.replies ++ [(id, isNew)] }
  if !isNew then pure b
  else if b.fastQueues.contains r.queue then
    let sequence ← nextReadySequence
    let task := { r.task with concurrencyKey := none, budgetName := none }
    pure { b with fast := b.fast ++ [(id, task, r.fastRuntime b.now sequence)] }
  else
    let state := startState b.now r c rejected
    let sequence ← if state = .ready then some <$> nextReadySequence else pure none
    pure { b with
      full := b.full ++ [(id, r.task, r.runtime b.now state sequence c.pendingEdges)]
      edges := b.edges ++ r.prerequisites.map fun p => ((id, p), r.edge) }

def enqueueRequest (b : Batch) (r : Request) : Tx Batch := do
  ensureRequest (b.fastQueues.contains r.queue) r
  let b ← lockPrerequisites r.prerequisites b
  checkPrerequisites r
  let counts ← countPrerequisites r
  let rejected ← isRejected r
  bufferRequest r counts rejected b

/-- An edge to a prerequisite that is terminal already is released at once if its policy says so. -/
def releaseImmediately (db : Db) (now : Time) (e : (TaskId × TaskId) × Dependency) : (TaskId × TaskId) × Dependency :=
  if terminalAction db e.2 e.1.2 = some .release then
    (e.1, { e.2 with resolved := some (now, .release) })
  else e

/-- Read the outcomes that the insert of the edges joins. It reads nothing that the batch writes. -/
def decideEdges (b : Batch) : Tx Batch := do
  let db ← database
  pure { b with edges := b.edges.map (releaseImmediately db b.now) }

def terminalPrerequisites (db : Db) (edges : List ((TaskId × TaskId) × Dependency)) : List (TaskId × OutcomeState) :=
  (byId (edges.map (·.1.2)).dedup).filterMap fun id =>
    (db.outcomes.get? id).map fun o => (id, o.state)

def insertBatchEdges (b : Batch) : Tx Unit := do
  insertEdges b.edges
  write fun db => b.edges.foldl (fun db e => db.addEvent e.1.1 none
    (if e.2.pending then .dependencyBlocked else .dependencyReleased)) db
  let terminal := terminalPrerequisites (← database) b.edges
  if terminal ≠ [] then
    perform fun s => ((), resolveDependentsMany onOutcomes terminal s)

def pastDeadline {α : Type} (now : Time) (rows : List (TaskId × Task × α)) : List TaskId :=
  (rows.filter fun e => e.2.1.deadlineAt.any (· ≤ now)).map Prod.fst

def Db.create (db : Db) (id : TaskId) (t : Task) (r : Runtime) : Db :=
  { db with tasks := db.tasks.put id t, runtime := db.runtime.put id r }

def Db.createFast (db : Db) (id : TaskId) (t : Task) (r : FastRuntime) : Db :=
  { db with tasks := db.tasks.put id t, fastRuntime := db.fastRuntime.put id r }

/-- Write the full-tier rows of a batch and its edges, and settle the rows past their deadline. -/
def insertFull (b : Batch) : Tx Unit := do
  write fun db => b.full.foldl (fun db e => db.create e.1 e.2.1 e.2.2) db
  if b.edges ≠ [] then insertBatchEdges b
  write fun db => b.full.foldl (fun db e => db.addEvent e.1 none .enqueued) db
  (pastDeadline b.now b.full).forM fun id => do
    let _ ← perform (terminalizeDeadline id)

def insertFast (b : Batch) : Tx Unit := do
  write fun db => b.fast.foldl (fun db e => db.createFast e.1 e.2.1 e.2.2) db
  (pastDeadline b.now b.fast).forM fun id => do
    let _ ← perform (fastTerminalizeDeadline id)

def Batch.ids (b : Batch) : List TaskId := b.full.map Prod.fst ++ b.fast.map Prod.fst

def insertBatch (b : Batch) : Tx Unit := do
  let db ← database
  if ¬(b.ids.Nodup ∧ ∀ id ∈ b.ids, db.tasks.contains id = false) then throw .uniqueViolation
  write fun db => { db with
    idempotency := b.keys.foldr (fun e t => t.put e.1 e.2) db.idempotency }
  insertFull b
  insertFast b

/-- `enqueue_batch_v1`. -/
def enqueueBatch (requests : List Request) : Tx (List (TaskId × Bool)) := do
  let b ← openBatch requests
  let b ← lockPrerequisites (requests.flatMap (·.prerequisites)).dedup b
  let b ← requests.foldlM enqueueRequest b
  let b ← decideEdges b
  insertBatch b
  pure b.replies

end Workhorse
