import Mathlib.Data.Prod.Lex
import Workhorse.Lib.EdgeWalk
import Workhorse.Lib.FirstBy
import Workhorse.Task.Enqueue

/-!
# Redrive

`redrive_v1`, `redrive_many_v1` and `redrive_lineage_v1`. The calls of several connections run with each
other's commits between their statements: a call locks its source and request id, looks for the row of an
earlier call, and only then creates the copy. The locks are held until the commit.
-/

namespace Workhorse

/-- A row of `task_redrive`. A request id stands for its hash. -/
structure Redrive where
  source : TaskId
  target : TaskId
  requestId : String
  requestedBy : String
  reason : String
  requestedAt : Time
deriving DecidableEq

def Redrive.key (e : Redrive) : TaskId × String := (e.source, e.requestId)

/-- The arguments of `redrive_v1`. -/
structure RedriveCall where
  source : TaskId
  requestedBy : String
  reason : String
  requestId : String
deriving DecidableEq

def RedriveCall.key (c : RedriveCall) : TaskId × String := (c.source, c.requestId)

inductive RedriveFault
  | raised (message : String)
  /-- `P1002`, with the target of the stored request and the members that conflict. -/
  | conflict (existingTarget : TaskId) (conflictingFields : List String)
deriving DecidableEq

inductive TaskState
  | runtime (state : RuntimeState)
  | fastRuntime (state : FastState)
  | outcome (state : OutcomeState)
deriving DecidableEq

inductive RedriveStatus
  | redriven
  | replayed
  | notFound
  | notFailed
deriving DecidableEq

structure RedriveReply where
  status : RedriveStatus
  source : TaskId
  target : Option TaskId
  sourceState : Option TaskState
  targetState : Option TaskState
  requestedAt : Option Time
deriving DecidableEq

structure RedriveCopy where
  redrive : Redrive
  task : Task
  fast : Bool
  /-- The value of `ready_sequence_seq`. -/
  sequence : Nat

/-! ## One call -/

namespace RedriveCall

def check (c : RedriveCall) : Except RedriveFault Unit :=
  if c.requestedBy = "" ∨ 200 < c.requestedBy.length then
    .error (.raised "requested_by must contain between 1 and 200 characters")
  else if c.reason = "" ∨ 2000 < c.reason.length then
    .error (.raised "reason must contain between 1 and 2000 characters")
  else if c.requestId = "" ∨ 512 < c.requestId.utf8ByteSize then
    .error (.raised "request_id must contain between 1 and 512 UTF-8 bytes")
  else .ok ()

def conflictingFields (c : RedriveCall) (e : Redrive) : List String :=
  (if e.reason ≠ c.reason then ["reason"] else []) ++ if e.requestedBy ≠ c.requestedBy then ["requestedBy"] else []

def existing (c : RedriveCall) (rows : List Redrive) : Option Redrive := rows.find? fun e => e.key = c.key

end RedriveCall

namespace Db

def runtimeState (db : Db) (id : TaskId) : Option TaskState := ((db.runtime.get? id).map fun r => .runtime r.state).or
    ((db.fastRuntime.get? id).map fun r => .fastRuntime r.state)

def outcomeState (db : Db) (id : TaskId) : Option TaskState := ((db.outcomes.get? id).map fun o => .outcome o.state).or
    ((db.fastOutcomes.get? id).map fun o => .outcome o.state)

end Db

namespace RedriveCall

def replay (c : RedriveCall) (db : Db) (e : Redrive) : Except RedriveFault RedriveReply :=
  if c.conflictingFields e ≠ [] then .error (.conflict e.target (c.conflictingFields e))
  else .ok ⟨.replayed, c.source, some e.target, some (.outcome .failed),
    (db.runtimeState e.target).or (db.outcomeState e.target), some e.requestedAt⟩

def create (c : RedriveCall) (db : Db) (now : Time) (target : TaskId) (sequence : Nat) :
    Except RedriveFault (RedriveReply × Option RedriveCopy) :=
  match db.tasks.get? c.source with
  | none => .ok (⟨.notFound, c.source, none, none, none, none⟩, none)
  | some task =>
    let fast := db.isFast task.queueName
    if db.outcomeState c.source ≠ some (.outcome .failed) then
      .ok (⟨.notFailed, c.source, none, (db.outcomeState c.source).or (db.runtimeState c.source), none, none⟩, none)
    else if fast = true ∧ task.concurrencyKey.isSome = true then
      .error (.raised ("fast-tier queue " ++ task.queueName ++ " does not support concurrency keys"))
    else if fast = true ∧ task.budgetName.isSome = true then
      .error (.raised ("fast-tier queue " ++ task.queueName ++ " does not support budgets"))
    else
      .ok (⟨.redriven, c.source, some target, some (.outcome .failed), some (.runtime .ready), some now⟩,
        some ⟨⟨c.source, target, c.requestId, c.requestedBy, c.reason, now⟩,
          { task with deadlineAt := none }, fast, sequence⟩)

end RedriveCall

namespace RedriveCopy

def runtime (r : RedriveCopy) : Runtime where
  queueName := r.task.queueName
  concurrencyKey := r.task.concurrencyKey
  state := .ready
  currentAttempt := 1
  fenceToken := 0
  runAt := r.redrive.requestedAt
  readyAt := some r.redrive.requestedAt
  sequence := some r.sequence
  workerId := none
  acquiredAt := none
  heartbeatAt := none
  expiresAt := none
  deadlineAt := none
  executionUsedMs := 0
  attemptTimeoutAt := none
  waitName := none
  attemptStartedAt := none
  cancelRequestedAt := none
  cancelRequestedBy := none
  cancelReason := none
  error := none
  previousRetryDelayMs := none
  priority := r.task.priority
  budgetName := r.task.budgetName
  pendingPrerequisites := 0
  dependencyRejected := false
  admissionShard := none

def fastRuntime (r : RedriveCopy) : FastRuntime where
  queueName := r.task.queueName
  taskType := r.task.taskType
  state := .ready
  priority := r.task.priority
  runAt := r.redrive.requestedAt
  sequence := r.sequence
  resultMaxBytes := r.task.resultMaxBytes
  redact := r.task.redacts
  retryPolicy := r.task.retryPolicy
  maxAttempts := r.task.maxAttempts
  attempt := 1
  fenceToken := 0
  workerId := none
  claimedAt := none
  expiresAt := none
  deadlineAt := none
  executionTimeoutMs := r.task.executionTimeoutMs
  attemptTimeoutAt := none
  previousRetryDelayMs := none
  cancelRequestedAt := none
  cancelRequestedBy := none
  cancelReason := none
  errors := []
  errorsDropped := 0
  enqueuedAt := r.redrive.requestedAt

def insert (r : RedriveCopy) (db : Db) : Db :=
  if r.fast then db.createFast r.redrive.target r.task r.fastRuntime
  else db.create r.redrive.target r.task r.runtime

end RedriveCopy

/-! ## Interleaved calls -/

/-- The sources of `redrive_many_v1`: the failed tasks that its filter and cursor select, oldest first. -/
def redriveCandidates (db : Db) (selects : TaskId → Bool) (limit : Nat) : List TaskId :=
  let failed := (db.outcomes.rows.filter fun e => e.2.state = .failed).map (fun e => (e.2.finishedAt, e.1)) ++
    (db.fastOutcomes.rows.filter fun e => e.2.state = .failed).map fun e => (e.2.finishedAt, e.1)
  ((failed.filter fun e => db.tasks.contains e.2 && selects e.2).firstBy
    (fun e => toLex (e.1, e.2)) limit).map Prod.snd

structure OpenRedrive where
  todo : List RedriveCall
  held : List (TaskId × String)
  missed : Bool
  copies : List RedriveCopy

def OpenRedrive.rows (o : OpenRedrive) : List Redrive := o.copies.map RedriveCopy.redrive

structure Redrives where
  db : Db
  rows : List Redrive
  running : Table Nat OpenRedrive

namespace Redrives

def initial (db : Db) : Redrives := ⟨db, [], .empty⟩

def set (σ : Redrives) (conn : Nat) (o : OpenRedrive) : Redrives :=
  { σ with running := σ.running.put conn o }

def close (σ : Redrives) (conn : Nat) : Redrives := { σ with running := σ.running.erase conn }

def view (σ : Redrives) (o : OpenRedrive) : Db × List Redrive :=
  (o.copies.foldl (fun db r => r.insert db) σ.db, σ.rows ++ o.rows)

def Taken (σ : Redrives) (target : TaskId) : Prop := (∃ e ∈ σ.rows, e.target = target) ∨
    ∃ conn o, σ.running.get? conn = some o ∧ ∃ e ∈ o.rows, e.target = target

/-- What a run shows: the answers of its calls, and the redrive targets that it deletes. -/
inductive Event
  | answered (c : RedriveCall) (outcome : Except RedriveFault RedriveReply)
  | deleted (target : TaskId)

inductive Step : Redrives → List Event → Redrives → Prop
  | redrive {σ : Redrives} {conn : Nat} {c : RedriveCall} (hconn : σ.running.get? conn = none)
      (hcheck : c.check = .ok ()) :
      Step σ [] (σ.set conn ⟨[c], [], false, []⟩)
  | redriveMany {σ : Redrives} {conn : Nat} {selects : TaskId → Bool} {limit : Nat}
      {requestedBy reason requestId : String} (hconn : σ.running.get? conn = none)
      (hlimit : 1 ≤ limit ∧ limit ≤ 1000)
      (hcheck : (RedriveCall.mk 0 requestedBy reason requestId).check = .ok ()) :
      Step σ [] (σ.set conn ⟨(redriveCandidates σ.db selects limit).map fun id =>
        ⟨id, requestedBy, reason, requestId⟩, [], false, []⟩)
  /-- A lock is waited for until no other transaction holds it. -/
  | lock {σ : Redrives} {conn : Nat} {o : OpenRedrive} {c : RedriveCall} {cs : List RedriveCall}
      (hconn : σ.running.get? conn = some o) (hc : o.todo = c :: cs)
      (hfree : ∀ conn' o', σ.running.get? conn' = some o' → conn' ≠ conn → c.key ∉ o'.held) :
      Step σ [] (σ.set conn { o with held := c.key :: o.held })
  | replay {σ : Redrives} {conn : Nat} {o : OpenRedrive} {c : RedriveCall} {cs : List RedriveCall}
      {e : Redrive} {reply : RedriveReply} (hconn : σ.running.get? conn = some o) (hc : o.todo = c :: cs)
      (hheld : c.key ∈ o.held) (he : c.existing (σ.view o).2 = some e)
      (h : c.replay (σ.view o).1 e = .ok reply) :
      Step σ [.answered c (.ok reply)] (σ.set conn { o with todo := cs })
  | conflict {σ : Redrives} {conn : Nat} {o : OpenRedrive} {c : RedriveCall} {cs : List RedriveCall}
      {e : Redrive} {fault : RedriveFault} (hconn : σ.running.get? conn = some o) (hc : o.todo = c :: cs)
      (hheld : c.key ∈ o.held) (he : c.existing (σ.view o).2 = some e)
      (h : c.replay (σ.view o).1 e = .error fault) :
      Step σ [.answered c (.error fault)] (σ.close conn)
  | miss {σ : Redrives} {conn : Nat} {o : OpenRedrive} {c : RedriveCall} {cs : List RedriveCall}
      (hconn : σ.running.get? conn = some o) (hc : o.todo = c :: cs) (hheld : c.key ∈ o.held)
      (he : c.existing (σ.view o).2 = none) :
      Step σ [] (σ.set conn { o with missed := true })
  /-- The unique index on the targets, and the check that a task is not its own target, let no other
  identity pass. -/
  | create {σ : Redrives} {conn : Nat} {o : OpenRedrive} {c : RedriveCall} {cs : List RedriveCall}
      {now : Time} {target : TaskId} {sequence : Nat} {reply : RedriveReply} {copy : Option RedriveCopy}
      (hconn : σ.running.get? conn = some o) (hc : o.todo = c :: cs) (hmissed : o.missed = true)
      (htarget : ¬σ.Taken target ∧ target ≠ c.source)
      (h : c.create (σ.view o).1 now target sequence = .ok (reply, copy)) :
      Step σ [.answered c (.ok reply)] (σ.set conn
        { o with todo := cs, missed := false, copies := o.copies ++ copy.toList })
  | refuse {σ : Redrives} {conn : Nat} {o : OpenRedrive} {c : RedriveCall} {cs : List RedriveCall}
      {now : Time} {target : TaskId} {sequence : Nat} {fault : RedriveFault}
      (hconn : σ.running.get? conn = some o) (hc : o.todo = c :: cs) (hmissed : o.missed = true)
      (h : c.create (σ.view o).1 now target sequence = .error fault) :
      Step σ [.answered c (.error fault)] (σ.close conn)
  | commit {σ : Redrives} {conn : Nat} {o : OpenRedrive} (hconn : σ.running.get? conn = some o)
      (hdone : o.todo = []) :
      Step σ [] ⟨(σ.view o).1, (σ.view o).2, σ.running.erase conn⟩
  | abort (σ : Redrives) (conn : Nat) : Step σ [] (σ.close conn)
  /-- Other transactions change the tasks. A row goes with its target. -/
  | other (σ : Redrives) (db : Db) :
      Step σ ((σ.rows.filter fun e => !db.tasks.contains e.target).map fun e => .deleted e.target)
        { σ with db := db, rows := σ.rows.filter fun e => db.tasks.contains e.target }

inductive Run : Redrives → List Event → Redrives → Prop
  | refl (σ : Redrives) : Run σ [] σ
  | tail {σ σ' σ'' : Redrives} {events events' : List Event} (h : Run σ events σ')
      (hs : Step σ' events' σ'') : Run σ (events ++ events') σ''

end Redrives

/-! ## Lineage -/

def Redrive.before (e e' : Redrive) : Bool := e.requestedAt < e'.requestedAt || (e.requestedAt = e'.requestedAt &&
    (e.source < e'.source || (e.source = e'.source && e.target ≤ e'.target)))

def redriveGraph (rows : List Redrive) : EdgeWalk.Graph TaskId Redrive TaskId where
  edges := rows.insertionSort fun e e' => e.before e'
  source := Redrive.source
  target := Redrive.target
  key := Redrive.target

/-- `redrive_lineage_v1`. -/
def redriveLineage (rows : List Redrive) (task : TaskId) (limit : Nat) : Except RedriveFault (List Redrive) :=
  if limit < 1 ∨ 1001 < limit then
    .error (.raised "redrive lineage limit must be between 1 and 1001")
  else .ok (((redriveGraph rows).collected limit task).filterMap fun target =>
    rows.find? fun e => e.target = target)

end Workhorse
