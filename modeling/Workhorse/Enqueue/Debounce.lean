import Workhorse.Task.Enqueue

/-!
# Keyed debounce

`enqueue_debounce_v1`. The function samples the clock first, then waits for the lock of its key, and
works with the sample from there on. `debounceKey` is what it does under the lock. Calls on one key
are served one after another, in the order in which they get the lock.
-/

namespace Workhorse

inductive DebounceSchedule
  | reset
  | preserve
deriving DecidableEq

/-- The member `debounce`. -/
structure Debounce where
  key : String
  scope : Option String
  windowMs : Nat
  schedule : DebounceSchedule
deriving DecidableEq

namespace Debounce

/-- The row of the key in `enqueue_idempotency`. -/
def identity (d : Debounce) : String × String := (d.scope.getD "default", d.key)

def window (d : Debounce) : Time := milliseconds d.windowMs

def normalized (d : Debounce) (r : Request) (runAt : Time) : Request :=
  { r with
    runAt := some runAt
    idempotency := some ⟨d.key, some (d.scope.getD "default"), some d.windowMs⟩ }

end Debounce

inductive DebounceOutcome
  | accepted
  | replaced
  | nonReplaceable
  | replayed
deriving DecidableEq

def ensureDebounce (d : Debounce) (r : Request) : Tx Unit := do
  if (← database).isFast r.queue then rejectFastFeature r.queue "debounce"
  ensure r.idempotency.isNone "enqueue requests cannot combine idempotency and debounce"
  ensure r.runAt.isNone "debounced enqueue uses its PostgreSQL-owned window instead of runAt"
  ensure (r.prerequisiteTaskId.isNone ∧ r.dependencies.isNone)
    "enqueue requests cannot combine debounce or throttle with prerequisiteTaskId or dependencies"
  ensure (d.key ≠ "" ∧ d.key.utf8ByteSize ≤ 512) "debounce key must contain between 1 and 512 UTF-8 bytes"
  ensure (d.identity.1 ≠ "" ∧ d.identity.1.utf8ByteSize ≤ 256)
    "debounce scope must contain between 1 and 256 UTF-8 bytes"
  ensure (1 ≤ d.windowMs ∧ d.windowMs ≤ maxDelayMs)
    "debounce windowMs must be an integer between 1 and 31536000000"

/-- The pending row that a call inside the window may replace: it has never started an attempt and
holds no durable wait. -/
def replaceable (e : Idempotency) (row : Option Runtime) : Option Runtime :=
  row.filter fun r => e.debounce && (r.state = .ready || r.state = .scheduled) &&
    r.attemptStartedAt.isNone && r.waitName.isNone && r.currentAttempt ≤ 1

/-- Run the enqueue for its checks. Its conflict with the stored request is caught, and what it wrote
is undone; the two questions it put to the host are not. -/
def validateDebounced (request : Request) : Tx Unit := fun s =>
  match enqueueBatch [request] s with
  | .ok (_, s') => .ok ((), s')
  | .error (.rejected "P1001" _ _ _) => .ok ((), s.ask.ask)
  | .error fault => .error fault

def Runtime.debounced (row : Runtime) (request : Request) (sampled runAt : Time) (readyAt : Option Time)
    (sequence : Option Nat) : Runtime :=
  { row with
    queueName := request.queue
    concurrencyKey := request.concurrencyKey
    budgetName := request.budget
    priority := request.priority.getD 0
    state := if runAt ≤ sampled then .ready else .scheduled
    runAt
    readyAt := if runAt ≤ sampled then some (readyAt.getD sampled) else none
    sequence
    deadlineAt := request.deadline }

/-- The place in the queue of a replaced definition. A row that is ready keeps its own. -/
def replacedSequence (sampled runAt : Time) (row : Runtime) : Tx (Option Nat) :=
  if runAt ≤ sampled then
    if row.state = .ready then pure row.sequence else some <$> nextReadySequence
  else pure none

def replacePending (sampled : Time) (d : Debounce) (r : Request) (e : Idempotency) (row : Runtime) : Tx Unit := do
  let runAt := if d.schedule = .reset then sampled + d.window else row.runAt
  let expiresAt := if d.schedule = .reset then sampled + d.window else e.expiresAt
  let request := d.normalized r runAt
  validateDebounced request
  let _ ← normalizeRetryPolicy request.retryPolicy
  let sequence ← replacedSequence sampled runAt row
  write fun db => { db with
    tasks := db.tasks.modify e.taskId fun _ => request.task
    runtime := db.runtime.modify e.taskId fun current =>
      current.debounced request sampled runAt row.readyAt sequence
    idempotency := db.idempotency.modify d.identity fun stored =>
      { stored with fingerprint := request.fingerprint, expiresAt } }
  write fun db => db.addEvent e.taskId none .debounced
  if request.deadline.any (· ≤ sampled) then
    let _ ← perform (terminalizeDeadline e.taskId)

def acceptDebounced (sampled : Time) (d : Debounce) (r : Request) : Tx (TaskId × DebounceOutcome) := do
  let runAt := sampled + d.window
  let replies ← enqueueBatch [d.normalized r runAt]
  write fun db => { db with
    idempotency := db.idempotency.modify d.identity fun stored =>
      { stored with debounce := true, expiresAt := runAt } }
  match replies with
  | (id, true) :: _ => pure (id, .accepted)
  | (id, false) :: _ => pure (id, .replayed)
  | [] => throw .noDataFound

/-- The part of `enqueue_debounce_v1` under the lock of its key, with the clock as it was sampled before
the wait for the lock. -/
def debounceKey (sampled : Time) (d : Debounce) (r : Request) : Tx (TaskId × DebounceOutcome) := do
  let db ← database
  match db.idempotency.get? d.identity with
  | none => acceptDebounced sampled d r
  | some e =>
    let row := db.runtime.get? e.taskId
    if sampled < e.expiresAt then
      match replaceable e row with
      | some pending =>
        replacePending sampled d r e pending
        pure (e.taskId, .replaced)
      | none =>
        write fun db => db.addEvent e.taskId none .debounceRejected
        pure (e.taskId, .nonReplaceable)
    else if row.any fun r => r.state = .ready || r.state = .scheduled then
      write fun db => db.addEvent e.taskId none .debounceRejected
      pure (e.taskId, .nonReplaceable)
    else acceptDebounced sampled d r

/-! ## Calls on one key -/

structure DebounceCall where
  debounce : Debounce
  request : Request
  sampled : Time

structure ServedCall extends DebounceCall where
  taskId : TaskId
  outcome : DebounceOutcome
  before : Db
  after : Db

structure Debouncing where
  session : Session
  waiting : Table Nat DebounceCall
  served : List ServedCall

namespace Debouncing

def initial (host : Host) : Debouncing := ⟨⟨.empty, host, 0⟩, .empty, []⟩

inductive Event
  | start (conn : Nat) (d : Debounce) (r : Request)
  | serve (conn : Nat)
  | abort (conn : Nat)
  | tick

/-- One step of a connection, if it can take it. The lock is held from the moment a call is served until
it commits, so the call runs alone. -/
def apply (σ : Debouncing) : Event → Option Debouncing
  | .start conn d r =>
    if σ.waiting.contains conn then none
    else
      match ensureDebounce d r σ.session.ask with
      | .ok (_, s) =>
        some { σ with session := s, waiting := σ.waiting.put conn ⟨d, r, σ.session.now⟩ }
      | .error _ => none
  | .serve conn =>
    match σ.waiting.get? conn with
    | none => none
    | some c =>
      match debounceKey c.sampled c.debounce c.request σ.session with
      | .ok ((taskId, outcome), s) =>
        some ⟨s, σ.waiting.erase conn, σ.served ++ [{ c with taskId, outcome, before := σ.session.db, after := s.db }]⟩
      | .error _ => none
  | .abort conn => some { σ with waiting := σ.waiting.erase conn }
  | .tick => some { σ with session := σ.session.ask }

inductive Reaches (host : Host) (k : String × String) (P : Debouncing → Event → Prop) : Debouncing → Prop
  | initial : Reaches host k P (initial host)
  | step {σ σ' : Debouncing} {event : Event} (h : Reaches host k P σ)
      (hk : ∀ conn d r, event = .start conn d r → d.identity = k) (hP : P σ event)
      (hs : σ.apply event = some σ') : Reaches host k P σ'

end Debouncing

end Workhorse
