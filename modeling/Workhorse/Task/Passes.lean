import Workhorse.Task.Waits

/-!
# Passes and operator calls

The calls that name no fence token: promotion of due work, recovery of crossed deadlines, timeouts
and leases, cancellation and manual release. A scan locks its rows one by one and skips the rows
that other transactions hold; the loop over a scan reads each row again under its lock.
-/

namespace Workhorse

def dueBefore (a b : TaskId × Time) : Prop := a.2 < b.2 ∨ (a.2 = b.2 ∧ a.1 ≤ b.1)

instance (a b : TaskId × Time) : Decidable (dueBefore a b) := inferInstanceAs (Decidable (_ ∨ _))

def scan (limit : Nat) (rows : List (TaskId × Time)) : Tx (List TaskId) := do
  let free ← lockRows ((rows.insertionSort dueBefore).map Prod.fst)
  pure (free.take limit)

/-- `GREATEST(1, LEAST(p_limit, 10000))`. -/
def clampLimit (limit : Int) : Nat := (max 1 (min limit 10000)).toNat

def promoteRow (id : TaskId) : Tx Unit := do
  match (← database).runtime.get? id with
  | none => pure ()
  | some r =>
    if r.state = .scheduled then
      let readyAt ← clockTimestamp
      let sequence ← nextReadySequence
      write fun db =>
        let db := (db.setRuntime id { r with
          state := .ready, readyAt := some readyAt, sequence := some sequence
          waitName := none }).addEvent id (some r.currentAttempt) .promoted
        if r.waitName.isSome then db.addEvent id (some r.currentAttempt) .waitElapsed else db

/-- `promote_v1`. -/
def promote (limit : Int) : Tx Nat := do
  let now ← clockTimestamp
  let db ← database
  let due ← scan (clampLimit limit)
    ((db.runtime.select fun _ r => r.state == .scheduled && r.runAt ≤ now).map
      fun e => (e.1, e.2.runAt))
  due.forM promoteRow
  pure due.length

/-- The status of `run_task_now_v1`. -/
inductive RunNowStatus
  | alreadyReady
  | waiting
  | notScheduled
  | released
  | notFound
deriving DecidableEq

/-- `run_task_now_v1`. A release ends the debounce window of the task. -/
def runTaskNow (id : TaskId) (requestedBy reason requestId : String) : Tx RunNowStatus := do
  let now ← clockTimestamp
  ensure (requestedBy ≠ "" ∧ requestedBy.length ≤ 200)
    "requested_by must contain between 1 and 200 characters"
  ensure (reason ≠ "" ∧ reason.length ≤ 2000) "reason must contain between 1 and 2000 characters"
  ensure (requestId ≠ "" ∧ requestId.utf8ByteSize ≤ 512)
    "request_id must contain between 1 and 512 UTF-8 bytes"
  let db ← database
  match db.runtime.get? id with
  | some r =>
    if r.state = .ready ∨ r.state = .active then pure .alreadyReady
    else if r.waitName.isSome || r.attemptStartedAt.isSome then pure .waiting
    else if r.state = .blocked then pure .notScheduled
    else
      let sequence ← nextReadySequence
      write fun db =>
        let db := db.setRuntime id { r with
          state := .ready, runAt := now, readyAt := some now, sequence := some sequence }
        { db with idempotency := db.idempotency.filter fun _ e => !(e.taskId = id && e.debounce) }.addEvent
          id (some r.currentAttempt) .promoted
      pure .released
  | none =>
    match db.fastRuntime.get? id with
    | some r =>
      if r.state = .active ∨ r.runAt ≤ now then pure .alreadyReady
      else
        let sequence ← nextReadySequence
        write fun db => db.setFast id { r with runAt := now, sequence }
        pure .released
    | none => pure (if db.tasks.contains id then .notScheduled else .notFound)

/-! ## Recovery -/

def earliest (times : List (Option Time)) : Option Time := (times.filterMap id).min?

/-- The fast-tier rows past a boundary at `now`, with the boundary. -/
def fastDue (db : Db) (now : Time) : List (TaskId × Time) := db.fastRuntime.rows.filterMap fun (id, r) =>
    match r.state with
    | .ready => (r.deadlineAt.filter (· ≤ now)).map fun t => (id, t)
    | .active =>
      if r.cancelRequestedAt.isNone || r.expiresAt.any (· ≤ now) || r.deadlineAt.any (· ≤ now) then
        ((earliest [r.expiresAt, r.attemptTimeoutAt, r.deadlineAt]).filter (· ≤ now)).map
          fun t => (id, t)
      else none

/-- Settle one fast-tier row that a recovery found due at `now`. -/
def fastRecoverRow (retryDelayMs : Option Int) (now : Time) (id : TaskId) : Tx Bool := do
  match (← database).fastRuntime.get? id with
  | none => pure false
  | some r =>
    if r.deadlineAt.any (fun d => d ≤ now && (r.state == .ready || r.cancelRequestedAt.isSome ||
        r.attemptTimeoutAt.all fun t => now < t || d ≤ t)) then
      perform (fastTerminalizeDeadline id)
    else if r.attemptTimeoutAt.any (· ≤ now) && r.cancelRequestedAt.isNone then
      fastTimeoutOwned id (r.workerId.getD "") r.fenceToken
    else if r.expiresAt.any (· ≤ now) then
      match r.cancelRequestedAt with
      | some at_ =>
        fastClose id r .canceled none (some (r.cancellation at_)) (some .canceled) .canceled
        pure true
      | none =>
        if r.attempt < r.maxAttempts then
          let delay ← perform (retryDelay id r.attempt r.retryPolicy r.previousRetryDelayMs
            retryDelayMs .leaseRecoveryImmediate)
          let _ ← fastRetry id r .leaseExpired (some .leaseExpired) delay
          pure true
        else
          fastClose id r .failed none (some .leaseExpired) (some .leaseExpired) .leaseExpired
          pure true
    else pure false

def countM {α : Type} (f : α → Tx Bool) (xs : List α) : Tx Nat :=
  xs.foldlM (fun n x => do if ← f x then pure (n + 1) else pure n) 0

/-- `fast_recover_expired_v1`. The scan takes no lock; each row is locked when its turn comes. -/
def fastRecoverExpired (limit : Nat) (retryDelayMs : Option Int) (now : Time) : Tx Nat := do
  let due := ((fastDue (← database) now).insertionSort dueBefore).take limit
  countM (fun id => do
    if ← tryLock (.row id) then fastRecoverRow retryDelayMs now id else pure false)
    (due.map Prod.fst)

def deadlineDue (now : Time) (r : Runtime) : Bool := r.deadlineAt.any fun d => d ≤ now &&
    (r.state != .active || r.attemptTimeoutAt.all fun t => now < t || d ≤ t)

/-- An active row whose attempt timeout has passed, and no cancellation is left to its worker. -/
def timeoutDue (now : Time) (r : Runtime) : Bool := r.state == .active && r.attemptTimeoutAt.any fun t => t ≤ now &&
    (r.deadlineAt.all fun d => now < d || t < d) &&
    (r.cancelRequestedAt.isNone || r.deadlineAt.any (· ≤ now))

def leaseDue (now : Time) (r : Runtime) : Bool := r.state == .active && r.expiresAt.any (· ≤ now) &&
    (r.cancelRequestedAt.isSome || r.deadlineAt.all (now < ·)) &&
    (r.cancelRequestedAt.isSome || r.attemptTimeoutAt.all (now < ·))

def dueRows (db : Db) (due : Runtime → Bool) (boundary : Runtime → Option Time) : List (TaskId × Time) :=
  (db.runtime.select fun _ r => due r).filterMap fun e => (boundary e.2).map fun t => (e.1, t)

def stillDue (due : Runtime → Bool) (id : TaskId) : Tx (Option Runtime) := do
  pure (((← database).runtime.get? id).filter due)

def recoverDeadline (now : Time) (id : TaskId) : Tx Bool := do
  match ← stillDue (deadlineDue now) id with
  | none => pure false
  | some _ => perform (terminalizeDeadline id)

def recoverTimeout (now : Time) (id : TaskId) : Tx Bool := do
  match ← stillDue (timeoutDue now) id with
  | none => pure false
  | some r =>
    if r.cancelRequestedAt.isSome then perform (terminalizeDeadline id)
    else
      let _ ← strictTask id
      timeoutOwned id (r.workerId.getD "") r.fenceToken

def recoverLease (retryDelayMs : Option Int) (now : Time) (id : TaskId) : Tx Bool := do
  match ← stillDue (leaseDue now) id with
  | none => pure false
  | some r =>
    let task ← strictTask id
    match r.cancelRequestedAt with
    | some at_ =>
      let t ← clockTimestamp
      if !r.expiresAt.any (· ≤ t) then pure false
      else
        let error := some (r.cancellation at_)
        close id r .canceled r.fenceToken none error
        write fun db => (db.addAttempt (r.closedAttempt id .canceled error)).addEvent
          id (some r.currentAttempt) .canceled
        pure true
    | none =>
      let error := some Envelope.leaseExpired
      if r.currentAttempt < task.maxAttempts then
        let delay ← perform (retryDelay id r.currentAttempt task.retryPolicy
          r.previousRetryDelayMs retryDelayMs .leaseRecoveryImmediate)
        let runAt := (← clockTimestamp) + milliseconds delay.delayMs
        let t ← clockTimestamp
        if !r.expiresAt.any (· ≤ t) then pure false
        else
          let _ ← retryAt id r runAt delay error
          write fun db => (db.addAttempt (r.closedAttempt id .leaseExpired error)).addEvent
            id (some r.currentAttempt) .leaseExpired
          pure true
      else
        let t ← clockTimestamp
        if !r.expiresAt.any (· ≤ t) then pure false
        else
          close id r .failed r.fenceToken none error
          write fun db => (db.addAttempt (r.closedAttempt id .leaseExpired error)).addEvent
            id (some r.currentAttempt) .leaseExpired
          pure true

/-- `recover_expired_v1`: the fast tier, then deadlines, timeouts and leases, within one limit. -/
def recoverExpired (limit : Int) (retryDelayMs : Option Int) (skipExpiredLeases : Bool) : Tx Nat := do
  let now ← clockTimestamp
  let limit := clampLimit limit
  let fast ← fastRecoverExpired limit retryDelayMs now
  let deadlines ← scan (limit - fast) (dueRows (← database) (deadlineDue now) (·.deadlineAt))
  let count := fast + (← countM (recoverDeadline now) deadlines)
  let timeouts ← if count < limit then
      scan (limit - count) (dueRows (← database) (timeoutDue now) (·.attemptTimeoutAt))
    else pure []
  let count := count + (← countM (recoverTimeout now) timeouts)
  if limit ≤ count || skipExpiredLeases then pure count
  else
    let leases ← scan (limit - count) (dueRows (← database) (leaseDue now) (·.expiresAt))
    pure (count + (← countM (recoverLease retryDelayMs now) leases))

/-! ## Cancellation -/

/-- The status of `cancel_v1`. -/
inductive CancelStatus
  | cancelRequested
  | canceled
  | alreadyTerminal
  | notFound
deriving DecidableEq

/-- The reply of `cancel_v1`. `state` is the outcome of a terminal task. -/
structure CancelReply where
  status : CancelStatus
  state : Option OutcomeState
  currentAttempt : Option Nat
  requestedAt : Option Time
  requestedBy : Option String
  reason : Option String
  finishedAt : Option Time
deriving DecidableEq

def terminalReply (state : OutcomeState) (attempt : Nat) (error : Option Envelope)
    (finishedAt : Time) : CancelReply :=
  match state, error with
  | .canceled, some (.cancellationRequested at_ by_ reason) =>
    ⟨.canceled, some state, some attempt, some at_, by_, reason, some finishedAt⟩
  | .canceled, _ => ⟨.canceled, some state, some attempt, none, none, none, some finishedAt⟩
  | _, _ => ⟨.alreadyTerminal, some state, some attempt, none, none, none, some finishedAt⟩

/-- `fast_cancel_v1`. -/
def fastCancel (id : TaskId) (r : FastRuntime) (requestedBy reason : Option String) : Tx CancelReply := do
  let now ← clockTimestamp
  match r.state with
  | .active =>
    match r.cancelRequestedAt with
    | some at_ =>
      pure ⟨.cancelRequested, none, some r.attempt, some at_, r.cancelRequestedBy, r.cancelReason, none⟩
    | none =>
      write fun db => db.setFast id { r with
        cancelRequestedAt := some now, cancelRequestedBy := requestedBy, cancelReason := reason }
      pure ⟨.cancelRequested, none, some r.attempt, some now, requestedBy, reason, none⟩
  | .ready =>
    fastClose id r .canceled none (some (.cancellationRequested now requestedBy reason))
      (some .canceled) .canceled
    let finishedAt := ((← database).fastOutcomes.get? id).map (·.finishedAt)
    pure ⟨.canceled, some .canceled, some r.attempt, some now, requestedBy, reason, finishedAt⟩

/-- `cancel_v1`. A suspended attempt keeps the worker and the fence token of its boundary. -/
def cancel (id : TaskId) (requestedBy reason : Option String) : Tx CancelReply := do
  let now ← clockTimestamp
  ensure (requestedBy.all fun t => t ≠ "" && t.length ≤ 200)
    "requested_by must contain between 1 and 200 characters"
  ensure (reason.all fun t => t ≠ "" && t.length ≤ 2000)
    "reason must contain between 1 and 2000 characters"
  let db ← database
  match db.fastRuntime.get? id, db.runtime.get? id with
  | some r, _ => fastCancel id r requestedBy reason
  | none, some r =>
    if r.state = .active then
      match r.cancelRequestedAt with
      | some at_ =>
        pure ⟨.cancelRequested, none, some r.currentAttempt, some at_, r.cancelRequestedBy, r.cancelReason, none⟩
      | none =>
        write fun db => (db.setRuntime id { r with
          cancelRequestedAt := some now, cancelRequestedBy := requestedBy
          cancelReason := reason }).addEvent id (some r.currentAttempt) .cancelRequested
        pure ⟨.cancelRequested, none, some r.currentAttempt, some now, requestedBy, reason, none⟩
    else
      let owner := if r.attemptStartedAt.isSome then db.suspension id r.currentAttempt else none
      let error := some (Envelope.cancellationRequested now requestedBy reason)
      perform fun s => ((), finish onOutcomes id {
        state := .canceled, currentAttempt := r.currentAttempt
        fenceToken := (owner.map (·.fenceToken)).getD 0, runAt := r.runAt
        result := none, error, finishedAt := now } s)
      write fun db =>
        match owner with
        | some p =>
          (db.addAttempt {
            taskId := id, attempt := p.attempt, fenceToken := p.fenceToken
            workerId := some p.workerId, outcome := .canceled, startedAt := r.attemptStartedAt
            claimedAt := p.claimedAt, error }).addEvent id (some p.attempt) .canceled
        | none => db.addEvent id none .canceled
      pure ⟨.canceled, some .canceled, some r.currentAttempt, some now, requestedBy, reason, some now⟩
  | none, none =>
    match db.outcomes.get? id, db.fastOutcomes.get? id with
    | some o, _ => pure (terminalReply o.state o.currentAttempt o.error o.finishedAt)
    | none, some o => pure (terminalReply o.state o.attempt o.error o.finishedAt)
    | none, none => pure ⟨.notFound, none, none, none, none, none, none⟩

end Workhorse
