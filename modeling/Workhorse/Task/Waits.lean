import Workhorse.Task.Heartbeat

/-!
# Durable boundaries

Checkpoints, progress, and the timed, signal and human waits that suspend an attempt, with the two
calls that end a wait from outside.
-/

namespace Workhorse

/-- `run_at` of a wait that only a delivery ends, `9999-12-31 00:00:00+00`. -/
def waitForever : Time := 253402214400 * 1000000

/-- The condition of a durable boundary: the lease is live at `now` and no cancellation is pending. -/
def Runtime.mayRecord (r : Runtime) (now : Time) : Bool :=
  !(r.expiresAt.any (· ≤ now) || r.deadlineAt.any (· ≤ now) || r.attemptTimeoutAt.any (· ≤ now) ||
    r.cancelRequestedAt.isSome)

def ensureName (label name : String) : Tx Unit :=
  ensure (name ≠ "" ∧ name.length ≤ 200) (label ++ " must contain between 1 and 200 characters")

def ensureTrimmed (label name : String) : Tx Unit :=
  ensure (name.toList.head? ≠ some ' ' ∧ name.toList.getLast? ≠ some ' ')
    (label ++ " must not have leading or trailing whitespace")

/-- The status of `save_checkpoint_v2`. -/
inductive CheckpointStatus
  | stale
  | inputConflict
  | existing
  | conflict
  | saved
deriving DecidableEq

def isFingerprint (text : String) : Bool := text.length = 64 && text.all fun c => c.isDigit || ('a' ≤ c && c ≤ 'f')

/-- `save_checkpoint_v2`. -/
def saveCheckpoint (id : TaskId) (worker : String) (fence : Nat) (name : String) (value : Jsonb)
    (inputFingerprint : Option String) : Tx (CheckpointStatus × Option Checkpoint) := do
  ensureName "checkpoint_name" name
  ensure (value.octetLength ≤ 1048576) "checkpoint_value must be at most 1048576 bytes"
  ensure (inputFingerprint.all isFingerprint)
    "input_fingerprint must be 64 lowercase hexadecimal characters"
  match ← owned id worker fence with
  | none => pure (.stale, none)
  | some r =>
    let t₁ ← clockTimestamp
    let t₂ ← clockTimestamp
    let t₃ ← clockTimestamp
    if r.expiresAt.any (· ≤ t₁) || r.deadlineAt.any (· ≤ t₂) || r.attemptTimeoutAt.any (· ≤ t₃) ||
        r.cancelRequestedAt.isSome then
      pure (.stale, none)
    else
      match (← database).checkpoints.get? (id, name) with
      | some c =>
        let status : CheckpointStatus :=
          if inputFingerprint.isSome && c.inputFingerprint.isSome &&
              c.inputFingerprint != inputFingerprint then .inputConflict
          else if c.value.Equal value then .existing
          else .conflict
        pure (status, some c)
      | none =>
        let c : Checkpoint := ⟨value, r.currentAttempt, fence, worker, inputFingerprint⟩
        write fun db => { db with checkpoints := db.checkpoints.put (id, name) c }.addEvent
          id (some r.currentAttempt) .checkpointSaved
        pure (.saved, some c)

/-- The status of `update_progress_v1`. -/
inductive ProgressStatus
  | stale
  | unchanged
  | rateLimited
  | updated
deriving DecidableEq

/-- `update_progress_v1`. Changed writes of one generation are 100 ms apart. -/
def updateProgress (id : TaskId) (worker : String) (fence : Nat) (value : Jsonb) :
    Tx (ProgressStatus × Option Progress) := do
  ensure (value.octetLength ≤ 65536) "progress_value must be at most 65536 bytes"
  match ← owned id worker fence with
  | none => pure (.stale, none)
  | some r =>
    let t₁ ← clockTimestamp
    if !r.mayRecord t₁ then pure (.stale, none)
    else
      let now ← clockTimestamp
      if r.expiresAt.any (· ≤ now) || r.deadlineAt.any (· ≤ now) ||
          r.attemptTimeoutAt.any (· ≤ now) then
        pure (.stale, none)
      else
        let stored := (← database).progress.get? id
        if stored.any (·.value.Equal value) then pure (.unchanged, stored)
        else if stored.any fun p => p.fenceToken = fence && now - p.updatedAt < milliseconds 100 then
          pure (.rateLimited, stored)
        else
          let p : Progress := ⟨value, (stored.map (·.revision)).getD 0 + 1, r.currentAttempt, fence, worker, now⟩
          write fun db => { db with progress := db.progress.put id p }.addEvent
            id (some r.currentAttempt) .progressUpdated
          pure (.updated, some p)

/-- The suspended row of an attempt that waits: the lease is given up and its time accounted. -/
def Runtime.suspended (r : Runtime) (name : String) (runAt now : Time) (deadlineAt : Option Time) : Runtime :=
  { r with
    state := .scheduled, runAt, fenceToken := 0, readyAt := none, sequence := none
    workerId := none, acquiredAt := none, heartbeatAt := none, expiresAt := none
    waitName := some name, executionUsedMs := r.usedAt now, attemptTimeoutAt := none
    deadlineAt, error := none }

def Runtime.provenance (r : Runtime) (worker : String) (fence : Nat) (createdAt : Time) : Provenance :=
  ⟨r.currentAttempt, fence, worker, r.acquiredAt, createdAt⟩

/-- The status of `schedule_wait_v1`. -/
inductive WaitStatus
  | stale
  | conflict
  | elapsed
  | limitExceeded
  | scheduled
deriving DecidableEq

/-- `schedule_wait_v1`, with exactly one of a duration and a wake time. -/
def scheduleWait (id : TaskId) (worker : String) (fence : Nat) (name : String)
    (durationMs : Option Nat) (wakeAt : Option Time) : Tx (WaitStatus × Option TaskWait) := do
  ensureName "wait_name" name
  ensure (durationMs.isNone ≠ wakeAt.isNone) "exactly one of duration_ms or wake_at is required"
  ensure (durationMs.all fun d => 1 ≤ d && d ≤ maxDelayMs)
    "duration_ms must be between 1 and 31536000000"
  let row ← owned id worker fence
  let now ← clockTimestamp
  match row.filter (·.mayRecord now) with
  | none => pure (.stale, none)
  | some r =>
    let mode : WaitMode := match durationMs with
      | some d => .relative d
      | none => .absolute (wakeAt.getD now)
    let target := match mode with
      | .relative d => now + milliseconds d
      | .absolute t => t
    let db ← database
    match db.waits.get? (id, name) with
    | some stored =>
      let same : Bool := match stored.mode, mode with
        | .relative _, .relative _ => true
        | .absolute a, .absolute b => a = b
        | _, _ => false
      if !same then pure (.conflict, some stored)
      else
        write fun db => db.addEvent id (some r.currentAttempt) .waitReplayed
        pure (.elapsed, some stored)
    | none =>
      ensure (wakeAt.all fun t => t ≤ now + milliseconds maxDelayMs)
        "wake_at must be no more than 365 days in the future"
      if 1000 ≤ db.waits.count fun k _ => k.1 = id then pure (.limitExceeded, none)
      else
        let createdAt ← clockTimestamp
        let wait : TaskWait := ⟨mode, target, r.provenance worker fence createdAt⟩
        write fun db => { db with waits := db.waits.put (id, name) wait }
        if target ≤ now then
          write fun db => db.addEvent id (some r.currentAttempt) .waitElapsed
          pure (.elapsed, some wait)
        else if ← unexpired r then
          write fun db => (db.setRuntime id (r.suspended name target now r.deadlineAt)).addEvent
            id (some r.currentAttempt) .waitScheduled
          pure (.scheduled, some wait)
        else
          write fun db => { db with waits := db.waits.erase (id, name) }
          pure (.stale, none)

/-- The status of `wait_for_signal_v1` and of `wait_for_human_v1`. -/
inductive DeliveryStatus
  | stale
  | conflict
  | alreadyWaiting
  | delivered
  | limitExceeded
  | waiting
deriving DecidableEq

def waitTimeout (r : Runtime) (now : Time) (timeoutMs : Option Nat) : Time :=
  let limit := now + milliseconds ((timeoutMs.getD 604800000 : Nat) : Int)
  (r.deadlineAt.map fun d => min d limit).getD limit

/-- `wait_for_signal_v1`. -/
def waitForSignal (id : TaskId) (worker : String) (fence : Nat) (name : String)
    (timeoutMs : Option Nat) : Tx (DeliveryStatus × Option Jsonb) := do
  ensureName "signal_name" name
  ensureTrimmed "signal_name" name
  ensureWorker worker
  ensure (timeoutMs.all fun t => 1 ≤ t && t ≤ 604800000)
    "signal timeout_ms must be between 1 and 604800000"
  let stored := (← database).signalWaits.get? (id, name)
  match stored.filter (·.delivery.isNone) with
  | some wait =>
    if wait.provenance.workerId ≠ worker ∨ wait.provenance.fenceToken ≠ fence then pure (.stale, none)
    else pure (.alreadyWaiting, none)
  | none =>
    let row ← owned id worker fence
    let now ← clockTimestamp
    match row.filter (·.mayRecord now) with
    | none => pure (.stale, none)
    | some r =>
      match stored with
      | some wait =>
        write fun db => db.addEvent id (some r.currentAttempt) .signalReplayed
        pure (.delivered, wait.delivery.map (·.payload))
      | none =>
        if 1000 ≤ (← database).signalWaits.count fun k _ => k.1 = id then pure (.limitExceeded, none)
        else
          let timeoutAt := waitTimeout r now timeoutMs
          let createdAt ← clockTimestamp
          let wait : SignalWait := ⟨none, timeoutAt, r.provenance worker fence createdAt⟩
          write fun db => { db with signalWaits := db.signalWaits.put (id, name) wait }
          if ← unexpired r then
            write fun db =>
              (db.setRuntime id (r.suspended name waitForever now (some timeoutAt))).addEvent
                id (some r.currentAttempt) .signalWaiting
            pure (.waiting, none)
          else
            write fun db => { db with signalWaits := db.signalWaits.erase (id, name) }
            pure (.stale, none)

/-- `wait_for_human_v1`. -/
def waitForHuman (id : TaskId) (worker : String) (fence : Nat) (name : String) (context : Jsonb)
    (timeoutMs : Option Nat) : Tx (DeliveryStatus × Option Jsonb) := do
  ensureName "token_name" name
  ensureTrimmed "token_name" name
  ensureWorker worker
  ensure (context.octetLength ≤ 65536) "human wait context must be JSON and at most 65536 bytes"
  ensure (timeoutMs.all fun t => 1 ≤ t && t ≤ 604800000)
    "human wait timeout_ms must be between 1 and 604800000"
  let stored := (← database).humanWaits.get? (id, name)
  match stored.filter (·.delivery.isNone) with
  | some wait =>
    if wait.provenance.workerId ≠ worker ∨ wait.provenance.fenceToken ≠ fence then pure (.stale, none)
    else if ¬wait.context.Equal context then pure (.conflict, none)
    else pure (.alreadyWaiting, none)
  | none =>
    let row ← owned id worker fence
    let now ← clockTimestamp
    match row.filter (·.mayRecord now) with
    | none => pure (.stale, none)
    | some r =>
      match stored with
      | some wait =>
        if ¬wait.context.Equal context then pure (.conflict, none)
        else
          write fun db => db.addEvent id (some r.currentAttempt) .humanWaitReplayed
          pure (.delivered, wait.delivery.map (·.payload))
      | none =>
        if 1000 ≤ (← database).humanWaits.count fun k _ => k.1 = id then pure (.limitExceeded, none)
        else
          let timeoutAt := waitTimeout r now timeoutMs
          let createdAt ← clockTimestamp
          let wait : HumanWait := ⟨context, none, timeoutAt, r.provenance worker fence createdAt⟩
          write fun db => { db with humanWaits := db.humanWaits.put (id, name) wait }
          if ← unexpired r then
            write fun db =>
              (db.setRuntime id (r.suspended name waitForever now (some timeoutAt))).addEvent
                id (some r.currentAttempt) .humanWaitCreated
            pure (.waiting, none)
          else
            write fun db => { db with humanWaits := db.humanWaits.erase (id, name) }
            pure (.stale, none)

/-- The status of `send_signal_v1` and of `complete_human_wait_v1`. -/
inductive SendStatus
  | notFound
  | notWaiting
  | conflict
  | duplicate
  | alreadyDelivered
  | stale
  | delivered
deriving DecidableEq

def Delivery.replay (d : Delivery) (key : String) (payload : Jsonb) (by_ : String) : SendStatus :=
  if d.idempotencyKey = key then
    if d.payload.Equal payload ∧ d.deliveredBy = by_ then .duplicate else .conflict
  else .alreadyDelivered

def Runtime.woken (r : Runtime) (now : Time) (sequence : Nat) (deadlineAt : Option Time) : Runtime :=
  { r with
    state := .ready, runAt := now, readyAt := some now, sequence := some sequence
    waitName := none, deadlineAt }

def waitingRow (id : TaskId) (name : String) (attempt : Nat) : Tx (Option Runtime) := do
  pure (((← database).runtime.get? id).filter fun r =>
    r.state == .scheduled && r.waitName == some name && r.currentAttempt == attempt)

def wake (id : TaskId) (r : Runtime) (now : Time) : Tx Unit := do
  let sequence ← nextReadySequence
  write fun db => db.setRuntime id
    (r.woken now sequence ((db.tasks.get? id).bind (·.deadlineAt)))

def ensureDelivery (label key by_ byLabel : String) : Tx Unit := do
  ensure (1 ≤ key.utf8ByteSize ∧ key.utf8ByteSize ≤ 512)
    (label ++ " idempotency key must contain between 1 and 512 UTF-8 bytes")
  ensure (by_ ≠ "" ∧ by_.length ≤ 200)
    (label ++ " " ++ byLabel ++ " must contain between 1 and 200 characters")

/-- `send_signal_v1`. -/
def sendSignal (id : TaskId) (name : String) (payload : Jsonb) (key requestedBy : String) :
    Tx (SendStatus × Option Delivery) := do
  ensureName "signal_name" name
  ensureTrimmed "signal_name" name
  ensure (payload.octetLength ≤ 65536) "signal payload must be at most 65536 bytes"
  ensureDelivery "signal" key requestedBy "requested_by"
  let db ← database
  if !db.tasks.contains id then pure (.notFound, none)
  else
    match db.signalWaits.get? (id, name) with
    | none =>
      write fun db => db.addEvent id none .signalRejected
      pure (.notWaiting, none)
    | some wait =>
      let attempt := wait.provenance.attempt
      match wait.delivery with
      | some d =>
        let status := d.replay key payload requestedBy
        if status ≠ .duplicate then
          write fun db => db.addEvent id (some attempt) .signalRejected
        pure (status, some d)
      | none =>
        let row ← waitingRow id name attempt
        let now ← clockTimestamp
        match row.filter (·.deadlineAt.all (now < ·)) with
        | none =>
          write fun db => db.addEvent id (some attempt) .signalRejected
          pure (.stale, none)
        | some r =>
          let d : Delivery := ⟨payload, key, requestedBy, now⟩
          write fun db => { db with
            signalWaits := db.signalWaits.put (id, name) { wait with delivery := some d } }
          wake id r now
          write fun db => db.addEvent id (some attempt) .signalReceived
          pure (.delivered, some d)

/-- `complete_human_wait_v1`. -/
def completeHumanWait (id : TaskId) (name : String) (result : Jsonb) (key completedBy : String) :
    Tx (SendStatus × Option Delivery) := do
  ensureName "token_name" name
  ensureTrimmed "token_name" name
  ensure (result.octetLength ≤ 65536) "human wait result must be JSON and at most 65536 bytes"
  ensureDelivery "human wait" key completedBy "completed_by"
  let db ← database
  if !db.tasks.contains id then pure (.notFound, none)
  else
    match db.humanWaits.get? (id, name) with
    | none =>
      write fun db => db.addEvent id none .humanWaitRejected
      pure (.notWaiting, none)
    | some wait =>
      let attempt := wait.provenance.attempt
      match wait.delivery with
      | some d =>
        let status := d.replay key result completedBy
        if status ≠ .duplicate then
          write fun db => db.addEvent id (some attempt) .humanWaitRejected
        pure (status, some d)
      | none =>
        let row ← waitingRow id name attempt
        let now ← clockTimestamp
        match row.filter (·.deadlineAt.all (now < ·)) with
        | none =>
          write fun db => db.addEvent id (some attempt) .humanWaitRejected
          pure (.stale, none)
        | some r =>
          let d : Delivery := ⟨result, key, completedBy, now⟩
          write fun db => { db with
            humanWaits := db.humanWaits.put (id, name) { wait with delivery := some d } }
          wake id r now
          write fun db => db.addEvent id (some attempt) .humanWaitCompleted
          pure (.delivered, some d)

end Workhorse
