import Workhorse.Task.Owned

/-!
# Heartbeats

`heartbeat_v1`, `heartbeat_many_v1`, `heartbeat_many_v2` and `heartbeat_v2`. A renewal is granted
from the clock reading that the function takes after its row locks.
-/

namespace Workhorse

def ensureWorker (worker : String) : Tx Unit := ensure (worker ≠ "") "worker_id must not be empty"

def ensureLease (leaseMs : Nat) : Tx Unit :=
  ensure (100 ≤ leaseMs ∧ leaseMs ≤ 86400000) "lease_ms must be between 100 and 86400000"

/-- `heartbeat_v1`. -/
def heartbeat (id : TaskId) (worker : String) (fence leaseMs : Nat) : Tx Status := do
  ensureWorker worker
  ensureLease leaseMs
  if (← database).fastRuntime.contains id then
    let statuses ← fastHeartbeatMany worker [⟨id, fence, leaseMs⟩]
    pure ((statuses.head?.map Prod.snd).getD .stale)
  else
    let now ← clockTimestamp
    match ← owned id worker fence with
    | none => pure .stale
    | some r =>
      write fun db => db.setRuntime id (r.renewed now leaseMs)
      pure ((r.renewed now leaseMs).lease.beat now)

def ensureBeats (worker : String) (beats : List Beat) : Tx Unit := do
  ensureWorker worker
  ensure (1 ≤ beats.length ∧ beats.length ≤ 100) "leases must contain between 1 and 100 entries"
  ensure (beats.all fun b => 100 ≤ b.leaseMs && b.leaseMs ≤ 86400000)
    "each lease requires taskId, fenceToken, and leaseMs between 100 and 86400000"

/-- The full-tier part of `heartbeat_many_v1`. A row that two entries name is updated by one. -/
def heartbeatFull (worker : String) (beats : List Beat) : Tx (List (TaskId × Status)) := do
  let now ← clockTimestamp
  let (statuses, _) ← beats.foldlM (fun (acc : List (TaskId × Status) × List TaskId) b => do
    match ← owned b.taskId worker b.fenceToken with
    | none => pure (acc.1 ++ [(b.taskId, .stale)], acc.2)
    | some r =>
      if acc.2.contains b.taskId then pure (acc.1 ++ [(b.taskId, .stale)], acc.2)
      else
        write fun db => db.setRuntime b.taskId (r.renewed now b.leaseMs)
        pure (acc.1 ++ [(b.taskId, (r.renewed now b.leaseMs).lease.beat now)], b.taskId :: acc.2))
    ([], [])
  pure statuses

/-- `heartbeat_many_v1`. A batch over both tiers renews one lease at a time, in identity order. -/
def heartbeatMany (worker : String) (beats : List Beat) : Tx (List (TaskId × Status)) := do
  ensureBeats worker beats
  let db ← database
  let fast := beats.countP fun b => db.fastRuntime.contains b.taskId
  let full := beats.countP fun b => !db.fastRuntime.contains b.taskId && db.runtime.contains b.taskId
  if 0 < fast ∧ full = 0 then fastHeartbeatMany worker beats
  else if 0 < fast then
    let sorted := beats.zipIdx.insertionSort fun a b => a.1.taskId ≤ b.1.taskId
    let statuses ← sorted.foldlM (fun acc e => do
      let status ← heartbeat e.1.taskId worker e.1.fenceToken e.1.leaseMs
      pure (acc ++ [(e.2, e.1.taskId, status)])) []
    pure ((statuses.insertionSort fun a b => a.1 ≤ b.1).map Prod.snd)
  else heartbeatFull worker beats

/-- The rows that `FOR NO KEY UPDATE SKIP LOCKED` returns. -/
def lockRows (ids : List TaskId) : Tx (List TaskId) := ids.foldlM (fun acc id => do
    if ← tryLock (.row id) then pure (acc ++ [id]) else pure acc) []

/-- The renewal of a generation that is named more than once has the longest duration. -/
def longestLease (beats : List Beat) (id : TaskId) (fence : Nat) : Option Nat :=
  ((beats.filter fun b => b.taskId = id && b.fenceToken = fence).map (·.leaseMs)).max?

def renewLocked (worker : String) (beats : List Beat) (now : Time) (id : TaskId) (db : Db) : Db :=
  match db.runtime.get? id with
  | none => db
  | some r =>
    match longestLease beats id r.fenceToken with
    | none => db
    | some leaseMs =>
      if r.ownedBy worker r.fenceToken then db.setRuntime id (r.renewed now leaseMs) else db

def fastRenewLocked (worker : String) (beats : List Beat) (now : Time) (id : TaskId) (db : Db) : Db :=
  match db.fastRuntime.get? id with
  | none => db
  | some r =>
    match longestLease beats id r.fenceToken with
    | none => db
    | some leaseMs =>
      if r.ownedBy worker r.fenceToken then db.setFast id (r.renewed now leaseMs) else db

/-- The status of one entry: `busy` when its row was not locked and its generation is still active. -/
def beatStatus (db : Db) (worker : String) (beats : List Beat) (now : Time)
    (fastLocked fullLocked : List TaskId) (b : Beat) : Status :=
  let leaseMs := (longestLease beats b.taskId b.fenceToken).getD b.leaseMs
  let fast := (db.fastRuntime.get? b.taskId).filter (·.ownedBy worker b.fenceToken)
  let full := (db.runtime.get? b.taskId).filter (·.ownedBy worker b.fenceToken)
  if !fastLocked.contains b.taskId && !fullLocked.contains b.taskId then
    if fast.isSome || full.isSome then .busy else .stale
  else
    match fast.filter (fun _ => fastLocked.contains b.taskId), full.filter (fun _ => fullLocked.contains b.taskId) with
    | some r, _ => (r.renewed now leaseMs).lease.beat now
    | none, some r => (r.renewed now leaseMs).lease.beat now
    | none, none => .stale

/-- `heartbeat_many_v2`. -/
def heartbeatManyV2 (worker : String) (beats : List Beat) : Tx (List (TaskId × Status)) := do
  ensureBeats worker beats
  let db ← database
  let ids := byId (beats.map (·.taskId)).dedup
  let fastLocked ← lockRows (ids.filter fun id =>
    (db.fastRuntime.get? id).any (·.workerId == some worker))
  let fullLocked ← lockRows (ids.filter fun id =>
    (db.runtime.get? id).any (·.workerId == some worker))
  let now ← clockTimestamp
  write fun db => fastLocked.foldl (fun db id => fastRenewLocked worker beats now id db) db
  write fun db => fullLocked.foldl (fun db id => renewLocked worker beats now id db) db
  pure (beats.map fun b => (b.taskId, beatStatus db worker beats now fastLocked fullLocked b))

/-- `heartbeat_v2`. -/
def heartbeatV2 (id : TaskId) (worker : String) (fence leaseMs : Nat) : Tx Status := do
  ensureWorker worker
  ensureLease leaseMs
  let statuses ← heartbeatManyV2 worker [⟨id, fence, leaseMs⟩]
  pure ((statuses.head?.map Prod.snd).getD .stale)

end Workhorse
