import Workhorse.Lib.Table
import Workhorse.Lib.Transaction
import Workhorse.Schema.Request

/-!
# The database and its sessions

`Db` holds the relations, one table each, and the two sequences. A session runs transactions
against it. What the server decides by itself is asked of the session's host: each reading of
`clock_timestamp()`, each random draw, each new identity, and whether another transaction holds a
lock that is only tried.
-/

namespace Workhorse

variable {m : String}

/-- A row of `enqueue_idempotency`. The fingerprint is the canonical form of the accepted request. -/
structure Idempotency where
  fingerprint : Request
  taskId : TaskId
  expiresAt : Time
  /-- `coalescing_mode = 'debounce'`. -/
  debounce : Bool

structure Db where
  tasks : Table TaskId Task
  runtime : Table TaskId Runtime
  outcomes : Table TaskId Outcome
  /-- Keyed by dependent and prerequisite. -/
  dependencies : Table (TaskId × TaskId) Dependency
  waits : Table (TaskId × String) TaskWait
  signalWaits : Table (TaskId × String) SignalWait
  humanWaits : Table (TaskId × String) HumanWait
  checkpoints : Table (TaskId × String) Checkpoint
  progress : Table TaskId Progress
  /-- Newest first. -/
  attemptHistory : List Attempt
  /-- Newest first. -/
  events : List Event
  fastRuntime : Table TaskId FastRuntime
  fastOutcomes : Table TaskId FastOutcome
  /-- Keyed by scope and key. -/
  idempotency : Table (String × String) Idempotency
  queueControl : Table String QueueControl
  concurrencyPolicies : Table String ConcurrencyPolicy
  rateLimitPolicies : Table String RateLimitPolicy
  /-- The rows of scope `key`, keyed by queue and concurrency key. -/
  rateLimitBuckets : Table (String × String) Bucket
  /-- Keyed by queue and shard. -/
  admissionShards : Table (String × Nat) AdmissionShard
  budgets : Table String Budget
  budgetBuckets : Table String Bucket
  /-- The last value of `fence_token_seq`. -/
  fenceSeq : Nat
  /-- The last value of `ready_sequence_seq`. -/
  readySeq : Nat

namespace Db

def empty : Db where
  tasks := .empty
  runtime := .empty
  outcomes := .empty
  dependencies := .empty
  waits := .empty
  signalWaits := .empty
  humanWaits := .empty
  checkpoints := .empty
  progress := .empty
  attemptHistory := []
  events := []
  fastRuntime := .empty
  fastOutcomes := .empty
  idempotency := .empty
  queueControl := .empty
  concurrencyPolicies := .empty
  rateLimitPolicies := .empty
  rateLimitBuckets := .empty
  admissionShards := .empty
  budgets := .empty
  budgetBuckets := .empty
  fenceSeq := 0
  readySeq := 0

def setRuntime (db : Db) (id : TaskId) (r : Runtime) : Db :=
  { db with runtime := db.runtime.put id r }

def deleteRuntime (db : Db) (id : TaskId) : Db := { db with runtime := db.runtime.erase id }

def setOutcome (db : Db) (id : TaskId) (o : Outcome) : Db :=
  { db with outcomes := db.outcomes.put id o }

def setFast (db : Db) (id : TaskId) (r : FastRuntime) : Db :=
  { db with fastRuntime := db.fastRuntime.put id r }

def addEvent (db : Db) (id : TaskId) (attempt : Option Nat) (type : EventType) : Db :=
  { db with events := ⟨id, attempt, type⟩ :: db.events }

def addAttempt (db : Db) (a : Attempt) : Db := { db with attemptHistory := a :: db.attemptHistory }

end Db

inductive LockName
  | budget (name : String)
  | shard (queue : String) (shard : Nat)
  | row (id : TaskId)
  | bucket (queue key : String)

/-- What the server answers. Every question of a session gets the next index. -/
structure Host where
  /-- `clock_timestamp()`. -/
  clock : Nat → Time
  /-- `floor(random() * 10)`. -/
  random : Nat → Fin 10
  /-- `gen_random_uuid()`. -/
  uuid : Nat → TaskId
  free : Nat → LockName → Bool
  /-- `pg_backend_pid()`. -/
  backendPid : Nat → Nat
  /-- `hashtextextended` of a task, an attempt and a previous delay. -/
  hash : TaskId → Nat → Option Nat → Int

def Host.Monotone (h : Host) : Prop := ∀ ⦃i j : Nat⦄, i ≤ j → h.clock i ≤ h.clock j

def steadyHost : Host where
  clock n := n
  random _ := 0
  uuid n := n
  free _ _ := true
  backendPid _ := 0
  hash _ _ _ := 0

theorem steadyHost_monotone : steadyHost.Monotone := fun _ _ h => Int.ofNat_le.mpr h

structure Session where
  db : Db
  host : Host
  asked : Nat

namespace Session

def now (s : Session) : Time := s.host.clock s.asked

def ask (s : Session) : Session := { s with asked := s.asked + 1 }

def update (s : Session) (f : Db → Db) : Session := { s with db := f s.db }

@[simp] theorem ask_db (s : Session) : s.ask.db = s.db := rfl
@[simp] theorem ask_host (s : Session) : s.ask.host = s.host := rfl
@[simp] theorem update_db (s : Session) (f : Db → Db) : (s.update f).db = f s.db := rfl
@[simp] theorem update_host (s : Session) (f : Db → Db) : (s.update f).host = s.host := rfl

/-- `nextval('ready_sequence_seq')`. -/
def nextReadySequence (s : Session) : Nat × Session :=
  (s.db.readySeq + 1, s.update fun db => { db with readySeq := db.readySeq + 1 })

end Session

inductive Fault
  | raised (message : String)
  /-- An error with a diagnostic that names a task, and the members that conflict with its request. -/
  | rejected (errcode message : String) (taskId : TaskId) (conflictingFields : List RequestField := [])
  | noDataFound
  | uniqueViolation
deriving DecidableEq

abbrev Tx := StateT Session (Except Fault)

def raise {α : Type} (message : String) : Tx α := throw (.raised message)

def ensure (c : Bool) (message : String) : Tx Unit := if c then pure () else raise message

def database : Tx Db := fun s => .ok (s.db, s)

def write (f : Db → Db) : Tx Unit := fun s => .ok ((), s.update f)

def perform {α : Type} (f : Session → α × Session) : Tx α := fun s => .ok (f s)

def asking {α : Type} (f : Host → Nat → α) : Tx α := fun s => .ok (f s.host s.asked, s.ask)

def clockTimestamp : Tx Time := asking Host.clock

def tryLock (name : LockName) : Tx Bool := asking fun h n => h.free n name

def nextReadySequence : Tx Nat := perform Session.nextReadySequence

/-- `SELECT … INTO STRICT` of a task. -/
def strictTask (id : TaskId) : Tx Task := do
  match (← database).tasks.get? id with
  | some t => pure t
  | none => throw .noDataFound

section Rules

open Transaction

variable {s : Session} {α : Type}

@[simp] theorem ensures_raise {Q : α → Session → Prop} : Ensures (raise m : Tx α) s Q ↔ True :=
  ensures_throw

@[simp] theorem ensures_ensure {c : Bool} {Q : Unit → Session → Prop} :
    Ensures (ensure c m) s Q ↔ (c = true → Q () s) := by
  unfold ensure
  cases c <;> simp

theorem ensure_ok {c : Bool} {x : Unit × Session} : ensure c m s = .ok x ↔ c = true ∧ x = ((), s) := by
  cases c with
  | false =>
    constructor
    · intro h
      cases h
    · intro h
      cases h.1
  | true =>
    constructor
    · intro h
      cases h
      exact ⟨rfl, rfl⟩
    · rintro ⟨-, rfl⟩
      rfl

theorem ensure_bind_ok {α : Type} {c : Bool} {f : Unit → Tx α} {x : α × Session} :
    (ensure c m >>= f) s = .ok x ↔ c = true ∧ f () s = .ok x := by
  obtain ⟨a, s'⟩ := x
  rw [bind_eq_ok]
  constructor
  · rintro ⟨_, _, hensure, hf⟩
    obtain ⟨hc, h⟩ := ensure_ok.mp hensure
    cases h
    exact ⟨hc, hf⟩
  · rintro ⟨hc, hf⟩
    exact ⟨(), s, ensure_ok.mpr ⟨hc, rfl⟩, hf⟩

theorem database_bind {f : Db → Tx α} : (database >>= f) s = f s.db s := rfl

@[simp] theorem ensures_database {Q : Db → Session → Prop} : Ensures database s Q ↔ Q s.db s := ensures_ok rfl

@[simp] theorem ensures_write {f : Db → Db} {Q : Unit → Session → Prop} : Ensures (write f) s Q ↔ Q () (s.update f) :=
  ensures_ok rfl

@[simp] theorem ensures_perform {f : Session → α × Session} {Q : α → Session → Prop} :
    Ensures (perform f) s Q ↔ Q (f s).1 (f s).2 := ensures_ok rfl

@[simp] theorem ensures_asking {f : Host → Nat → α} {Q : α → Session → Prop} :
    Ensures (asking f) s Q ↔ Q (f s.host s.asked) s.ask := ensures_ok rfl

@[simp] theorem ensures_clockTimestamp {Q : Time → Session → Prop} : Ensures clockTimestamp s Q ↔ Q s.now s.ask :=
  ensures_ok rfl

@[simp] theorem ensures_tryLock {n : LockName} {Q : Bool → Session → Prop} :
    Ensures (tryLock n) s Q ↔ Q (s.host.free s.asked n) s.ask := ensures_ok rfl

@[simp] theorem ensures_nextReadySequence {Q : Nat → Session → Prop} :
    Ensures nextReadySequence s Q ↔ Q s.nextReadySequence.1 s.nextReadySequence.2 := ensures_ok rfl

@[simp] theorem ensures_strictTask {id : TaskId} {Q : Task → Session → Prop} :
    Ensures (strictTask id) s Q ↔ ∀ t, s.db.tasks.get? id = some t → Q t s := by
  unfold strictTask
  rw [ensures_bind, ensures_database]
  cases h : s.db.tasks.get? id <;> simp

end Rules

end Workhorse
