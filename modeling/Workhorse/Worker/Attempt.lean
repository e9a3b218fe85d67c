import Workhorse.Lib.Table
import Workhorse.Schema.Rows

/-!
# The local lease window

`TaskAttempt` of `task-attempt.ts`, as far as the lease goes, and the heartbeat rounds that `worker.ts` sends for it.
The worker reads a monotonic clock, and the database one that is ahead of it by a constant. Requests and replies take
any time, replies come in any order, and some never come.
-/

namespace Workhorse

def Lease.renewed (l : Lease) (now : Time) (leaseMs : Nat) : Lease :=
  if l.renewable now then { l with expiresAt := some (now + milliseconds leaseMs) } else l

/-- What an attempt knows of its ownership. The outcome its arbiter accepts is left out: no lease check reads it. -/
structure TaskAttempt where
  leaseWindowEndsAt : Option Time
  heartbeatStopped : Bool
  aborted : Bool
  /-- `expirationPromise` is set. -/
  expiring : Bool
  /-- A heartbeat found no lease, and the expiry request decides what that means. -/
  losing : Bool

namespace TaskAttempt

variable (a : TaskAttempt)

def stopHeartbeat : TaskAttempt := { a with heartbeatStopped := true }

def stop : TaskAttempt := { a.stopHeartbeat with leaseWindowEndsAt := none }

def abort : TaskAttempt := { a with aborted := true }

def endLeaseWindow : TaskAttempt := a.stop.abort

def loseLease : TaskAttempt := a.stop.abort

def windowOver (now : Time) : Bool := a.leaseWindowEndsAt.any (· ≤ now)

/-- The clock is read twice. -/
def renewLease (leaseMs : Nat) (sentAt now later : Time) : TaskAttempt :=
  if a.heartbeatStopped then a
  else if a.windowOver now then a.endLeaseWindow
  else
    let a := { a with leaseWindowEndsAt := some (sentAt + milliseconds leaseMs) }
    if a.windowOver later then a.endLeaseWindow else a

def new (leaseMs : Nat) (claimSentAt now later : Time) : TaskAttempt :=
  renewLease ⟨none, false, false, false, false⟩ leaseMs claimSentAt now later

def requireLease (now : Time) : TaskAttempt × Bool :=
  let a := if a.windowOver now then a.endLeaseWindow else a
  (a, !a.aborted)

def refreshOwnership (leaseMs : Nat) (status : Status) (sentAt now later : Time) : TaskAttempt :=
  match status with
  | .accepted => a.renewLease leaseMs sentAt now later
  | .cancelRequested => a.stop.abort
  | .deadlineExceeded | .timeoutExceeded => { a.stop.abort with expiring := true }
  | .stale => if a.expiring then { a.stopHeartbeat with losing := true } else a.loseLease
  -- A busy lease keeps its window.
  | _ => a

end TaskAttempt

structure HeartbeatRound where
  sentAt : Time
  answer : Option (Status × Option Time)

structure LeaseState where
  now : Time
  lease : Lease
  owned : Bool
  attempt : TaskAttempt
  rounds : Table Nat HeartbeatRound
  granted : Time
  settled : Bool

inductive LeaseEvent where
  | tick (elapsed : Nat)
  | send (round : Nat)
  /-- The database runs the statement of a round. `locked` says that another transaction has the row. -/
  | execute (round : Nat) (locked : Bool)
  /-- `pause` passes between the two readings of the clock. -/
  | reply (round pause : Nat)
  | cancel
  | take
  | watchdog
  | expire
  | expireFailed
  | expired
  | lose
  | interrupt
  | require
  | settle

namespace LeaseState

variable (skew : Int) (leaseMs : Nat) (s : LeaseState)

def databaseNow : Time := s.now + skew

/-- A row of `heartbeat_many_v2`. -/
def beat (locked : Bool) : Lease × Status :=
  if !s.owned then (s.lease, .stale)
  else if locked then (s.lease, .busy)
  else
    let lease := s.lease.renewed (s.databaseNow skew) leaseMs
    (lease, lease.beat (s.databaseNow skew))

def execute (id : Nat) (locked : Bool) : Option LeaseState :=
  match s.rounds.get? id with
  | some ⟨sentAt, none⟩ =>
    let (lease, status) := s.beat skew leaseMs locked
    some { s with lease, rounds := s.rounds.put id ⟨sentAt, some (status, lease.expiresAt)⟩ }
  | _ => none

/-- A result counts only while the lease is registered. -/
def reply (id pause : Nat) : Option LeaseState :=
  match s.rounds.get? id with
  | some ⟨sentAt, some (status, expiresAt)⟩ =>
    let s := { s with rounds := s.rounds.erase id }
    if s.attempt.heartbeatStopped then some s
    else some { s with
      now := s.now + pause
      attempt := s.attempt.refreshOwnership leaseMs status sentAt s.now (s.now + pause)
      granted := if status = .accepted then max s.granted (expiresAt.getD s.granted) else s.granted }
  | _ => none

def step : LeaseEvent → Option LeaseState
  | .tick elapsed => some { s with now := s.now + elapsed }
  | .send id =>
    if s.attempt.heartbeatStopped || s.rounds.contains id then none
    else some { s with rounds := s.rounds.put id ⟨s.now, none⟩ }
  | .execute id locked => s.execute skew leaseMs id locked
  | .reply id pause => s.reply leaseMs id pause
  | .cancel => some { s with lease := { s.lease with cancelRequestedAt := some (s.databaseNow skew) } }
  | .take => some { s with owned := false }
  | .watchdog => if s.attempt.windowOver s.now then some { s with attempt := s.attempt.endLeaseWindow } else none
  | .expire => some { s with attempt := { s.attempt with expiring := true } }
  | .expireFailed => some { s with attempt := { s.attempt with expiring := false } }
  | .expired => some { s with attempt := s.attempt.stop.abort }
  | .lose => if s.attempt.losing then some { s with attempt := s.attempt.loseLease } else none
  | .interrupt => some { s with attempt := s.attempt.abort }
  | .require => some { s with attempt := (s.attempt.requireLease s.now).1 }
  | .settle => some { s with attempt := s.attempt.stop, settled := true }

def run : List LeaseEvent → LeaseState → Option LeaseState
  | [], s => some s
  | e :: events, s => (s.step skew leaseMs e).bind (run events)

def claimed (sentAt executedAt now : Time) (pause : Nat) (deadlineAt attemptTimeoutAt : Option Time) : LeaseState :=
  let expiresAt := executedAt + skew + milliseconds leaseMs
  { now := now + pause
    lease := ⟨some expiresAt, deadlineAt, attemptTimeoutAt, none⟩
    owned := true
    attempt := .new leaseMs sentAt now (now + pause)
    rounds := .empty
    granted := expiresAt
    settled := false }

end LeaseState

inductive Leasing (skew : Int) (leaseMs : Nat) : LeaseState → Prop
  | claim {sentAt executedAt now : Time} {pause : Nat} {deadlineAt attemptTimeoutAt : Option Time}
    (hsent : sentAt ≤ executedAt) (hexecuted : executedAt ≤ now) :
    Leasing skew leaseMs (.claimed skew leaseMs sentAt executedAt now pause deadlineAt attemptTimeoutAt)
  | event {s s' : LeaseState} {e : LeaseEvent} (h : Leasing skew leaseMs s) (hs : s.step skew leaseMs e = some s') :
    Leasing skew leaseMs s'

end Workhorse
