import Workhorse.Lib.Table
import Workhorse.Schema.Types

/-!
# Operator pause of a worker

`register_worker_v1`, `deregister_worker_v1`, `deregister_worker_v2`, `set_worker_paused_internal_v1` and
`prune_worker_registry_v1`, for one worker id. Every call takes the advisory lock of the worker id and
holds it until its transaction ends. A prune reads the rows as of the start of its statement, tries the
lock of a stale one, and checks the row again as it is then.
-/

namespace Workhorse

/-- The row of `worker_registry`. An update keeps the identity of a row, and an insert makes a new one. -/
structure Registration where
  instanceId : Nat
  paused : Bool
  lastHeartbeatAt : Time
  registryIntervalMs : Nat
  rowId : Nat

/-- The row of `worker_pause_tombstone`. -/
structure KeptPause where
  instanceId : Nat
  expiresAt : Time
  rowId : Nat

structure WorkerRows where
  row : Option Registration
  kept : Option KeptPause
  nextRowId : Nat

namespace WorkerRows

def empty : WorkerRows := ⟨none, none, 0⟩

def upsert (c : WorkerRows) (i : Nat) (now : Time) (intervalMs : Nat) : Registration :=
  match c.row with
  | some r => ⟨i, if r.instanceId = i then r.paused else false, now, intervalMs, r.rowId⟩
  | none => ⟨i, false, now, intervalMs, c.nextRowId⟩

/-- `register_worker_v1`. The clock is read again for the kept pause. -/
def register (c : WorkerRows) (i : Nat) (now later : Time) (intervalMs : Nat) : Bool × WorkerRows :=
  let r := c.upsert i now intervalMs
  match c.kept with
  | none => (r.paused, ⟨some r, none, c.nextRowId + 1⟩)
  | some t =>
    if t.expiresAt ≤ later then (r.paused, ⟨some r, none, c.nextRowId + 1⟩)
    else if t.instanceId = i then (true, ⟨some { r with paused := true }, none, c.nextRowId + 1⟩)
    else (r.paused, ⟨some r, none, c.nextRowId + 1⟩)

/-- `deregister_worker_v1`. -/
def deregisterAny (c : WorkerRows) : WorkerRows := { c with row := none, kept := none }

/-- `deregister_worker_v2`. -/
def deregister (c : WorkerRows) (i : Nat) : WorkerRows :=
  { c with row := c.row.filter fun r => r.instanceId ≠ i, kept := c.kept.filter fun t => t.instanceId ≠ i }

/-- `set_worker_paused_internal_v1` with `p_paused`. -/
def pause (c : WorkerRows) : WorkerRows := { c with row := c.row.map fun r => { r with paused := true } }

/-- `set_worker_paused_internal_v1` without `p_paused`. -/
def resume (c : WorkerRows) : WorkerRows :=
  { c with row := c.row.map fun r => { r with paused := false }, kept := none }

end WorkerRows

/-! ## Pruning -/

structure PrunePass where
  now : Time
  maxAge : Time
  read : WorkerRows

namespace PrunePass

def stale (p : PrunePass) (r : Registration) : Bool := r.lastHeartbeatAt < p.now - milliseconds 60000 &&
    r.lastHeartbeatAt < p.now - max (max p.maxAge (milliseconds 60000)) (milliseconds (r.registryIntervalMs * 3))

def keptUntil (p : PrunePass) (r : Registration) : Time :=
  p.now + max (milliseconds 86400000) (milliseconds (r.registryIntervalMs * 3))

/-- The delete with the lock held: the row that the statement read is checked again as it is now. -/
def delete (p : PrunePass) (c : WorkerRows) : WorkerRows :=
  match p.read.row, c.row with
  | some r, some r' =>
    if r.rowId = r'.rowId ∧ p.stale r' = true then
      ⟨none, if r'.paused then some ⟨r'.instanceId, p.keptUntil r',
          (c.kept.map KeptPause.rowId).getD c.nextRowId⟩ else c.kept, c.nextRowId + 1⟩
    else c
  | _, _ => c

/-- The kept pause that the statement read is there and has expired. -/
def expires (p : PrunePass) (c : WorkerRows) : Bool :=
  p.read.kept.any fun t => c.kept.any fun t' => t.rowId = t'.rowId && t'.expiresAt ≤ p.now

def expire (p : PrunePass) (c : WorkerRows) : WorkerRows := if p.expires c then { c with kept := none } else c

end PrunePass

/-! ## Interleavings -/

/-- What a transaction asks for while it holds the lock. The pass of a prune is what it read at its start. -/
inductive RegistryRequest
  | register (instanceId : Nat) (now later : Time) (intervalMs : Nat)
  | deregisterAny
  | deregister (instanceId : Nat)
  | pause
  | resume
  | delete (p : PrunePass)
  | expire (p : PrunePass)

def RegistryRequest.apply (c : WorkerRows) : RegistryRequest → WorkerRows
  | .register i now later intervalMs => (c.register i now later intervalMs).2
  | .deregisterAny => c.deregisterAny
  | .deregister i => c.deregister i
  | .pause => c.pause
  | .resume => c.resume
  | .delete p => p.delete c
  | .expire p => p.expire c

def RegistryRequest.isPrune : RegistryRequest → Bool
  | .delete _ | .expire _ => true
  | _ => false

/-- A request, and the rows that it found. -/
structure RegistryEntry where
  request : RegistryRequest
  found : WorkerRows

/-- The rows, and the requests that were made before, in their order. -/
structure RegistryView where
  rows : WorkerRows
  history : List RegistryEntry

def RegistryView.call (v : RegistryView) (request : RegistryRequest) : RegistryView :=
  ⟨request.apply v.rows, v.history ++ [⟨request, v.rows⟩]⟩

/-- What is committed, the transaction that holds the lock with what it sees, and the prunes whose statement is under
way. -/
structure Registry where
  committed : RegistryView
  holder : Option (Nat × RegistryView)
  prunes : Table Nat PrunePass

namespace Registry

def initial : Registry := ⟨⟨.empty, []⟩, none, .empty⟩

def view (σ : Registry) (conn : Nat) : RegistryView :=
  match σ.holder with
  | some (conn', v) => if conn' = conn then v else σ.committed
  | none => σ.committed

def mayLock (σ : Registry) (conn : Nat) : Bool := (σ.holder.map Prod.fst).all (· = conn)

inductive Step : Registry → Registry → Prop
  | lock {σ : Registry} (conn : Nat) (hfree : σ.holder = none) : Step σ { σ with holder := some (conn, σ.committed) }
  | call {σ : Registry} {conn : Nat} {v : RegistryView} (request : RegistryRequest)
      (hrequest : request.isPrune = false) (hheld : σ.holder = some (conn, v)) :
      Step σ { σ with holder := some (conn, v.call request) }
  | prune (σ : Registry) (conn : Nat) (now maxAge : Time) :
      Step σ { σ with prunes := σ.prunes.put conn ⟨now, maxAge, (σ.view conn).rows⟩ }
  /-- The first one finds a stale row and gets the lock. Without the lock it skips the row. -/
  | delete {σ : Registry} {conn : Nat} {p : PrunePass} (hp : σ.prunes.get? conn = some p)
      (hstale : p.read.row.any p.stale = true) (hlock : σ.mayLock conn = true) :
      Step σ { σ with holder := some (conn, (σ.view conn).call (.delete p)) }
  | expire {σ : Registry} {conn : Nat} {p : PrunePass} (hp : σ.prunes.get? conn = some p)
      (hexpired : p.read.kept.any (fun t => t.expiresAt ≤ p.now) = true)
      (hlock : σ.mayLock conn = true) :
      Step σ { σ with holder := some (conn, (σ.view conn).call (.expire p)) }
  | commit {σ : Registry} {conn : Nat} {v : RegistryView} (hheld : σ.holder = some (conn, v)) :
      Step σ ⟨v, none, σ.prunes.erase conn⟩
  | leave (σ : Registry) (conn : Nat) : Step σ { σ with prunes := σ.prunes.erase conn }
  | rollback {σ : Registry} {conn : Nat} {v : RegistryView} (hheld : σ.holder = some (conn, v)) :
      Step σ { σ with holder := none, prunes := σ.prunes.erase conn }

inductive Reaches : Registry → Prop
  | initial : Reaches initial
  | step {σ σ' : Registry} (h : Reaches σ) (hs : Step σ σ') : Reaches σ'

end Registry

end Workhorse
