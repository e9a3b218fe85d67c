import Workhorse.Lib.Table
import Workhorse.Schema.Types

/-!
# Tier switches among other transactions

A queue's tier decides which table holds its live tasks. Every call that writes a task or a policy for a
queue takes the queue's shared tier lock and reads its tier with a later statement; `set_queue_tier_v1`
takes the exclusive lock and changes the tier of an empty queue. The locks last until the end of the
transaction. Statements of several connections interleave: each sees the committed rows and its own
writes, or the rows of its snapshot in a transaction above read committed.
-/

namespace Workhorse

inductive PolicyKind
  | concurrency
  | rateLimit
deriving DecidableEq

structure Placement where
  /-- `queue_control.tier`. A queue without a row is full-tier. -/
  tiers : String → Tier
  policies : PolicyKind → String → Option String
  tasks : Table TaskId String
  /-- The queue of every row of `task_runtime`. -/
  runtime : Table TaskId String
  fastRuntime : Table TaskId String
  fastOutcomes : Table TaskId String
  /-- Dependent and prerequisite. -/
  dependencies : List (TaskId × TaskId)
  /-- Parent and child. -/
  children : List (TaskId × TaskId)

structure TierWrites where
  tiers : String → Option Tier
  /-- A policy that was written, or pruned. -/
  policies : PolicyKind → String → Option (Option String)
  /-- The tasks it has created, with a row in `task_runtime` or one in `fast_task_runtime`. -/
  runtime : Table TaskId String
  fastRuntime : Table TaskId String
  dependencies : List (TaskId × TaskId)
  children : List (TaskId × TaskId)

namespace TierWrites

def none : TierWrites := ⟨fun _ => .none, fun _ _ => .none, .empty, .empty, [], []⟩

def creates (w : TierWrites) (id : TaskId) : Bool := w.runtime.contains id || w.fastRuntime.contains id

end TierWrites

namespace Placement

def empty : Placement := ⟨fun _ => .full, fun _ _ => none, .empty, .empty, .empty, .empty, [], []⟩

def withWrites (c : Placement) (w : TierWrites) : Placement where
  tiers q := (w.tiers q).getD (c.tiers q)
  policies kind q := (w.policies kind q).getD (c.policies kind q)
  tasks := (c.tasks.overlay w.runtime).overlay w.fastRuntime
  runtime := c.runtime.overlay w.runtime
  fastRuntime := c.fastRuntime.overlay w.fastRuntime
  fastOutcomes := c.fastOutcomes
  dependencies := w.dependencies ++ c.dependencies
  children := w.children ++ c.children

def isFast (c : Placement) (id : TaskId) : Bool := c.fastRuntime.contains id || c.fastOutcomes.contains id

def close (c : Placement) (id : TaskId) : Placement :=
  { c with
    runtime := c.runtime.erase id
    fastRuntime := c.fastRuntime.erase id
    fastOutcomes := match c.fastRuntime.get? id with
      | some queue => c.fastOutcomes.put id queue
      | none => c.fastOutcomes }

/-- `set_queue_tier_v1` finds a live task of the queue, in either tier. -/
def hasLive (c : Placement) (queue : String) : Bool :=
  (c.runtime.any fun _ q => q = queue) || c.fastRuntime.any fun _ q => q = queue

end Placement

structure TierTx where
  /-- The rows that its statements see besides its own writes, above read committed. -/
  snapshot : Option Placement
  writes : TierWrites
  shared : List String
  exclusive : List String
  /-- The queues of the call at hand, and the fast-tier ones that `lock_queue_tiers_v1` returned. -/
  call : Option (List String × List String)

def TierTx.holds (t : TierTx) (queue : String) : Bool := t.shared.contains queue || t.exclusive.contains queue

structure TierStore where
  committed : Placement
  txs : Table Nat TierTx

inductive TierEvent
  | begin (conn : Nat) (repeatableRead : Bool)
  /-- `lock_queue_tiers_v1` takes the shared lock of a queue. -/
  | lockShared (conn : Nat) (queue : String)
  /-- `lock_queue_tiers_v1` reads the fast-tier queues. -/
  | readTiers (conn : Nat) (queues : List String)
  /-- One request of `enqueue_batch_v1`. -/
  | enqueue (conn : Nat) (id : TaskId) (queue : String) (prerequisites : List TaskId)
  /-- `redrive_v1` copies a failed task. -/
  | redrive (conn : Nat) (id source : TaskId)
  | startChild (conn : Nat) (id : TaskId) (queue : String) (parent : TaskId)
  /-- One definition of `sync_concurrency_policies_v1` or `sync_rate_limit_policies_v1`. -/
  | syncPolicy (conn : Nat) (kind : PolicyKind) (queue namespace_ : String)
  /-- The end of a synchronization that prunes the policies it did not name. -/
  | prune (conn : Nat) (kind : PolicyKind) (namespace_ : String) (seen : List String)
  | lockExclusive (conn : Nat) (queue : String)
  /-- `set_queue_tier_v1`, once it has its lock. -/
  | setTier (conn : Nat) (queue : String) (tier : Tier)
  | commit (conn : Nat)
  | rollback (conn : Nat)
  | close (id : TaskId)

namespace TierStore

variable (σ : TierStore)

def view (t : TierTx) : Placement := (t.snapshot.getD σ.committed).withWrites t.writes

def isFresh (id : TaskId) : Bool := !σ.committed.tasks.contains id && !σ.txs.any fun _ t => t.writes.creates id

/-- A row above read committed that another transaction has changed since fails the write. -/
def unchanged {α : Type} [DecidableEq α] (t : TierTx) (f : Placement → α) : Bool :=
  t.snapshot.all fun s => f s = f σ.committed

def set (conn : Nat) (t : TierTx) : TierStore := { σ with txs := σ.txs.put conn t }

def create (conn : Nat) (t : TierTx) (id : TaskId) (queue : String) (fast : Bool)
    (dependencies children : List (TaskId × TaskId)) : TierStore :=
  σ.set conn { t with
    writes := { t.writes with
      runtime := if fast then t.writes.runtime else t.writes.runtime.put id queue
      fastRuntime := if fast then t.writes.fastRuntime.put id queue else t.writes.fastRuntime
      dependencies := dependencies ++ t.writes.dependencies
      children := children ++ t.writes.children } }

def fastQueues (t : TierTx) (queue : String) : Option (List String) :=
  t.call.bind fun call => if queue ∈ call.1 then some call.2 else none

/-- A prerequisite must exist, and the fast tier never resolves dependents. -/
def allows (t : TierTx) (prerequisites : List TaskId) : Bool :=
  prerequisites.all fun p => (σ.view t).tasks.contains p && !(σ.view t).isFast p

def step : TierEvent → Option TierStore
  | .begin conn repeatableRead =>
    if σ.txs.contains conn then none
    else some (σ.set conn ⟨if repeatableRead then some σ.committed else none, .none, [], [], none⟩)
  | .lockShared conn queue => (σ.txs.get? conn).bind fun t =>
    if σ.txs.any fun k u => k ≠ conn && u.exclusive.contains queue then none
    else some (σ.set conn { t with shared := queue :: t.shared })
  | .readTiers conn queues => (σ.txs.get? conn).bind fun t =>
    if queues.all t.holds then
      some (σ.set conn { t with
        call := some (queues, queues.filter fun q => (σ.view t).tiers q = .fast) })
    else none
  | .enqueue conn id queue prerequisites => (σ.txs.get? conn).bind fun t =>
    (fastQueues t queue).bind fun fast =>
      if !σ.isFresh id then none
      else if queue ∈ fast then
        -- A fast-tier request with prerequisites is rejected.
        if prerequisites = [] then some (σ.create conn t id queue true [] []) else none
      else if σ.allows t prerequisites then
        some (σ.create conn t id queue false (prerequisites.map fun p => (id, p)) [])
      else none
  | .redrive conn id source => (σ.txs.get? conn).bind fun t =>
    ((σ.view t).tasks.get? source).bind fun queue => (fastQueues t queue).bind fun fast =>
      if !σ.isFresh id then none
      else some (σ.create conn t id queue (decide (queue ∈ fast)) [] [])
  | .startChild conn id queue parent => (σ.txs.get? conn).bind fun t =>
    (fastQueues t queue).bind fun fast =>
      if !σ.isFresh id || queue ∈ fast then none
      else some (σ.create conn t id queue false [(parent, id)] [(parent, id)])
  | .syncPolicy conn kind queue namespace_ => (σ.txs.get? conn).bind fun t =>
    (fastQueues t queue).bind fun fast =>
      if queue ∈ fast then none
      else if ((σ.view t).policies kind queue).any (· ≠ namespace_) then none
      else if σ.unchanged t (·.policies kind queue) then
        some (σ.set conn { t with writes := { t.writes with
          policies := fun k q => if k = kind ∧ q = queue then some (some namespace_)
            else t.writes.policies k q } })
      else none
  | .prune conn kind namespace_ seen => (σ.txs.get? conn).bind fun t =>
    some (σ.set conn { t with writes := { t.writes with
      policies := fun k q =>
        if k = kind ∧ (σ.view t).policies kind q = some namespace_ ∧ q ∉ seen then some none
        else t.writes.policies k q } })
  | .lockExclusive conn queue => (σ.txs.get? conn).bind fun t =>
    if σ.txs.any fun k u => k ≠ conn && u.holds queue then none
    else some (σ.set conn { t with exclusive := queue :: t.exclusive })
  | .setTier conn queue tier => (σ.txs.get? conn).bind fun t =>
    if !t.exclusive.contains queue then none
    else if (σ.view t).tiers queue = tier then some (σ.set conn { t with call := none })
    else if (σ.view t).hasLive queue then none
    else if tier = .fast ∧ (((σ.view t).policies .concurrency queue).isSome ∨
        ((σ.view t).policies .rateLimit queue).isSome) then none
    else if σ.unchanged t (·.tiers queue) then
      some (σ.set conn { t with
        call := none
        writes := { t.writes with
          tiers := fun q => if q = queue then some tier else t.writes.tiers q } })
    else none
  | .commit conn => (σ.txs.get? conn).map fun t =>
    { committed := σ.committed.withWrites t.writes, txs := σ.txs.erase conn }
  | .rollback conn => some { σ with txs := σ.txs.erase conn }
  | .close id => some { σ with committed := σ.committed.close id }

def fresh : TierStore := ⟨.empty, .empty⟩

def run : TierStore → List TierEvent → Option TierStore
  | σ, [] => some σ
  | σ, e :: events => (σ.step e).bind fun σ' => run σ' events

end TierStore

/-- Live tasks lie in one table, that of their queue's tier; a fast-tier queue has no policy; and no
fast-tier task is a prerequisite or a child. -/
structure Placement.Agrees (c : Placement) : Prop where
  apart : ∀ queue id id', c.runtime.get? id = some queue → c.fastRuntime.get? id' ≠ some queue
  full : ∀ id queue, c.runtime.get? id = some queue → c.tiers queue = .full
  fast : ∀ id queue, c.fastRuntime.get? id = some queue → c.tiers queue = .fast
  policies : ∀ kind queue, c.tiers queue = .fast → c.policies kind queue = none
  prerequisites : ∀ e ∈ c.dependencies, c.isFast e.2 = false
  children : ∀ e ∈ c.children, c.isFast e.2 = false

def TierEvent.readCommitted : TierEvent → Bool
  | .begin _ repeatableRead => !repeatableRead
  | _ => true

end Workhorse
