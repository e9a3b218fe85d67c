import Workhorse.Task.Passes

/-!
# Purge

`purge_queue_internal_v1` deletes the queue's tasks that are not active. A task on which a task
outside the purge still depends stays, and the purge cancels it instead.
-/

namespace Workhorse

def purgedTasks (db : Db) (queue : String) : List TaskId :=
  byId ((db.runtime.select fun _ r => r.queueName = queue && r.state ≠ .active).map Prod.fst)

/-- The purged tasks with a dependent outside the purge that still needs the edge. -/
def stayingRoots (db : Db) (purged : List TaskId) : List TaskId :=
  purged.filter fun id => db.dependencies.any fun k d =>
    k.2 = id && !purged.contains k.1 && (d.pending || db.runtime.contains k.1)

def stayingAbove (db : Db) (purged level : List TaskId) : List TaskId :=
  purged.filter fun id => db.dependencies.any fun k _ => k.2 = id && level.contains k.1

/-- The tasks that stay, by depth. An acyclic graph has fewer depths than purged tasks. -/
def stayingLevels (db : Db) (purged : List TaskId) : Nat → List TaskId → List (List TaskId)
  | 0, _ => []
  | fuel + 1, level =>
    if level = [] then [] else level :: stayingLevels db purged fuel (stayingAbove db purged level)

def byDepth : List (List TaskId) → List TaskId
  | [] => []
  | level :: deeper => (level.filter fun id => deeper.all fun l => !l.contains id) ++ byDepth deeper

def stayingTasks (db : Db) (purged : List TaskId) : List TaskId :=
  byDepth (stayingLevels db purged purged.length (stayingRoots db purged))

namespace Db

def deleteTasks (db : Db) (ids : List TaskId) : Db :=
  let kept (id : TaskId) : Bool := !ids.contains id
  { db with
    idempotency := db.idempotency.filter fun _ e => kept e.taskId
    attemptHistory := db.attemptHistory.filter fun a => kept a.taskId
    dependencies := db.dependencies.filter fun k _ => kept k.1 && kept k.2
    tasks := db.tasks.filter fun id _ => kept id
    runtime := db.runtime.filter fun id _ => kept id
    fastRuntime := db.fastRuntime.filter fun id _ => kept id
    waits := db.waits.filter fun k _ => kept k.1
    signalWaits := db.signalWaits.filter fun k _ => kept k.1
    humanWaits := db.humanWaits.filter fun k _ => kept k.1
    checkpoints := db.checkpoints.filter fun k _ => kept k.1
    progress := db.progress.filter fun id _ => kept id }

end Db

def purgedFastTasks (db : Db) (queue : String) : List TaskId :=
  byId ((db.fastRuntime.select fun _ r => r.queueName = queue && r.state == .ready).map Prod.fst)

/-- `purge_queue_internal_v1`. -/
def purgeQueue (queue : String) : Tx Nat := do
  ensure (queue ≠ "") "queue_name must not be empty"
  write fun db => if db.queueControl.contains queue then db else { db with
    queueControl := db.queueControl.put queue ⟨false, .full, false, false⟩ }
  let db ← database
  let purged := purgedTasks db queue
  let staying := stayingTasks db purged
  let deleted := purged.filter fun id => !staying.contains id
  write fun db => { db.deleteTasks deleted with
    events := db.events.filter fun e => !deleted.contains e.taskId }
  staying.forM fun id => do
    let _ ← cancel id none (some "queue purge")
  let fast := purgedFastTasks (← database) queue
  write fun db => db.deleteTasks fast
  pure (deleted.length + staying.length + fast.length)

end Workhorse
