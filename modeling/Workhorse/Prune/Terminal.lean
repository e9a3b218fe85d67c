import Mathlib.Data.Prod.Lex
import Workhorse.Lib.FirstBy
import Workhorse.Lib.Table
import Workhorse.Schema.Types

/-!
# Terminal cleanup

`prune_full_terminal_tasks_internal_v1`, with the references that protect a terminal task. The first
statement locks a window of candidates, oldest first. The second one checks the references that the first
does not and deletes what is left, up to the limit.
-/

namespace Workhorse

/-- The columns of `task_outcome` that the cleanup reads. -/
structure Finish where
  finishedAt : Time
  historyThroughAt : Time
deriving DecidableEq

/-- The relations that the cleanup reads. A reference stands for the task that it names. -/
structure TerminalDb where
  /-- `task.created_at`. -/
  tasks : Table TaskId Time
  outcomes : Table TaskId Finish
  runtime : List TaskId
  events : List TaskId
  attempts : List TaskId
  /-- Source and target. -/
  redrives : List (TaskId × TaskId)
  /-- Member task and group. -/
  members : List (TaskId × Nat)
  finishedGroups : List Nat
  occurrences : List TaskId
  idempotency : List TaskId
  /-- Dependent and prerequisite. -/
  dependencies : List (TaskId × TaskId)
  /-- Parent and child. -/
  children : List (TaskId × TaskId)

structure Cutoffs where
  identityBefore : Time
  outcomeBefore : Time
  historyBefore : Time

namespace TerminalDb

variable (db : TerminalDb) (before : Cutoffs)

def aged (id : TaskId) : Bool := (db.tasks.get? id).any fun createdAt => (db.outcomes.get? id).any fun outcome =>
    createdAt < before.identityBefore && outcome.finishedAt < before.outcomeBefore &&
      outcome.historyThroughAt < before.historyBefore

def inWindow (id : TaskId) : Bool :=
  db.aged before id && !db.runtime.contains id && !db.events.contains id && !db.attempts.contains id &&
    !db.redrives.any (fun r => r.1 = id) &&
    !db.members.any fun m => m.1 = id && !db.finishedGroups.contains m.2

def isPrerequisite (id : TaskId) : Bool := db.dependencies.any fun d => d.2 = id

def hasLiveChild (id : TaskId) : Bool :=
  db.children.any fun c => c.1 = id && db.tasks.contains c.2 && !db.aged before c.2

def unprotected (id : TaskId) : Bool :=
  !db.occurrences.contains id && !db.idempotency.contains id && !db.isPrerequisite id &&
    !db.hasLiveChild before id

/-- `ORDER BY outcome.finished_at, task.id`. -/
def age (id : TaskId) : Lex (Time × TaskId) := toLex (((db.outcomes.get? id).map Finish.finishedAt).getD 0, id)

def eligible : List TaskId := (db.tasks.rows.map Prod.fst).filter (db.inWindow before)

def window (limit : Nat) : List TaskId := (db.eligible before).firstBy db.age (min (limit * 4) 100000)

def candidates (limit : Nat) : List TaskId := ((db.window before limit).filter (db.unprotected before)).take limit

/-- `DELETE FROM task`, with the actions of the foreign keys. A membership row has none. -/
def delete (ids : List TaskId) : TerminalDb :=
  { db with
    tasks := db.tasks.filter fun id _ => !ids.contains id
    outcomes := db.outcomes.filter fun id _ => !ids.contains id
    runtime := db.runtime.filter (!ids.contains ·)
    events := db.events.filter (!ids.contains ·)
    attempts := db.attempts.filter (!ids.contains ·)
    redrives := db.redrives.filter fun r => !ids.contains r.2
    occurrences := db.occurrences.filter (!ids.contains ·)
    dependencies := db.dependencies.filter fun d => !ids.contains d.1
    children := db.children.filter fun c => !ids.contains c.1 && !ids.contains c.2 }

/-- `prune_full_terminal_tasks_internal_v1` without concurrent locks: the rows after it, the number of
tasks that it deleted, and `dependency_starved`. -/
def pruneFullTerminalTasks (limit : Nat) : Except String (TerminalDb × Nat × Option Bool) :=
  if limit < 1 then .ok (db, 0, none)
  -- `p_limit * 4` is a product of integers of four bytes.
  else if 2147483647 < limit * 4 then .error "integer out of range"
  else
    let pruned := db.candidates before limit
    .ok (db.delete pruned, pruned.length, some (pruned.isEmpty && (db.window before limit).any db.isPrerequisite))

end TerminalDb

end Workhorse
