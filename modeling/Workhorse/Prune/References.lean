import Workhorse.Prune.Terminal

/-!
# References under terminal cleanup

Transactions that add tasks and references to tasks run beside transactions that prune. An insert takes a key
share lock on the tasks that its foreign keys name, and pruning locks its tasks for update. A statement reads
what has committed before it, and what a transaction did is there for the others once it commits.
-/

namespace Workhorse

inductive RefRow
  | task (id : TaskId) (createdAt : Time) (fast : Bool)
  | dependency (dependent prerequisite : TaskId)
  | redrive (source target : TaskId)
  | member (id : TaskId) (group : Nat)
  | occurrence (id : TaskId)
  | idempotency (id : TaskId)
  | child (parent child : TaskId)
deriving DecidableEq

namespace RefRow

/-- The tasks that the foreign keys of a row name. A membership row has none, and that of an idempotency row
is checked when the transaction commits. -/
def references : RefRow → List TaskId
  | task _ _ _ => []
  | dependency dependent prerequisite => [dependent, prerequisite]
  | redrive source target => [source, target]
  | member _ _ => []
  | occurrence id => [id]
  | idempotency _ => []
  | child parent id => [parent, id]

def asTask : RefRow → Option (TaskId × Time)
  | task id createdAt _ => some (id, createdAt)
  | _ => none

def asTier (fast : Bool) : RefRow → Option TaskId
  | task id _ fast' => if fast' = fast then some id else none
  | _ => none

def asDependency : RefRow → Option (TaskId × TaskId)
  | dependency dependent prerequisite => some (dependent, prerequisite)
  | _ => none

def asRedrive : RefRow → Option (TaskId × TaskId)
  | redrive source target => some (source, target)
  | _ => none

def asMember : RefRow → Option (TaskId × Nat)
  | member id group => some (id, group)
  | _ => none

def asOccurrence : RefRow → Option TaskId
  | occurrence id => some id
  | _ => none

def asIdempotency : RefRow → Option TaskId
  | idempotency id => some id
  | _ => none

def asChild : RefRow → Option (TaskId × TaskId)
  | child parent id => some (parent, id)
  | _ => none

end RefRow

def createdTasks (rows : List RefRow) (fast : Bool) : List TaskId := rows.filterMap (RefRow.asTier fast)

inductive OpenTx
  | writing (rows : List RefRow) (keyShare : List TaskId)
  | pruning (forUpdate deleted : List TaskId)

namespace OpenTx

def rows : OpenTx → List RefRow
  | writing rows _ => rows
  | pruning _ _ => []

def keyShare : OpenTx → List TaskId
  | writing _ keyShare => keyShare
  | pruning _ _ => []

def forUpdate : OpenTx → List TaskId
  | writing _ _ => []
  | pruning forUpdate _ => forUpdate

def creates (tx : OpenTx) : List TaskId := createdTasks tx.rows false ++ createdTasks tx.rows true

end OpenTx

structure RefState where
  db : TerminalDb
  fast : List TaskId
  fastOutcomes : List TaskId
  used : List TaskId
  parents : List (TaskId × TaskId)
  transactions : Table Nat OpenTx

namespace RefState

def initial : RefState where
  db := ⟨.empty, .empty, [], [], [], [], [], [], [], [], [], []⟩
  fast := []
  fastOutcomes := []
  used := []
  parents := []
  transactions := .empty

variable (s : RefState)

def lockedForUpdate (conn : Nat) (id : TaskId) : Bool :=
  s.transactions.any fun conn' tx => conn' ≠ conn && tx.forUpdate.contains id

def lockedForKeyShare (conn : Nat) (id : TaskId) : Bool :=
  s.transactions.any fun conn' tx => conn' ≠ conn && tx.keyShare.contains id

/-- The check of a foreign key: the task is there, and its lock can be taken. -/
def referable (conn : Nat) (created : List TaskId) (id : TaskId) : Bool :=
  created.contains id || s.db.tasks.contains id && !s.lockedForUpdate conn id

def accepts (conn : Nat) (tx : OpenTx) (row : RefRow) : Bool := row.references.all (s.referable conn tx.creates) &&
    match row with
    -- Identities are not used twice.
    | .task id _ _ => !s.used.contains id && !tx.creates.contains id &&
        !s.transactions.any fun conn' tx' => conn' ≠ conn && tx'.creates.contains id
    | .dependency _ _ => true
    | .redrive _ target => tx.creates.contains target
    -- A group gets new tasks of the full tier.
    | .member id _ => (createdTasks tx.rows false).contains id
    | .occurrence _ => true
    | .idempotency _ => true
    -- A parent has a runtime row, and its child is a new task of the full tier.
    | .child parent child => s.db.runtime.contains parent && (createdTasks tx.rows false).contains child

def insert (conn : Nat) (row : RefRow) : RefState :=
  match (s.transactions.get? conn).getD (.writing [] []) with
  | .writing rows keyShare =>
    if s.accepts conn (.writing rows keyShare) row then
      { s with transactions := s.transactions.put conn (.writing (rows ++ [row]) (keyShare ++ row.references)) }
    else s
  | .pruning _ _ => s

/-- Whether a task is there and `FOR UPDATE SKIP LOCKED` gets it. -/
def lockable (conn : Nat) (id : TaskId) : Bool :=
  s.db.tasks.contains id && !s.lockedForUpdate conn id && !s.lockedForKeyShare conn id

/-- The first statement of `prune_full_terminal_tasks_internal_v1`. Its own checks do not matter for what
follows, so any tasks may be in its window. -/
def lockWindow (conn : Nat) (window : List TaskId) : RefState :=
  match (s.transactions.get? conn).getD (.pruning [] []) with
  | .writing _ _ => s
  | .pruning forUpdate deleted =>
    { s with transactions := s.transactions.put conn (.pruning (forUpdate ++ window.filter (s.lockable conn)) deleted) }

/-- The second statement: the references of the locked tasks are checked again, and the rest is deleted. The
transaction does not see what it has deleted before. -/
def pruneLocked (conn : Nat) (before : Cutoffs) (limit : Nat) : RefState :=
  match s.transactions.get? conn with
  | some (.pruning forUpdate deleted) =>
    let view := s.db.delete deleted
    let candidates := (forUpdate.filter fun id => view.inWindow before id && view.unprotected before id).firstBy
      view.age limit
    { s with transactions := s.transactions.put conn (.pruning forUpdate (deleted ++ candidates)) }
  | _ => s

/-- `prune_fast_terminal_tasks_internal_v1`. Its one statement checks what its snapshot `seen` lets through and
does not check again after the locks. A foreign key that does not allow the delete raises. -/
def pruneFast (conn : Nat) (seen : TaskId → Bool) : RefState :=
  match (s.transactions.get? conn).getD (.pruning [] []) with
  | .writing _ _ => s
  | .pruning forUpdate deleted =>
    let candidates := s.fastOutcomes.filter fun id => seen id && s.lockable conn id
    let view := s.db.delete (deleted ++ candidates)
    if candidates.any fun id => view.isPrerequisite id || view.redrives.any fun r => r.1 = id then
      { s with transactions := s.transactions.erase conn }
    else
      { s with transactions := s.transactions.put conn (.pruning (forUpdate ++ candidates) (deleted ++ candidates)) }

def apply (rows : List RefRow) : RefState :=
  { s with
    db := { s.db with
      tasks := (rows.filterMap RefRow.asTask).foldl (fun t e => t.put e.1 e.2) s.db.tasks
      runtime := createdTasks rows false ++ s.db.runtime
      redrives := rows.filterMap RefRow.asRedrive ++ s.db.redrives
      members := rows.filterMap RefRow.asMember ++ s.db.members
      occurrences := rows.filterMap RefRow.asOccurrence ++ s.db.occurrences
      idempotency := rows.filterMap RefRow.asIdempotency ++ s.db.idempotency
      dependencies := rows.filterMap RefRow.asDependency ++ s.db.dependencies
      children := rows.filterMap RefRow.asChild ++ s.db.children }
    fast := createdTasks rows true ++ s.fast
    used := (createdTasks rows false ++ createdTasks rows true) ++ s.used
    parents := rows.filterMap RefRow.asChild ++ s.parents }

/-- Commit. The foreign key of idempotency rows is checked here: it waits for a lock, and it raises when the
task is not there. -/
def commit (conn : Nat) : RefState :=
  match s.transactions.get? conn with
  | some (.writing rows keyShare) =>
    if (rows.filterMap RefRow.asIdempotency).all (s.referable conn (OpenTx.writing rows keyShare).creates) then
      { s.apply rows with transactions := s.transactions.erase conn }
    else s
  | some (.pruning _ deleted) =>
    if s.db.idempotency.any deleted.contains then s
    else
      { s with
        db := s.db.delete deleted
        fastOutcomes := s.fastOutcomes.filter (!deleted.contains ·)
        transactions := s.transactions.erase conn }
  | none => s

def finish (id : TaskId) (outcome : Finish) : RefState :=
  if s.db.runtime.contains id then
    { s with db := { s.db with
        runtime := s.db.runtime.filter (· ≠ id)
        outcomes := s.db.outcomes.put id outcome } }
  else s

def finishFast (id : TaskId) : RefState :=
  if s.fast.contains id && s.db.tasks.contains id then { s with fastOutcomes := id :: s.fastOutcomes } else s

def finishGroup (group : Nat) : RefState :=
  { s with db := { s.db with finishedGroups := group :: s.db.finishedGroups } }

def setHistory (events attempts : List TaskId) : RefState := { s with db := { s.db with events, attempts } }

/-- The retention of references: `prune_released_dependencies_v1`, `prune_enqueue_idempotency_v1` and that of
schedule occurrences delete some of them. -/
def release (keepDependency : TaskId × TaskId → Bool) (keepIdempotency keepOccurrence : TaskId → Bool) : RefState :=
  { s with db := { s.db with
      dependencies := s.db.dependencies.filter keepDependency
      idempotency := s.db.idempotency.filter keepIdempotency
      occurrences := s.db.occurrences.filter keepOccurrence } }

end RefState

inductive RefEvent
  | insert (conn : Nat) (row : RefRow)
  | lockWindow (conn : Nat) (window : List TaskId)
  | pruneLocked (conn : Nat) (before : Cutoffs) (limit : Nat)
  | pruneFast (conn : Nat) (seen : TaskId → Bool)
  | commit (conn : Nat)
  | abort (conn : Nat)
  | finish (id : TaskId) (outcome : Finish)
  | finishFast (id : TaskId)
  | finishGroup (group : Nat)
  | setHistory (events attempts : List TaskId)
  | release (keepDependency : TaskId × TaskId → Bool) (keepIdempotency keepOccurrence : TaskId → Bool)

namespace RefState

def step (s : RefState) : RefEvent → RefState
  | .insert conn row => s.insert conn row
  | .lockWindow conn window => s.lockWindow conn window
  | .pruneLocked conn before limit => s.pruneLocked conn before limit
  | .pruneFast conn seen => s.pruneFast conn seen
  | .commit conn => s.commit conn
  | .abort conn => { s with transactions := s.transactions.erase conn }
  | .finish id outcome => s.finish id outcome
  | .finishFast id => s.finishFast id
  | .finishGroup group => s.finishGroup group
  | .setHistory events attempts => s.setHistory events attempts
  | .release keepDependency keepIdempotency keepOccurrence =>
    s.release keepDependency keepIdempotency keepOccurrence

def run (s : RefState) (events : List RefEvent) : RefState := events.foldl step s

def live (s : RefState) (id : TaskId) : Bool :=
  s.db.tasks.contains id && !s.db.outcomes.contains id && !s.fastOutcomes.contains id

end RefState

end Workhorse
