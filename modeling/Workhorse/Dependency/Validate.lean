import Workhorse.Dependency.Resolve
import Workhorse.Lib.Closure

/-!
# Validation of new dependency edges

The triggers of `task_dependency`: `reject_self_task_dependency_v1` for each inserted row and
`validate_task_dependencies_v1` for the statement. The statement trigger sees the edges of the table
with the new ones among them.
-/

namespace Workhorse

open Closure

abbrev Edges := Table (TaskId × TaskId) Dependency

namespace Edges

variable (edges : Edges)

def prerequisites (id : TaskId) : List TaskId := (edges.select fun k _ => k.1 = id).map fun e => e.1.2

def unreleasedPrerequisites (id : TaskId) : List TaskId :=
  (edges.select fun k d => k.1 = id && d.pending).map fun e => e.1.2

def unreleasedDependents (id : TaskId) : List TaskId :=
  (edges.select fun k d => k.2 = id && d.pending).map fun e => e.1.1

def endpoints : List TaskId := edges.rows.flatMap fun e => [e.1.1, e.1.2]

/-- Whether an inserted edge closes a cycle: its prerequisite leads back to its dependent. -/
def closesCycle (inserted : List (TaskId × TaskId)) : Bool :=
  inserted.any fun k => (closure edges.prerequisites edges.endpoints.length [k.2]).contains k.1

def areSinks (inserted : List (TaskId × TaskId)) : Bool := !edges.any fun k _ => (inserted.map Prod.fst).contains k.2

def unresolvedDependents (sources : List TaskId) : List TaskId :=
  closure edges.unreleasedDependents edges.endpoints.length
    (sources.flatMap edges.unreleasedDependents).dedup

/-- The tasks from which an unreleased path leads to some prerequisites, these included. -/
def cone (prerequisites : List TaskId) : List TaskId :=
  closure edges.unreleasedPrerequisites edges.endpoints.length prerequisites

/-- The check that spares sinks the exact count: the sources of the cone have, together or one by
one, at most 100 unresolved dependents. -/
def fanOutSuspected (prerequisites : List TaskId) : Bool :=
  let sources := (edges.cone prerequisites).filter fun id => edges.unreleasedPrerequisites id = []
  100 < (edges.unresolvedDependents sources).length &&
    sources.any fun id => 100 < (edges.unresolvedDependents [id]).length

def fanOutRoot (prerequisites : List TaskId) : Option TaskId :=
  ((edges.cone prerequisites).filter fun id => 100 < (edges.unresolvedDependents [id]).length).min?

end Edges

def limitError (message : String) (id : TaskId) : Fault := .rejected "P1005" message id

def ensureWithin (message : String) (excess : List TaskId) : Tx Unit :=
  match excess.min? with
  | some id => throw (limitError message id)
  | none => pure ()

/-- `validate_task_dependencies_v1`, for the new edges and the table that holds them. -/
def validateTaskDependencies (inserted : List ((TaskId × TaskId) × Dependency)) : Tx Unit := do
  let edges : Edges := (← database).dependencies
  let keys := inserted.map Prod.fst
  let pending := inserted.filter (·.2.pending)
  let sinks := edges.areSinks keys
  if !sinks then
    ensure (!edges.closesCycle keys) "dependency cycle rejected"
  ensureWithin "a task accepts at most 100 prerequisite dependencies"
    ((pending.map (·.1.1)).filter fun id => 100 < (edges.unreleasedPrerequisites id).length)
  ensureWithin "a task accepts at most 100 dependent tasks"
    ((keys.map Prod.snd).filter fun id => 100 < edges.count fun k _ => k.2 = id)
  let prerequisites := (pending.map (·.1.2)).dedup
  if !sinks || edges.fanOutSuspected prerequisites then
    ensureWithin "a task accepts at most 100 unresolved transitive dependent tasks"
      (edges.fanOutRoot prerequisites).toList
  ensure (pending.all fun e => !edges.any fun k d => k.1 = e.1.1 && d.pending &&
      (d.onSuccess, d.onFailure, d.onCancellation) ≠ (e.2.onSuccess, e.2.onFailure, e.2.onCancellation))
    "every dependency edge for one task must use the same outcome policies"

/-- Insert edges. A row that names one task twice is rejected before the statement trigger runs. -/
def insertEdges (inserted : List ((TaskId × TaskId) × Dependency)) : Tx Unit := do
  ensure (inserted.all fun e => e.1.1 ≠ e.1.2) "dependency cycle rejected"
  let db ← database
  if inserted.any fun e => db.dependencies.contains e.1 then throw .uniqueViolation
  write fun db => { db with
    dependencies := inserted.foldl (fun edges e => edges.put e.1 e.2) db.dependencies }
  validateTaskDependencies inserted

/-! ## Checks leave the session as it is -/

open Transaction

variable {s : Session}

@[simp] theorem ensures_ensureWithin {message : String} {excess : List TaskId}
    {Q : Unit → Session → Prop} :
    Ensures (ensureWithin message excess) s Q ↔ (excess.min? = none → Q () s) := by
  unfold ensureWithin
  cases excess.min? <;> simp

theorem validateTaskDependencies_same {inserted : List ((TaskId × TaskId) × Dependency)} :
    Ensures (validateTaskDependencies inserted) s fun _ s' => s' = s := by
  simp only [validateTaskDependencies, ensures_bind, ensures_database, ensures_ite, ensures_ensure,
    ensures_ensureWithin]
  simp

theorem insertEdges_cases {inserted : List ((TaskId × TaskId) × Dependency)} :
    Ensures (insertEdges inserted) s fun _ s' => s' = s.update fun db => { db with
      dependencies := inserted.foldl (fun edges e => edges.put e.1 e.2) db.dependencies } := by
  simp only [insertEdges, ensures_bind, ensures_ensure, ensures_database, ensures_ite, ensures_throw, ensures_write]
  exact fun _ => ⟨fun _ => trivial, fun _ => validateTaskDependencies_same⟩

end Workhorse
