import Workhorse.Dependency.Resolve

/-!
# Repair of the dependency counters

`dependency_counter_drift_v1` lists the blocked tasks whose counters disagree with their edges, or whose edges are all
resolved. `repair_dependency_counters_internal_v1` recounts those with pending edges and settles the others.
-/

namespace Workhorse

/-- A row of `dependency_counter_drift_v1`. -/
structure DependencyDrift where
  taskId : TaskId
  queueName : String
  pendingPrerequisites : Nat
  pendingEdges : Nat
  dependencyRejected : Bool
  rejectedEdges : Bool
  counterDrifted : Bool
  edgesResolved : Bool

def Db.counterDrifted (db : Db) (id : TaskId) (r : Runtime) : Bool :=
  r.pendingPrerequisites != db.pendingEdges id || r.dependencyRejected != db.rejectedEdges id

def Db.isDrifted (db : Db) (id : TaskId) (r : Runtime) : Bool :=
  r.state == .blocked && (db.counterDrifted id r || db.pendingEdges id == 0)

/-- `dependency_counter_drift_v1`. -/
def dependencyCounterDrift (db : Db) (limit : Int) : Except String (List DependencyDrift) :=
  if limit < 1 ∨ 100000 < limit then throw "dependency counter drift limit must be between 1 and 100000"
  else
    pure <| (((db.runtime.select db.isDrifted).insertionSort fun a b => a.1 ≤ b.1).take limit.toNat).map fun e =>
      { taskId := e.1
        queueName := e.2.queueName
        pendingPrerequisites := e.2.pendingPrerequisites
        pendingEdges := db.pendingEdges e.1
        dependencyRejected := e.2.dependencyRejected
        rejectedEdges := db.rejectedEdges e.1
        counterDrifted := db.counterDrifted e.1 e.2
        edgesResolved := db.pendingEdges e.1 == 0 }

inductive CounterAction
  | recounted
  | rejected
  | released
deriving DecidableEq

structure CounterRepair where
  taskId : TaskId
  recorded : Nat
  pendingEdges : Nat
  rejectedEdges : Bool
  action : CounterAction
deriving DecidableEq

def counterRepair (db : Db) (id : TaskId) : Option CounterRepair :=
  match db.runtime.get? id with
  | none => none
  | some r =>
    if db.counterDrifted id r || db.pendingEdges id == 0 then
      some
        { taskId := id
          recorded := r.pendingPrerequisites
          pendingEdges := db.pendingEdges id
          rejectedEdges := db.rejectedEdges id
          action := if 0 < db.pendingEdges id then .recounted
            else if db.rejectedEdges id then .rejected else .released }
    else none

def recordRepair (db : Db) (c : CounterRepair) : Db :=
  (if c.action = .recounted then db.setCounters c.taskId c.pendingEdges c.rejectedEdges else db).addEvent c.taskId none
    .dependencyCounterRepaired

def ofAction (action : CounterAction) (repairs : List CounterRepair) : List TaskId :=
  (repairs.filter fun c => c.action = action).map (·.taskId)

/-- `repair_dependency_counters_internal_v1`. It settles nothing when no row needs a repair. -/
def repairDependencyCountersInternal (limit : Int) (s : Session) : Except String (List CounterRepair × Session) := do
  let now := s.now
  let s := s.ask
  let drift ← dependencyCounterDrift s.db limit
  let locked := byId ((drift.map (·.taskId)).filter s.db.isBlocked)
  let repairs := locked.filterMap (counterRepair s.db)
  let s := s.update fun db => repairs.foldl recordRepair db
  pure (repairs, settleDependents onOutcomes now (ofAction .rejected repairs) (ofAction .released repairs) s)

end Workhorse
