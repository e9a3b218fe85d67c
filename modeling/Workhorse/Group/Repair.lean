import Workhorse.Group.Counters

/-!
# Repair of a task group

`repair_task_group_internal_v1` and `list_task_group_drift_v1`, and `apply_task_group_outcomes_internal_v1` at the
commit of the transaction that repairs. The rows are those that this transaction sees: it holds the shard rows and the
group row, so no other one writes them before it ends. The rows of a group are at its slots, and a row may be missing.
-/

namespace Workhorse

structure TaskFacts where
  /-- A row of `task_runtime`. -/
  runtime : TaskId → Bool
  /-- A row of `task_outcome`. -/
  outcome : TaskId → Option OutcomeState
  /-- A row of `task`. -/
  stored : TaskId → Bool
  live : ∀ id, runtime id = true → outcome id = none ∧ stored id = true

/-- A `counter_repaired` event. -/
structure RepairEvent where
  group : GroupId
  details : String
  recorded : Shard
  counted : Shard
  shards : List (Nat × Shard × Shard)

structure GroupRows where
  members : Table TaskId Member
  shards : ShardKey → Option Shard
  groups : Table GroupId Group
  /-- `workhorse.task_group_outcomes`. -/
  listed : List TaskId
  events : List RepairEvent

def Shard.same (a b : Shard) : Bool :=
  a .total = b .total && a .succeeded = b .succeeded && a .failed = b .failed && a .canceled = b .canceled

def Shard.isPending (s : Shard) : Bool := s .succeeded + s .failed + s .canceled < s .total

def Shard.none : Shard := fun _ => 0

structure RepairRow where
  group : GroupId
  recordedPending : Int
  pending : Int
  finished : Bool
deriving DecidableEq

structure DriftRow where
  group : GroupId
  state : GroupState
  recorded : Shard
  counted : Shard
  pending : Int
  finished : Bool

def Shard.left (s : Shard) : Int := s .total - s .succeeded - s .failed - s .canceled

section

variable (shardCount : GroupId → Nat)

namespace GroupRows

variable (s : GroupRows) (g : GroupId)

def slots : List Nat := List.range (shardCount g)

def db : GroupDb := ⟨s.members, fun k => (s.shards k).getD .none, fun g => (s.groups.get? g).getD .created⟩

/-- `finish_task_group_internal_v1`. -/
def finish (group : Group) : Group := Frame.blank.finish shardCount s.db g group

def countBy (outcome : TaskId → Member → Option OutcomeState) (slot : Nat) : Shard
  | .total => s.members.count fun _ m => m.key shardCount = (g, slot)
  | column => s.members.count fun id m => m.key shardCount = (g, slot) &&
      (outcome id m).any fun o => Column.of o = column

def counted (slot : Nat) : Shard := s.countBy shardCount g (fun _ m => m.outcome) slot

def sumOf (count : Nat → Shard) : Shard := fun column => ((slots shardCount g).map fun slot => count slot column).sum

def recorded (slot : Nat) : Shard := (s.shards (g, slot)).getD .none

def changed : List Nat := (slots shardCount g).filter fun slot =>
    !(s.shards (g, slot)).any fun row => row.same (s.counted shardCount g slot)

/-- `v_pending_shards`. -/
def countPending : Nat := ((slots shardCount g).filter fun slot => (s.counted shardCount g slot).isPending).length

/-- Record the outcomes that no membership row has yet. A row that another transaction holds is skipped. -/
def recordMissing (facts : TaskFacts) (locked : TaskId → Bool) : GroupRows :=
  { s with
    members := s.members.mapRows fun id m =>
      if m.group = g ∧ m.outcome = none ∧ !facts.runtime id ∧
          ((facts.outcome id).isSome ∨ !facts.stored id) ∧ !locked id then
        { m with outcome := some ((facts.outcome id).getD .canceled) }
      else m }

def unlist : GroupRows :=
  { s with listed := s.listed.filter fun id => !(s.members.get? id).any fun m => m.group = g }

def recount (group : Group) (details : String) : GroupRows :=
  { s with
    shards := fun k =>
      if k.1 = g ∧ k.2 ∈ s.changed shardCount g then some (s.counted shardCount g k.2) else s.shards k
    groups := s.groups.put g { group with pendingShards := s.countPending shardCount g }
    events := s.events ++ [
      { group := g
        details := details
        recorded := sumOf shardCount g (s.recorded g)
        counted := sumOf shardCount g (s.counted shardCount g)
        shards := (s.changed shardCount g).map fun slot =>
          (slot, s.recorded g slot, s.counted shardCount g slot) }] }

def finishRepaired (group : Group) : GroupRows :=
  if group.state = .sealed ∧ group.pendingShards = 0 then
    { s with groups := s.groups.put g (s.finish shardCount g group) }
  else s

/-- `repair_task_group_internal_v1`. -/
def repair (facts : TaskFacts) (locked : TaskId → Bool) (details : String) : GroupRows × Option RepairRow :=
  match s.groups.get? g with
  | none => (s, none)
  | some group =>
    if group.state = .finished then (s, none)
    else
      let s := (s.recordMissing g facts locked).unlist g
      if s.changed shardCount g = [] ∧ group.pendingShards = s.countPending shardCount g ∧
          ¬(group.state = .sealed ∧ s.countPending shardCount g = 0) then (s, none)
      else
        let group := { group with pendingShards := s.countPending shardCount g }
        let repaired := (s.recount shardCount g group details).finishRepaired shardCount g group
        (repaired, some
          { group := g
            recordedPending := (sumOf shardCount g (s.recorded g)).left
            pending := (sumOf shardCount g (s.counted shardCount g)).left
            finished := group.state = .sealed ∧ s.countPending shardCount g = 0 })

/-! ## The drift listing -/

/-- `member_state.state`. -/
def memberState (facts : TaskFacts) (id : TaskId) (m : Member) : Option OutcomeState :=
  (m.outcome.or (facts.outcome id)).or (if facts.stored id then none else some .canceled)

def expected (facts : TaskFacts) (slot : Nat) : Shard := s.countBy shardCount g (memberState facts) slot

def differs (facts : TaskFacts) : Bool := (slots shardCount g).any fun slot =>
    !(s.shards (g, slot)).any fun row => row.same (s.expected shardCount g facts slot)

/-- `recorded_pending_shards`. -/
def recordedPending : Nat := ((slots shardCount g).filter fun slot => (s.shards (g, slot)).any Shard.isPending).length

def settled (facts : TaskFacts) (group : Group) : Bool :=
  let counted := sumOf shardCount g (s.expected shardCount g facts)
  group.state = .sealed && counted .total = counted .succeeded + counted .failed + counted .canceled

def drifted (facts : TaskFacts) (group : Group) : Bool := group.state ≠ .finished && (s.differs shardCount g facts ||
    group.pendingShards ≠ s.recordedPending shardCount g || s.settled shardCount g facts group)

/-- `list_task_group_drift_v1`. -/
def listDrift (facts : TaskFacts) (limit : Int) : Except String (List DriftRow) :=
  if limit < 1 ∨ 10000 < limit then throw "task group drift limit must be between 1 and 10000"
  else
    let drifted := s.groups.select fun g group => s.drifted shardCount g facts group
    pure <| (drifted.mergeSort fun a b => a.1 ≤ b.1).take limit.toNat |>.map fun e =>
      { group := e.1
        state := e.2.state
        recorded := sumOf shardCount e.1 (s.recorded e.1)
        counted := sumOf shardCount e.1 (s.expected shardCount e.1 facts)
        pending := (sumOf shardCount e.1 (s.expected shardCount e.1 facts)).left
        finished := s.settled shardCount e.1 facts e.2 }

/-! ## The commit -/

def listedIn (k : ShardKey) (column : Column) : Nat :=
  s.members.count fun id m => id ∈ s.listed && m.key shardCount = k && m.outcome.any fun o => Column.of o = column

def isTarget (k : ShardKey) : Bool :=
  s.members.any fun id m => id ∈ s.listed && m.key shardCount = k && m.outcome.isSome

def added (k : ShardKey) (row : Shard) : Shard := fun column => row column + s.listedIn shardCount k column

def takes (k : ShardKey) (row : Shard) : Bool :=
  s.isTarget shardCount k && (s.added shardCount k row .succeeded + s.added shardCount k row .failed +
    s.added shardCount k row .canceled ≤ row .total)

def emptied : Nat := ((slots shardCount g).filter fun slot => (s.shards (g, slot)).any fun row =>
    s.takes shardCount (g, slot) row && Shard.pending (s.added shardCount (g, slot) row) = 0).length

def applyShards : GroupRows :=
  { s with shards := fun k => (s.shards k).map fun row =>
      if s.takes shardCount k row then s.added shardCount k row else row }

/-- `apply_task_group_outcomes_internal_v1` for all groups, as the deferred trigger calls it. -/
def applyListed : GroupRows :=
  { s.applyShards shardCount with
    groups := s.groups.mapRows fun g group =>
      if s.emptied shardCount g = 0 then group
      else (s.applyShards shardCount).finish shardCount g
        { group with pendingShards := group.pendingShards - s.emptied shardCount g }
    listed := [] }

end GroupRows

end

end Workhorse
