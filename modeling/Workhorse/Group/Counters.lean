import Mathlib
import Workhorse.Lib.Table
import Workhorse.Schema.Types

/-!
# Task groups among other transactions

A group counts the outcomes of its members in shards. The statement that writes an outcome records it on
the membership row and lists the member in its transaction; the apply step, at the commit or at once,
adds the listed outcomes to the shard rows, lowers `pending_shard_count` for each shard that has no
pending member left, and finishes a sealed group without a pending shard. Statements of several
connections interleave. Each sees the committed rows and its own writes, and the rows it has locked stay
as they are until its transaction ends. A rollback to a savepoint takes back the writes, the locks and the
list since.
-/

namespace Workhorse

abbrev GroupId := Nat

/-- A row of `task_group_member`. -/
structure Member where
  group : GroupId
  position : Nat
  outcome : Option OutcomeState
deriving DecidableEq

inductive Column
  | total
  | succeeded
  | failed
  | canceled
deriving DecidableEq

def Column.of : OutcomeState → Column
  | .succeeded => .succeeded
  | .failed => .failed
  | .canceled => .canceled

/-- The key of a shard row: the group and `(position - 1) % shard_count`. -/
abbrev ShardKey := GroupId × Nat

/-- A row of `task_group_shard`. -/
abbrev Shard := Column → Nat

def Shard.pending (s : Shard) : Nat := s .total - (s .succeeded + s .failed + s .canceled)

inductive GroupState
  | open_
  | sealed
  | finished
deriving DecidableEq

inductive CallbackKind
  | onFinish
  | onSuccess
  | onFailure
deriving DecidableEq

/-- A row of `task_group`, with its rows of `task_group_callback`. -/
structure Group where
  state : GroupState
  pendingShards : Nat
  /-- `canceled_at` is set. -/
  canceled : Bool
  /-- `result = 'succeeded'`, once the group is finished. -/
  succeeded : Option Bool
  counts : Shard
  callbacks : List CallbackKind

def Group.created : Group := ⟨.open_, 0, false, none, fun _ => 0, []⟩

/-- The committed rows. Every group exists from the start, open and without members. -/
structure GroupDb where
  members : Table TaskId Member
  shards : ShardKey → Shard
  groups : GroupId → Group

def GroupDb.empty : GroupDb := ⟨.empty, fun _ _ => 0, fun _ => .created⟩

/-- The rows that a transaction has locked, as it has written them, and its list of members. -/
structure Frame where
  members : Table TaskId Member
  shards : ShardKey → Option Shard
  groups : GroupId → Option Group
  /-- `workhorse.task_group_outcomes`: recorded and not applied. -/
  listed : List TaskId

def Frame.blank : Frame := ⟨.empty, fun _ => none, fun _ => none, []⟩

structure GroupTx where
  frame : Frame
  /-- The shards whose last pending outcome the apply step at hand has counted, and whose group rows it
  has yet to lower. -/
  emptied : List ShardKey
  savepoints : List Frame

structure GroupStore where
  db : GroupDb
  txs : Table Nat GroupTx

def GroupDb.view (db : GroupDb) (f : Frame) : GroupDb where
  members := db.members.overlay f.members
  shards k := (f.shards k).getD (db.shards k)
  groups g := (f.groups g).getD (db.groups g)

section Statements

-- `task_group.shard_count`, which never changes.
variable (shardCount : GroupId → Nat)

def Member.key (m : Member) : ShardKey := (m.group, (m.position - 1) % shardCount m.group)

namespace Frame

variable (db : GroupDb) (f : Frame)

/-- `record_task_group_outcomes_internal_v1`, for a member without an outcome. -/
def record (id : TaskId) (m : Member) (outcome : OutcomeState) : Frame :=
  { f with
    members := f.members.put id { m with outcome := some outcome }
    listed := f.listed ++ [id] }

def listedIn (key : ShardKey) (column : Column) : Nat :=
  f.members.count fun id m => id ∈ f.listed && m.key shardCount = key &&
    m.outcome.any fun o => Column.of o = column

/-- The shard row of `apply_task_group_outcomes_internal_v1`, after it. -/
def counted (key : ShardKey) : Shard := fun column =>
  (db.view f).shards key column + f.listedIn shardCount key column

def unlisted (key : ShardKey) : List TaskId :=
  f.listed.filter fun id => !(f.members.get? id).any fun m => m.key shardCount = key

/-- `apply_task_group_outcomes_internal_v1` on one shard. A shard without room for the outcomes keeps
its counts. -/
def applyShard (key : ShardKey) : Frame :=
  { f with
    shards := Function.update f.shards key
      (some (if f.counted shardCount db key .succeeded + f.counted shardCount db key .failed +
          f.counted shardCount db key .canceled ≤ f.counted shardCount db key .total then
        f.counted shardCount db key else (db.view f).shards key))
    listed := f.unlisted shardCount key }

def empties (key : ShardKey) : Bool := f.counted shardCount db key .succeeded + f.counted shardCount db key .failed +
    f.counted shardCount db key .canceled ≤ f.counted shardCount db key .total &&
  Shard.pending (f.counted shardCount db key) == 0

def sum (g : GroupId) (column : Column) : Nat :=
  ((List.range (shardCount g)).map fun s => (db.view f).shards (g, s) column).sum

/-- `finish_task_group_internal_v1`, by the holder of the group row. -/
def finish (g : GroupId) (group : Group) : Group :=
  let counts : Shard := f.sum shardCount db g
  if group.state = .sealed ∧ group.pendingShards = 0 ∧
      counts .succeeded + counts .failed + counts .canceled = counts .total then
    { group with
      state := .finished
      succeeded := some (counts .succeeded = counts .total)
      counts := counts
      callbacks := group.callbacks ++
        [.onFinish, if counts .succeeded = counts .total then .onSuccess else .onFailure] }
  else group

def setGroup (g : GroupId) (group : Group) : Frame :=
  { f with groups := Function.update f.groups g (some group) }

/-- Lower `pending_shard_count` for the shards that the apply step emptied. -/
def applyGroup (g : GroupId) (shards : Nat) : Frame :=
  let group := (db.view f).groups g
  let lowered := { group with pendingShards := group.pendingShards - shards }
  f.setGroup g (f.finish shardCount db g lowered)

def lockGroup (g : GroupId) : Frame :=
  { f with
    shards := fun k => if k.1 = g ∧ k.2 < shardCount g then some ((db.view f).shards k) else f.shards k
    groups := Function.update f.groups g (some ((db.view f).groups g)) }

def addMember (g : GroupId) (id : TaskId) : Frame :=
  let total := f.sum shardCount db g .total
  let key : ShardKey := (g, total % shardCount g)
  let shard := (db.view f).shards key
  let group := (db.view f).groups g
  { f with
    members := f.members.put id ⟨g, total + 1, none⟩
    shards := Function.update f.shards key
      (some (Function.update shard .total (shard .total + 1)))
    groups := Function.update f.groups g
      (some { group with pendingShards := group.pendingShards + if shard.pending = 0 then 1 else 0 }) }

/-- `seal_task_group_internal_v1`. -/
def sealGroup (g : GroupId) : Frame :=
  let group := (db.view f).groups g
  f.setGroup g
    (if group.state = .open_ then f.finish shardCount db g { group with state := .sealed } else group)

/-- `cancel_task_group_v1` up to its cancels of members, on a group that is not finished. Where it finds
no pending member, it has none to cancel, and the group finishes. -/
def cancelGroup (g : GroupId) : Frame :=
  let group := (db.view f).groups g
  f.setGroup g (f.finish shardCount db g { group with state := .sealed, canceled := true })

end Frame

inductive GroupEvent
  | begin (conn : Nat)
  | record (conn : Nat) (id : TaskId) (outcome : OutcomeState)
  | applyShard (conn : Nat) (key : ShardKey)
  | applyGroup (conn : Nat) (g : GroupId)
  /-- `add_task_group_members_v1`, by a running member or an outside caller. -/
  | add (conn : Nat) (g : GroupId) (ids : List TaskId) (member : Option TaskId)
  | sealGroup (conn : Nat) (g : GroupId)
  | cancel (conn : Nat) (g : GroupId)
  | savepoint (conn : Nat)
  | rollbackTo (conn : Nat)
  | release (conn : Nat)
  | commit (conn : Nat)
  | rollback (conn : Nat)

namespace GroupStore

variable (σ : GroupStore)

def set (conn : Nat) (t : GroupTx) : GroupStore := { σ with txs := σ.txs.put conn t }

def others (conn : Nat) (p : Frame → Bool) : Bool := σ.txs.any fun k t => k ≠ conn && p t.frame

def groupFree (conn : Nat) (g : GroupId) : Bool := !σ.others conn fun f => (f.groups g).isSome ||
    (List.range (shardCount g)).any fun s => (f.shards (g, s)).isSome

def accepts (db : GroupDb) (g : GroupId) (member : Option TaskId) : Bool :=
  !(db.groups g).canceled && (db.groups g).state != .finished &&
    match member with
    | some m => (db.members.get? m).any fun row => row.group = g && row.outcome.isNone
    | none => (db.groups g).state != .sealed

def areNew (ids : List TaskId) : Bool := ids.Nodup && ids.all fun id => (σ.db.members.get? id).isNone &&
    !σ.txs.any fun _ t => (t.frame.members.get? id).isSome

/-- The limit of `task_group_member_limit_v1`. -/
def memberLimit : Nat := 100000

def step : GroupEvent → Option GroupStore
  | .begin conn => if σ.txs.contains conn then none else some (σ.set conn ⟨.blank, [], []⟩)
  | .record conn id outcome => (σ.txs.get? conn).bind fun t =>
    ((σ.db.view t.frame).members.get? id).bind fun m =>
      if t.emptied = [] ∧ m.outcome = none ∧ !σ.others conn (fun f => (f.members.get? id).isSome) then
        some (σ.set conn { t with frame := t.frame.record id m outcome })
      else none
  | .applyShard conn key => (σ.txs.get? conn).bind fun t =>
    if (t.frame.listed.any fun id => (t.frame.members.get? id).any fun m => m.key shardCount = key) ∧
        !σ.others conn (fun f => (f.shards key).isSome) then
      some (σ.set conn { t with
        frame := t.frame.applyShard shardCount σ.db key
        emptied := if t.frame.empties shardCount σ.db key then key :: t.emptied else t.emptied })
    else none
  | .applyGroup conn g => (σ.txs.get? conn).bind fun t =>
    if (t.emptied.any fun k => k.1 = g) ∧ !σ.others conn (fun f => (f.groups g).isSome) then
      some (σ.set conn { t with
        frame := t.frame.applyGroup shardCount σ.db g (t.emptied.countP fun k => k.1 = g)
        emptied := t.emptied.filter fun k => k.1 ≠ g })
    else none
  | .add conn g ids member => (σ.txs.get? conn).bind fun t =>
    let f := t.frame.lockGroup shardCount σ.db g
    if t.emptied = [] ∧ σ.groupFree shardCount conn g ∧ accepts (σ.db.view f) g member ∧
        σ.areNew ids ∧ f.sum shardCount σ.db g .total + ids.length ≤ memberLimit then
      some (σ.set conn { t with
        frame := ids.foldl (fun f id => f.addMember shardCount σ.db g id) f })
    else none
  | .sealGroup conn g => (σ.txs.get? conn).bind fun t =>
    if t.emptied = [] ∧ !σ.others conn (fun f => (f.groups g).isSome) then
      some (σ.set conn { t with frame := t.frame.sealGroup shardCount σ.db g })
    else none
  | .cancel conn g => (σ.txs.get? conn).bind fun t =>
    let f := t.frame.lockGroup shardCount σ.db g
    if t.emptied = [] ∧ σ.groupFree shardCount conn g ∧ ((σ.db.view f).groups g).state ≠ .finished then
      some (σ.set conn { t with frame := f.cancelGroup shardCount σ.db g })
    else none
  | .savepoint conn => (σ.txs.get? conn).bind fun t =>
    if t.emptied = [] then some (σ.set conn { t with savepoints := t.frame :: t.savepoints }) else none
  | .rollbackTo conn => (σ.txs.get? conn).bind fun t =>
    match t.savepoints with
    | [] => none
    | f :: _ => some (σ.set conn { t with frame := f, emptied := [] })
  | .release conn => (σ.txs.get? conn).bind fun t =>
    match t.savepoints with
    | [] => none
    | _ :: rest => some (σ.set conn { t with savepoints := rest })
  -- The deferred trigger has applied the list.
  | .commit conn => (σ.txs.get? conn).bind fun t =>
    if t.emptied = [] ∧ t.frame.listed = [] then
      some { db := σ.db.view t.frame, txs := σ.txs.erase conn }
    else none
  | .rollback conn => some { σ with txs := σ.txs.erase conn }

def fresh : GroupStore := ⟨.empty, .empty⟩

def run : GroupStore → List GroupEvent → Option GroupStore
  | σ, [] => some σ
  | σ, e :: events => (σ.step shardCount e).bind fun σ' => run σ' events

end GroupStore

end Statements

end Workhorse
