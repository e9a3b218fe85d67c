import Mathlib.Data.Prod.Lex
import Workhorse.Lib.Calendar
import Workhorse.Lib.Keyset
import Workhorse.Schema.Rows
import Workhorse.Stats.Rollup

/-!
# The task list of the dashboard

`dashboard_tasks_cursor_v1`: the rows that its views show, the filters, and one page of the rows in the order of the
request. A cursor is a text, and a page reads the text of the page before it.
-/

namespace Workhorse

inductive ListedState
  | blocked
  | scheduled
  | ready
  | active
  | succeeded
  | failed
  | canceled
deriving DecidableEq

def RuntimeState.listed : RuntimeState → ListedState
  | .blocked => .blocked
  | .scheduled => .scheduled
  | .ready => .ready
  | .active => .active

def OutcomeState.listed : OutcomeState → ListedState
  | .succeeded => .succeeded
  | .failed => .failed
  | .canceled => .canceled

/-- The columns of `dashboard_task_v1` that the list reads. -/
structure DashboardTask where
  queueName : String
  taskType : String
  priority : Nat
  tags : List String

/-- The columns of `task_runtime` that the list reads. -/
structure RuntimeRow where
  taskId : TaskId
  state : RuntimeState
  currentAttempt : Nat
  workerId : Option String
  waitName : Option String
  updatedAt : Time

/-- The columns of `fast_task_runtime` that the list reads. -/
structure FastRuntimeRow where
  taskId : TaskId
  state : FastState
  attempt : Nat
  runAt : Time
  workerId : Option String
  claimedAt : Option Time

/-- The columns of `task_outcome` that the list reads. -/
structure OutcomeRow where
  taskId : TaskId
  state : OutcomeState
  currentAttempt : Nat
  updatedAt : Time

/-- The columns of `fast_task_outcome` that the list reads. -/
structure FastOutcomeRow where
  taskId : TaskId
  state : OutcomeState
  attempt : Nat
  finishedAt : Time

/-- A row of `dashboard_task_runtime_v1` or of `dashboard_task_outcome_v1`. -/
structure ViewRow where
  taskId : TaskId
  state : ListedState
  attempt : Nat
  workerId : Option String
  waitName : Option String
  updatedAt : Time

def RuntimeRow.view (r : RuntimeRow) : ViewRow :=
  ⟨r.taskId, r.state.listed, r.currentAttempt, r.workerId, r.waitName, r.updatedAt⟩

def FastRuntimeRow.view (now : Time) (r : FastRuntimeRow) : ViewRow where
  taskId := r.taskId
  state := match r.state with
    | .ready => if now < r.runAt then .scheduled else .ready
    | .active => .active
  attempt := r.attempt
  workerId := r.workerId
  waitName := none
  updatedAt := r.claimedAt.getD r.runAt

def OutcomeRow.view (o : OutcomeRow) : ViewRow := ⟨o.taskId, o.state.listed, o.currentAttempt, none, none, o.updatedAt⟩

def FastOutcomeRow.view (o : FastOutcomeRow) : ViewRow :=
  ⟨o.taskId, o.state.listed, o.attempt, none, none, o.finishedAt⟩

structure DashboardDb where
  /-- `statement_timestamp()`. -/
  now : Time
  task : TaskId → Option DashboardTask
  /-- The queue and the type in `task_query`. -/
  taskQuery : TaskId → Option (String × String)
  taskRuntime : List RuntimeRow
  fastTaskRuntime : List FastRuntimeRow
  taskOutcome : List OutcomeRow
  fastTaskOutcome : List FastOutcomeRow
  /-- Whether `dashboard_signal_wait_v1` or `dashboard_human_wait_v1` has a row. -/
  waiting : TaskId → Bool
  /-- The worker of a row of `dashboard_task_wait_v1`. -/
  waitWorker : TaskId → String → Option String
  /-- The worker of the last attempt in `dashboard_attempt_history_v1`. -/
  attemptWorker : TaskId → Option String
  idText : TaskId → String
  /-- `ILIKE … ESCAPE '!'`, with the collation of the database. -/
  ilike : String → String → Bool
  one_row : (taskRuntime.map (·.taskId) ++ fastTaskRuntime.map (·.taskId) ++ taskOutcome.map (·.taskId) ++
    fastTaskOutcome.map (·.taskId)).Nodup

/-- `filter`. -/
inductive StateFilter
  | blocked
  | waiting
  | scheduled
  | retried
  | queued
  | running
  | completed
  | discarded
  | canceled
  | all
deriving DecidableEq

/-- `sort`. -/
inductive TaskSort
  | updated
  | priority
deriving DecidableEq

/-- `direction`. -/
inductive Direction
  | next
  | previous
deriving DecidableEq

structure TaskQuery where
  filter : StateFilter
  queue : Option String
  worker : Option String
  taskType : Option String
  priority : Option Nat
  tags : List String
  search : Option String
  sort : TaskSort
  pageSize : Int

/-- A row of `task_rows`. -/
structure ListedTask where
  id : TaskId
  queue : String
  type : String
  priority : Nat
  state : ListedState
  attempt : Nat
  tags : List String
  currentWorkerId : Option String
  waitName : Option String
  updatedAt : Time
deriving DecidableEq

namespace DashboardDb

variable (db : DashboardDb) (q : TaskQuery)

def viewRows : List ViewRow :=
  db.taskRuntime.map RuntimeRow.view ++ db.fastTaskRuntime.map (FastRuntimeRow.view db.now) ++
    db.taskOutcome.map OutcomeRow.view ++ db.fastTaskOutcome.map FastOutcomeRow.view

/-- The join on `dashboard_task_query_v1`, which is only made for a queue or a task type. -/
def inTaskScope (id : TaskId) : Bool :=
  if q.queue.isNone && q.taskType.isNone then true
  else (db.taskQuery id).any fun r => q.queue.all (r.1 == ·) && q.taskType.all (r.2 == ·)

def taskRow (r : ViewRow) : Option ListedTask :=
  match db.task r.taskId with
  | none => none
  | some j =>
    if db.inTaskScope q r.taskId then
      some ⟨r.taskId, j.queueName, j.taskType, j.priority, r.state, r.attempt, j.tags, r.workerId, r.waitName,
        r.updatedAt⟩
    else none

/-- `task_rows`. -/
def taskRows : List ListedTask := db.viewRows.filterMap (db.taskRow q)

def passesState (t : ListedTask) : Bool :=
  match q.filter with
  | .blocked => t.state == .blocked
  | .waiting => db.waiting t.id
  | .scheduled => t.state == .scheduled
  | .retried => 1 < t.attempt
  | .queued => t.state == .ready
  | .running => t.state == .active
  | .completed => t.state == .succeeded
  | .discarded => t.state == .failed
  | .canceled => t.state == .canceled
  | .all => true

def shownWorker (t : ListedTask) : Option String :=
  t.currentWorkerId <|> (t.waitName.bind (db.waitWorker t.id)) <|> db.attemptWorker t.id

end DashboardDb

/-- `search_filter`: the search with its wildcards escaped, and `*` for any text. -/
def searchFilter (search : String) : String := "%" ++ String.ofList (search.toList.flatMap fun c =>
    if c = '!' then ['!', '!'] else if c = '%' then ['!', '%'] else if c = '_' then ['!', '_']
    else if c = '*' then ['%'] else [c]) ++ "%"

namespace DashboardDb

variable (db : DashboardDb) (q : TaskQuery)

/-- The conditions of `filtered`. -/
def passes (t : ListedTask) : Bool :=
  db.passesState q t && q.queue.all (t.queue == ·) && q.worker.all (fun w => db.shownWorker t == some w) &&
    q.taskType.all (t.type == ·) && q.priority.all (t.priority == ·) &&
    (q.tags.isEmpty || t.tags.any (q.tags.contains ·)) &&
    q.search.all fun search =>
      db.ilike t.type (searchFilter search) || db.ilike t.queue (searchFilter search) ||
        db.ilike (db.idText t.id) (searchFilter search)

/-- `filtered`. -/
def filtered : List ListedTask := (db.taskRows q).filter (db.passes q)

end DashboardDb

/-! ## Cursors -/

/-- `to_char(…, 'YYYY-MM-DD"T"HH24:MI:SS.US"Z"')`. A year has no era. -/
structure Stamp where
  year : Nat
  month : Nat
  day : Nat
  timeOfDay : Time
deriving DecidableEq

def toChar (t : Time) : Stamp :=
  let date := Calendar.civil (t / oneDay)
  ⟨(if date.year ≤ 0 then 1 - date.year else date.year).toNat, date.month, date.day, t % oneDay⟩

/-- The cast of the text to `timestamptz`. -/
def Stamp.read (s : Stamp) : Except String Time :=
  let date : Calendar.Date := ⟨s.year, s.month, s.day⟩
  if Calendar.civil date.dayNumber = date then pure (date.dayNumber * oneDay + s.timeOfDay)
  else throw "date/time field value out of range"

structure Cursor where
  id : TaskId
  priority : Nat
  updatedAt : Stamp
deriving DecidableEq

def ListedTask.cursor (t : ListedTask) : Cursor := ⟨t.id, t.priority, toChar t.updatedAt⟩

abbrev RowKey := Nat ×ₗ Int ×ₗ Nat

/-- `(priority, updated_at, id)`, or `(updated_at, id)`. -/
def TaskSort.key (sort : TaskSort) (priority : Nat) (updatedAt : Time) (id : TaskId) : RowKey :=
  match sort with
  | .updated => toLex (0, toLex (updatedAt, id))
  | .priority => toLex (priority, toLex (updatedAt, id))

def TaskSort.rowKey (sort : TaskSort) (t : ListedTask) : RowKey := sort.key t.priority t.updatedAt t.id

/-- `__order__`. -/
def orderBy (direction : Direction) (sort : TaskSort) (rows : List ListedTask) : List ListedTask :=
  match direction with
  | .next => Keyset.sortDesc sort.rowKey rows
  | .previous => Keyset.sortAsc sort.rowKey rows

/-- `__cursor__`. -/
def pastCursor (direction : Direction) (sort : TaskSort) (bound : Option RowKey) (t : ListedTask) : Bool :=
  match bound, direction with
  | none, _ => true
  | some bound, .next => sort.rowKey t < bound
  | some bound, .previous => bound < sort.rowKey t

structure TaskPage where
  tasks : List ListedTask
  nextCursor : Option Cursor
  previousCursor : Option Cursor
deriving DecidableEq

def Cursor.bound (sort : TaskSort) (c : Cursor) : Except String RowKey := do
  pure (sort.key c.priority (← c.updatedAt.read) c.id)

/-- The page of the rows past a key, with a row more to see whether there is a page after it. -/
def pageOf (direction : Direction) (sort : TaskSort) (size : Nat) (bound : Option RowKey)
    (rows : List ListedTask) : TaskPage :=
  let candidates := (orderBy direction sort (rows.filter (pastCursor direction sort bound))).take (size + 1)
  let pageIds := (orderBy direction sort candidates).take size
  let more : Bool := size < candidates.length
  { tasks := Keyset.sortDesc sort.rowKey pageIds
    nextCursor :=
      if (direction = .previous ∧ bound.isSome) ∨ (direction = .next ∧ more) then
        (Keyset.sortAsc sort.rowKey pageIds).head?.map ListedTask.cursor
      else none
    previousCursor :=
      if (direction = .next ∧ bound.isSome) ∨ (direction = .previous ∧ more) then
        (Keyset.sortDesc sort.rowKey pageIds).head?.map ListedTask.cursor
      else none }

/-- `dashboard_tasks_cursor_v1`. -/
def dashboardTasksCursor (db : DashboardDb) (q : TaskQuery) (direction : Direction) (cursor : Option Cursor) :
    Except String TaskPage :=
  -- `page_size + 1` is an `integer`.
  if 2147483647 < q.pageSize + 1 then throw "integer out of range"
  else if q.pageSize < 0 then throw "LIMIT must not be negative"
  else
    match cursor with
    | none => pure (pageOf direction q.sort q.pageSize.toNat none (db.filtered q))
    | some c => do
      let bound ← c.bound q.sort
      pure (pageOf direction q.sort q.pageSize.toNat (some bound) (db.filtered q))

/-- The pages that a reader gets who follows the next cursor, if there are at most `fuel` of them. -/
def followNext (db : DashboardDb) (q : TaskQuery) : Nat → Option Cursor → Except String (List TaskPage)
  | 0, _ => throw "not at the end"
  | fuel + 1, cursor => do
    let page ← dashboardTasksCursor db q .next cursor
    match page.nextCursor with
    | none => pure [page]
    | some c => do
      let pages ← followNext db q fuel (some c)
      pure (page :: pages)

end Workhorse
