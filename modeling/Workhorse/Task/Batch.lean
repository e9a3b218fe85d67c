import Workhorse.Task.FastTier

/-!
# Batched completions and their order

`fast_complete_many_v1` works on sets of rows. Its loop takes the oversized entries by task identity,
and its `DELETE` joins the other entries to their rows. The server chooses what the statements leave
open: the order of entries of one task in the loop, and the entry that a row is deleted with when
several match it.
-/

namespace Workhorse

/-- The orders in which a batch may work through its oversized entries and the rest of them. -/
structure Joins (db : Db) (entries oversized rest : List Completion) : Prop where
  failing : oversized.Perm (entries.filter (·.oversized db))
  byTask : oversized.Pairwise (·.taskId ≤ ·.taskId)
  completing : rest.Perm (entries.filter fun c => !(oversized.map (·.taskId)).contains c.taskId)

/-- `fast_complete_many_v1` in the order of the server. A row that several entries match goes with the
first of them. -/
def fastCompleteJoined (worker : String) (oversized rest : List Completion) : Tx (List TaskId) := do
  let db ← database
  oversized.forM fun c => do
    let taskType := ((db.fastRuntime.get? c.taskId).map (·.taskType)).getD ""
    let _ ← fastFail c.taskId worker c.fenceToken (some (.taskValueSizeLimitError taskType)) none
  let now ← clockTimestamp
  rest.foldlM (fastCompleteEntry worker now) []

def completeOneByOne (worker : String) (entries : List Completion) : Tx (List TaskId) :=
  entries.foldlM (fun accepted c => do pure (accepted ++ (← fastCompleteMany worker [c]))) []

/-- Two ways to complete a list of entries accept the same tasks and leave the same outcomes. -/
def SameVerdicts (x y : List TaskId × Session) : Prop :=
  x.1.Perm y.1 ∧ ∀ id, x.2.db.fastOutcomes.get? id = y.2.db.fastOutcomes.get? id

def entriesOf (id : TaskId) (entries : List Completion) : List Completion := entries.filter fun c => c.taskId = id

/-- Among the entries of a row's task, the first under its fence token is oversized, or none of them is
and those under the token carry one result. -/
def FastRuntime.Uncontested (r : FastRuntime) (entries : List Completion) : Prop :=
  ∀ c, entries.find? (fun c => r.fenceToken = c.fenceToken) = some c →
    r.resultMaxBytes < resultSize c.result ∨ ∀ c' ∈ entries, ¬r.resultMaxBytes < resultSize c'.result ∧
        (r.fenceToken = c'.fenceToken → c'.result.getD .null = c.result.getD .null)

variable {worker : String} {entries : List Completion} {s : Session}

theorem joins_insertionSort (db : Db) (entries : List Completion) :
    let oversized := (entries.filter (·.oversized db)).insertionSort fun a b => a.taskId ≤ b.taskId
    Joins db entries oversized
      (entries.filter fun c => !(oversized.map (·.taskId)).contains c.taskId) := by
  refine ⟨List.perm_insertionSort _ _, ?_, .refl _⟩
  have : Std.Total fun a b : Completion => a.taskId ≤ b.taskId := ⟨fun a b => le_total a.taskId b.taskId⟩
  have : IsTrans Completion fun a b => a.taskId ≤ b.taskId := ⟨fun _ _ _ => le_trans⟩
  exact List.pairwise_insertionSort _ _

theorem fastCompleteMany_eq_joined : fastCompleteMany worker entries s =
    let oversized := (entries.filter (·.oversized s.db)).insertionSort fun a b => a.taskId ≤ b.taskId
    fastCompleteJoined worker oversized
      (entries.filter fun c => !(oversized.map (·.taskId)).contains c.taskId) s :=
  rfl

end Workhorse
