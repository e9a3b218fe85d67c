import Workhorse.Task.Checks
import Workhorse.Task.Purge
import Workhorse.Task.Enqueue

/-!
# The core relations and how they move

A task's life is told by a few relations: its definition, the row of its tier, its outcome and its
dependency edges, with the sequence of fence tokens. `Core` holds them. Four relations say what
transactions do to a core. `Quiet` changes a row that is not blocked, starts it or records a boundary; `Resolve` is one
write of dependency resolution; `Write` joins them with the writes of enqueue and purge; `Move` adds the
release of an owned task, which alone may use up the execution time of an attempt. `Act` adds to `Quiet`
that a task finishes with everything its outcome triggers. Every call is a sequence of acts, apart from
enqueue, purge and release.
-/

namespace Workhorse

open Relation

structure Boundaries where
  waits : Table (TaskId × String) TaskWait
  signalWaits : Table (TaskId × String) SignalWait
  humanWaits : Table (TaskId × String) HumanWait
  checkpoints : Table (TaskId × String) Checkpoint

/-- The boundaries of a task stay: a checkpoint or a timed wait as it is, and a signal wait or a human
wait too, but for a first delivery. -/
structure Boundaries.Grows (id : TaskId) (b b' : Boundaries) : Prop where
  wait : ∀ name w, b.waits.get? (id, name) = some w → b'.waits.get? (id, name) = some w
  signal : ∀ name w, b.signalWaits.get? (id, name) = some w →
    b'.signalWaits.get? (id, name) = some w ∨ w.delivery = none ∧
      ∃ d, b'.signalWaits.get? (id, name) = some { w with delivery := some d }
  human : ∀ name w, b.humanWaits.get? (id, name) = some w → b'.humanWaits.get? (id, name) = some w ∨ w.delivery = none ∧
      ∃ d, b'.humanWaits.get? (id, name) = some { w with delivery := some d }
  checkpoint : ∀ name c, b.checkpoints.get? (id, name) = some c → b'.checkpoints.get? (id, name) = some c

/-- The relations that place a task, with its boundaries, the last fence token and the host. -/
structure Core where
  tasks : Table TaskId Task
  runtime : Table TaskId Runtime
  outcomes : Table TaskId Outcome
  dependencies : Table (TaskId × TaskId) Dependency
  fastRuntime : Table TaskId FastRuntime
  fastOutcomes : Table TaskId FastOutcome
  fenceSeq : Nat
  /-- The number of rows that `attempt_history` has for an attempt of a task. -/
  attempts : TaskId → Nat → Nat
  boundaries : Boundaries
  host : Host

def Db.core (db : Db) (host : Host) : Core :=
  ⟨db.tasks, db.runtime, db.outcomes, db.dependencies, db.fastRuntime, db.fastOutcomes, db.fenceSeq,
    fun id n => db.attemptHistory.countP fun a => id = a.taskId ∧ n = a.attempt,
    ⟨db.waits, db.signalWaits, db.humanWaits, db.checkpoints⟩, host⟩

def Session.core (s : Session) : Core := s.db.core s.host

namespace Core

def setRuntime (c : Core) (id : TaskId) (r : Runtime) : Core :=
  { c with runtime := c.runtime.put id r }

def setFast (c : Core) (id : TaskId) (r : FastRuntime) : Core :=
  { c with fastRuntime := c.fastRuntime.put id r }

def setCounters (c : Core) (id : TaskId) (pending : Nat) (rejected : Bool) : Core :=
  { c with
    runtime := c.runtime.modify id fun r =>
      { r with pendingPrerequisites := pending, dependencyRejected := rejected } }

def draw (c : Core) : Core := { c with fenceSeq := c.fenceSeq + 1 }

def close (c : Core) (id : TaskId) (o : Outcome) : Core :=
  { c with runtime := c.runtime.erase id, outcomes := c.outcomes.put id o }

def fastClose (c : Core) (id : TaskId) (o : FastOutcome) : Core :=
  { c with fastRuntime := c.fastRuntime.erase id, fastOutcomes := c.fastOutcomes.put id o }

def record (c : Core) (id : TaskId) (n : Nat) : Core :=
  { c with attempts := fun k m => c.attempts k m + if k = id ∧ m = n then 1 else 0 }

def note (c : Core) (id : TaskId) (n : Nat) (recorded : Bool) : Core :=
  { c with attempts := if recorded then (c.record id n).attempts else c.attempts }

def create (c : Core) (id : TaskId) (t : Task) (r : Runtime) : Core :=
  { c with tasks := c.tasks.put id t, runtime := c.runtime.put id r }

def createFast (c : Core) (id : TaskId) (t : Task) (r : FastRuntime) : Core :=
  { c with tasks := c.tasks.put id t, fastRuntime := c.fastRuntime.put id r }

end Core

namespace Boundaries.Grows

variable {id : TaskId} {b b₁ b' : Boundaries}

theorem refl (b : Boundaries) : b.Grows id b := ⟨fun _ _ h => h, fun _ _ => .inl, fun _ _ => .inl, fun _ _ h => h⟩

theorem trans (h : b.Grows id b₁) (h' : b₁.Grows id b') : b.Grows id b' where
  wait name w hw := h'.wait name w (h.wait name w hw)
  signal name w hw := by
    rcases h.signal name w hw with hw | ⟨hnone, d, hw⟩
    · exact h'.signal name w hw
    · rcases h'.signal name _ hw with hw | ⟨hd, -⟩
      · exact .inr ⟨hnone, d, hw⟩
      · cases hd
  human name w hw := by
    rcases h.human name w hw with hw | ⟨hnone, d, hw⟩
    · exact h'.human name w hw
    · rcases h'.human name _ hw with hw | ⟨hd, -⟩
      · exact .inr ⟨hnone, d, hw⟩
      · cases hd
  checkpoint name c hc := h'.checkpoint name c (h.checkpoint name c hc)

theorem waits {t : Table (TaskId × String) TaskWait}
    (h : ∀ k w, b.waits.get? k = some w → t.get? k = some w) : b.Grows id { b with waits := t } :=
  { refl b with wait := fun name => h (id, name) }

theorem signalWaits {t : Table (TaskId × String) SignalWait}
    (h : ∀ k w, b.signalWaits.get? k = some w → t.get? k = some w) :
    b.Grows id { b with signalWaits := t } :=
  { refl b with signal := fun name w hw => .inl (h (id, name) w hw) }

theorem humanWaits {t : Table (TaskId × String) HumanWait}
    (h : ∀ k w, b.humanWaits.get? k = some w → t.get? k = some w) :
    b.Grows id { b with humanWaits := t } :=
  { refl b with human := fun name w hw => .inl (h (id, name) w hw) }

theorem checkpoints {t : Table (TaskId × String) Checkpoint}
    (h : ∀ k c, b.checkpoints.get? k = some c → t.get? k = some c) :
    b.Grows id { b with checkpoints := t } :=
  { refl b with checkpoint := fun name => h (id, name) }

theorem deliverSignal {k : TaskId × String} {w : SignalWait} (hw : b.signalWaits.get? k = some w)
    (hnone : w.delivery = none) (d : Delivery) :
    b.Grows id { b with signalWaits := b.signalWaits.put k { w with delivery := some d } } :=
  { refl b with
    signal := fun name v hv => by
      by_cases hk : (id, name) = k
      · rw [hk, hw] at hv
        cases hv
        exact .inr ⟨hnone, d, by rw [Table.get?_put, if_pos hk]⟩
      · exact .inl (by rw [Table.get?_put, if_neg hk, hv]) }

theorem deliverHuman {k : TaskId × String} {w : HumanWait} (hw : b.humanWaits.get? k = some w)
    (hnone : w.delivery = none) (d : Delivery) :
    b.Grows id { b with humanWaits := b.humanWaits.put k { w with delivery := some d } } :=
  { refl b with
    human := fun name v hv => by
      by_cases hk : (id, name) = k
      · rw [hk, hw] at hv
        cases hv
        exact .inr ⟨hnone, d, by rw [Table.get?_put, if_pos hk]⟩
      · exact .inl (by rw [Table.get?_put, if_neg hk, hv]) }

end Boundaries.Grows

/-! ## Cores of sessions -/

namespace Session

variable (s : Session)

@[simp] theorem core_ask : s.ask.core = s.core := rfl

@[simp] theorem core_update (f : Db → Db) : (s.update f).core = (f s.db).core s.host := rfl

@[simp] theorem core_nextReadySequence : s.nextReadySequence.2.core = s.core := rfl

@[simp] theorem runtime_core : s.core.runtime = s.db.runtime := rfl
@[simp] theorem outcomes_core : s.core.outcomes = s.db.outcomes := rfl
@[simp] theorem dependencies_core : s.core.dependencies = s.db.dependencies := rfl
@[simp] theorem fastRuntime_core : s.core.fastRuntime = s.db.fastRuntime := rfl
@[simp] theorem fastOutcomes_core : s.core.fastOutcomes = s.db.fastOutcomes := rfl
@[simp] theorem tasks_core : s.core.tasks = s.db.tasks := rfl
@[simp] theorem fenceSeq_core : s.core.fenceSeq = s.db.fenceSeq := rfl
@[simp] theorem host_core : s.core.host = s.host := rfl

@[simp] theorem boundaries_core : s.core.boundaries =
    ⟨s.db.waits, s.db.signalWaits, s.db.humanWaits, s.db.checkpoints⟩ := rfl

end Session

namespace Db

variable (db : Db) (host : Host)

@[simp] theorem core_addEvent (id : TaskId) (attempt : Option Nat) (type : EventType) :
    (db.addEvent id attempt type).core host = db.core host := rfl

@[simp] theorem core_addAttempt (a : Attempt) :
    (db.addAttempt a).core host = (db.core host).record a.taskId a.attempt := by
  simp only [core, addAttempt, Core.record, Core.mk.injEq, true_and, and_true]
  funext k m
  simp only [List.countP_cons, decide_eq_true_eq]

@[simp] theorem core_setRuntime (id : TaskId) (r : Runtime) :
    (db.setRuntime id r).core host = (db.core host).setRuntime id r := rfl

@[simp] theorem core_setFast (id : TaskId) (r : FastRuntime) :
    (db.setFast id r).core host = (db.core host).setFast id r := rfl

@[simp] theorem core_setCounters (id : TaskId) (pending : Nat) (rejected : Bool) :
    (db.setCounters id pending rejected).core host = (db.core host).setCounters id pending rejected := rfl

@[simp] theorem core_create (id : TaskId) (t : Task) (r : Runtime) :
    (db.create id t r).core host = (db.core host).create id t r := rfl

@[simp] theorem core_createFast (id : TaskId) (t : Task) (r : FastRuntime) :
    (db.createFast id t r).core host = (db.core host).createFast id t r := rfl

theorem core_eq (s : Session) : s.db.core s.host = s.core := rfl

end Db

/-! ## Moves -/

inductive Quiet : Core → Core → Prop
  | revise {c : Core} {id : TaskId} {r r' : Runtime} (hr : c.runtime.get? id = some r)
      (h : r.Revises r') : Quiet c (c.setRuntime id r')
  | claim {c : Core} {id : TaskId} {r : Runtime} (hr : c.runtime.get? id = some r)
      (hs : r.state = .ready) (worker : String) (now expires : Time) {timeoutMs : Option Nat}
      (ht : ∀ t, c.tasks.get? id = some t → timeoutMs = t.executionTimeoutMs) (shard : Option Nat) :
      Quiet c (c.draw.setRuntime id
        (r.claimed worker (c.fenceSeq + 1) now expires timeoutMs shard))
  | retry {c : Core} {id : TaskId} {r r' : Runtime} (hr : c.runtime.get? id = some r)
      (h : r.Retries r') (hmax : ∀ t, c.tasks.get? id = some t → r.currentAttempt < t.maxAttempts) :
      Quiet c ((c.setRuntime id r').record id r.currentAttempt)
  | skip (c : Core) : Quiet c c.draw
  | bind {c : Core} {b : Boundaries} (h : ∀ id, c.boundaries.Grows id b) : Quiet c { c with boundaries := b }
  | fastRevise {c : Core} {id : TaskId} {r r' : FastRuntime} (hr : c.fastRuntime.get? id = some r)
      (h : r.Becomes r') : Quiet c (c.setFast id r')
  | fastClaim {c : Core} {id : TaskId} {r : FastRuntime} (hr : c.fastRuntime.get? id = some r)
      (hs : r.state = .ready) (worker : String) (now : Time) (leaseMs : Nat) :
      Quiet c (c.draw.setFast id (r.claimed worker (c.fenceSeq + 1) now leaseMs))
  | fastClose {c : Core} {id : TaskId} {r : FastRuntime} (hr : c.fastRuntime.get? id = some r)
      (o : FastOutcome) : Quiet c (c.fastClose id o)
  | fastRecord {c : Core} {id : TaskId}
      (h : c.fastRuntime.contains id = true ∨ c.fastOutcomes.contains id = true) (n : Nat) :
      Quiet c (c.record id n)

inductive Resolve : Core → Core → Prop
  | release {c : Core} {id : TaskId} {r r' : Runtime} (hr : c.runtime.get? id = some r)
      (hs : r.state = .blocked) (hv : r.Valid → r'.Valid) (hs' : r'.state ≠ .active)
      (hused : r'.executionUsedMs = r.executionUsedMs)
      (hattempt : r'.currentAttempt = r.currentAttempt) : Resolve c (c.setRuntime id r')
  | count {c : Core} {id : TaskId} {r : Runtime} (hr : c.runtime.get? id = some r)
      (hs : r.state = .blocked) (pending : Nat) (rejected : Bool) :
      Resolve c (c.setCounters id pending rejected)
  | close {c : Core} {id : TaskId} {r : Runtime} (hr : c.runtime.get? id = some r) {o : Outcome}
      (ho : o.currentAttempt = r.currentAttempt) (recorded : Bool) :
      Resolve c ((c.note id r.currentAttempt recorded).close id o)
  | fastClose {c : Core} {id : TaskId} {r : FastRuntime} (hr : c.fastRuntime.get? id = some r)
      (o : FastOutcome) : Resolve c (c.fastClose id o)
  | fastRecord {c : Core} {id : TaskId}
      (h : c.fastRuntime.contains id = true ∨ c.fastOutcomes.contains id = true) (n : Nat) :
      Resolve c (c.record id n)
  | edges (c : Core) (edges : Table (TaskId × TaskId) Dependency) : Resolve c { c with dependencies := edges }

abbrev Resolves := ReflTransGen Resolve

structure Runtime.Starts (r : Runtime) (t : Task) : Prop where
  valid : r.Valid
  idle : r.state ≠ .active
  used : t.executionTimeoutMs.all (r.executionUsedMs < ·)
  attempt : r.currentAttempt = 1
  most : 1 ≤ t.maxAttempts

inductive Write : Core → Core → Prop
  | quiet {c c' : Core} (h : Quiet c c') : Write c c'
  | resolve {c c' : Core} (h : Resolve c c') : Write c c'
  | create {c : Core} {id : TaskId} (hid : c.tasks.get? id = none) {t : Task} {r : Runtime}
      (h : r.Starts t) : Write c (c.create id t r)
  | fastCreate {c : Core} {id : TaskId} (hid : c.tasks.get? id = none) (t : Task) {r : FastRuntime}
      (hr : r.shapeCheck = true) (hs : r.state = .ready) :
      Write c (c.createFast id t r)
  | delete {c : Core} (gone : TaskId → Bool)
      (hgone : ∀ id, gone id = true → c.runtime.contains id = true ∨ c.fastRuntime.contains id = true)
      (edges : Table (TaskId × TaskId) Dependency) {b : Boundaries}
      (hb : ∀ id, gone id = false → c.boundaries.Grows id b) :
      Write c { c with
        tasks := c.tasks.filter fun id _ => !gone id
        runtime := c.runtime.filter fun id _ => !gone id
        fastRuntime := c.fastRuntime.filter fun id _ => !gone id
        dependencies := edges
        attempts := fun id n => if gone id then 0 else c.attempts id n
        boundaries := b }

abbrev Writes := ReflTransGen Write

inductive Move : Core → Core → Prop
  | write {c c' : Core} (h : Write c c') : Move c c'
  | release {c : Core} {id : TaskId} {r r' : Runtime} (hr : c.runtime.get? id = some r)
      (h : r.Becomes r') (hattempt : r'.currentAttempt = r.currentAttempt) : Move c (c.setRuntime id r')

abbrev Moves := ReflTransGen Move

/-- A quiet change, or the end of a full-tier task with all that its outcome triggers. -/
inductive Act : Core → Core → Prop
  | quiet {c c' : Core} (h : Quiet c c') : Act c c'
  | finish {s : Session} {id : TaskId} {r : Runtime} (hr : s.db.runtime.get? id = some r) {o : Outcome}
      (ho : o.currentAttempt = r.currentAttempt) (recorded : Bool) :
      Act s.core ((finish onOutcomes id o s).core.note id r.currentAttempt recorded)

abbrev Acts := ReflTransGen Act

theorem Acts.quiet {c c' c'' : Core} (h : Acts c c') (hq : Quiet c' c'') : Acts c c'' := .tail h (.quiet hq)

theorem Acts.revise {c : Core} {id : TaskId} {r r' : Runtime} (hr : c.runtime.get? id = some r)
    (h : r.Revises r') : Acts c (c.setRuntime id r') :=
  .single (.quiet (.revise hr h))

theorem Acts.bind {c c' : Core} {b : Boundaries} (hb : ∀ id, c.boundaries.Grows id b)
    (h : Acts { c with boundaries := b } c') : Acts c c' :=
  .head (.quiet (.bind hb)) h

theorem Acts.fastRevise {c : Core} {id : TaskId} {r r' : FastRuntime}
    (hr : c.fastRuntime.get? id = some r) (h : r.Becomes r') : Acts c (c.setFast id r') :=
  .single (.quiet (.fastRevise hr h))

end Workhorse
