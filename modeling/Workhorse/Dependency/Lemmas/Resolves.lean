import Workhorse.Task.Core

/-!
# Resolution as a sequence of writes

Whatever the trigger does is a sequence of `Resolve` moves, at any depth of its recursion.
-/

namespace Workhorse

open Relation

/-- A function of sessions that only makes `Resolve` moves. -/
def Resolving (f : Session → Session) : Prop := ∀ s, Resolves s.core (f s).core

variable {fire : Fire} {s : Session} {c c' : Core} {id k : TaskId} {ids : List TaskId} {now : Time}
  {rows : List (TaskId × Outcome)} {prerequisites : List (TaskId × OutcomeState)}

theorem Resolve.runtime_none (h : Resolve c c') (hn : c.runtime.get? id = none) : c'.runtime.get? id = none := by
  cases h with
  | @release k r r' hr hs hv hs' hused hattempt =>
    have hne : id ≠ k := by
      rintro rfl
      rw [hn] at hr
      cases hr
    simpa [Core.setRuntime, hne] using hn
  | count => simp [Core.setCounters, hn]
  | close => simp [Core.close, Core.note, hn]
  | fastClose | fastRecord | edges => exact hn

theorem Resolves.runtime_none (h : Resolves c c') (hn : c.runtime.get? id = none) : c'.runtime.get? id = none := by
  induction h with
  | refl => exact hn
  | tail _ h ih => exact h.runtime_none ih

@[simp] theorem core_fastFinish {r : FastRuntime} {state : OutcomeState} {result : Option Jsonb}
    {error : Option Envelope} {closedAs : Option ClosedAs} {outcome : AttemptOutcome} :
    (fastFinish id r state result error closedAs outcome s).core =
      (s.core.fastClose id (r.finished state result error closedAs s.now)).note id r.attempt
        (decide (r.state = .active ∧ fastRecordsAttempts s.db r.queueName)) := by
  have hrecords : fastRecordsAttempts { s.ask.db with
      fastRuntime := s.ask.db.fastRuntime.erase id
      fastOutcomes := s.ask.db.fastOutcomes.put id (r.finished state result error closedAs s.now) }
      r.queueName = fastRecordsAttempts s.db r.queueName := rfl
  simp only [fastFinish, Session.core_update, hrecords]
  split
  · rename_i h
    rw [decide_eq_true h, Db.core_addAttempt]
    rfl
  · rename_i h
    rw [decide_eq_false h]
    rfl

theorem Resolves.fastClose {c : Core} {r : FastRuntime} (hr : c.fastRuntime.get? id = some r)
    (o : FastOutcome) (n : Nat) (recorded : Bool) :
    Resolves c ((c.fastClose id o).note id n recorded) := by
  cases recorded with
  | false => exact .single (.fastClose hr o)
  | true => exact .tail (.single (.fastClose hr o)) (.fastRecord (.inr (by simp [Core.fastClose])) n)

theorem Resolve.record (h : Resolve c c') (k : TaskId) (n : Nat) : Resolve (c.record k n) (c'.record k n) := by
  cases h with
  | release hr hs hv hs' hused hattempt => exact .release (c := c.record k n) hr hs hv hs' hused hattempt
  | count hr hs pending rejected => exact .count (c := c.record k n) hr hs pending rejected
  | @close id r hr o ho recorded =>
    have h := Resolve.close (c := c.record k n) hr ho recorded
    cases recorded with
    | false => exact h
    | true =>
      have hcomm : ((c.record k n).record id r.currentAttempt).close id o =
          ((c.record id r.currentAttempt).close id o).record k n := by
        simp only [Core.close, Core.record, Nat.add_right_comm]
      exact hcomm ▸ h
  | fastClose hr o => exact .fastClose (c := c.record k n) hr o
  | @fastRecord id h m =>
    have h := Resolve.fastRecord (c := c.record k n) h m
    have hcomm : (c.record k n).record id m = (c.record id m).record k n := by
      simp only [Core.record, Nat.add_right_comm]
    exact hcomm ▸ h
  | edges e => exact .edges (c.record k n) e

theorem Resolves.note (h : Resolves c c') (k : TaskId) (n : Nat) (recorded : Bool) :
    Resolves (c.note k n recorded) (c'.note k n recorded) := by
  cases recorded with
  | false => exact h
  | true =>
    induction h with
    | refl => exact .refl
    | tail _ h ih => exact ih.tail (h.record k n)

theorem fastTerminalizeDeadline_resolves : Resolves s.core (fastTerminalizeDeadline id s).2.core := by
  unfold fastTerminalizeDeadline
  split
  · exact .refl
  · rename_i r hr
    split
    · exact .refl
    · split
      · exact .refl
      · split <;> simp only [core_fastFinish] <;> exact .fastClose hr _ _ _

theorem isBlocked_iff {db : Db} : db.isBlocked id = true ↔ ∃ r, db.runtime.get? id = some r ∧ r.state = .blocked := by
  simp [Db.isBlocked, Option.any_eq_true]

section Counters

variable {db : Db} {host : Host}

@[simp] theorem isBlocked_addEvent {a : Option Nat} {t : EventType} :
    (db.addEvent k a t).isBlocked id = db.isBlocked id := rfl

@[simp] theorem isBlocked_setCounters {pending : Nat} {rejected : Bool} :
    (db.setCounters k pending rejected).isBlocked id = db.isBlocked id := by
  simp only [Db.isBlocked, Db.setCounters, Table.get?_modify]
  split
  · cases db.runtime.get? id <;> rfl
  · rfl

theorem foldl_counters_resolves {α : Type} {f : Db → α → Db} (key : α → TaskId) {xs : List α}
    (hf : ∀ db x, db.isBlocked (key x) = true → Resolves (db.core host) ((f db x).core host))
    (hk : ∀ db x k, (f db x).isBlocked k = db.isBlocked k)
    (hxs : ∀ x ∈ xs, db.isBlocked (key x) = true) :
    Resolves (db.core host) ((xs.foldl f db).core host) := by
  induction xs generalizing db with
  | nil => exact .refl
  | cons x xs ih =>
    refine (hf db x (hxs x (by simp))).trans (ih fun y hy => ?_)
    rw [hk]
    exact hxs y (by simp [hy])

theorem setCounters_resolves (h : db.isBlocked id = true) (pending : Nat) (rejected : Bool) :
    Resolves (db.core host) ((db.setCounters id pending rejected).core host) := by
  obtain ⟨r, hr, hs⟩ := isBlocked_iff.mp h
  exact .single (.count hr hs pending rejected)

theorem recountRejected_resolves (h : db.isBlocked id = true) :
    Resolves (db.core host) ((recountRejected db id).core host) := by
  simp only [recountRejected]
  split
  · exact .refl
  · exact setCounters_resolves h _ _

theorem isBlocked_recountRejected : (recountRejected db id).isBlocked k = db.isBlocked k := by
  simp only [recountRejected]
  split <;> simp

theorem recordMeasure_resolves {m : Measure} (h : db.isBlocked m.taskId = true) :
    Resolves (db.core host) ((recordMeasure db m).core host) := by
  simp only [recordMeasure]
  by_cases hm : m.remaining = 0
  · rw [if_pos hm]
    split <;> exact .refl
  · rw [if_neg hm]
    split <;> exact setCounters_resolves h _ _

theorem isBlocked_recordMeasure {m : Measure} : (recordMeasure db m).isBlocked k = db.isBlocked k := by
  simp only [recordMeasure]
  split <;> split <;> simp

end Counters

/-! ## Closing rejected dependents -/

def Core.closeAll (c : Core) (rows : List (TaskId × Outcome)) : Core :=
  { c with
    runtime := rows.foldl (fun t e => t.erase e.1) c.runtime
    outcomes := rows.foldl (fun t e => t.put e.1 e.2) c.outcomes }

theorem closeAll_resolves {c : Core} (hnd : (rows.map Prod.fst).Nodup)
    (hrows : ∀ e ∈ rows, ∃ r, c.runtime.get? e.1 = some r ∧ e.2.currentAttempt = r.currentAttempt) :
    Resolves c (c.closeAll rows) := by
  induction rows generalizing c with
  | nil => exact .refl
  | cons e rows ih =>
    obtain ⟨r, hr, ho⟩ := hrows e (by simp)
    simp only [List.map_cons, List.nodup_cons] at hnd
    refine .head (.close hr ho false) (ih hnd.2 fun e' he' => ?_)
    obtain ⟨r', hr', ho'⟩ := hrows e' (by simp [he'])
    have hne : e'.1 ≠ e.1 := fun h => hnd.1 (h ▸ List.mem_map_of_mem he')
    exact ⟨r', by simp [Core.close, Core.note, hne, hr'], ho'⟩

theorem core_setOutcomes {db : Db} {host : Host} :
    (rows.foldl (fun db e => db.setOutcome e.1 e.2) db).core host = { db.core host with
        outcomes := rows.foldl (fun t e => t.put e.1 e.2) db.outcomes } := by
  induction rows generalizing db with
  | nil => rfl
  | cons e rows ih => exact ih

theorem core_removeSettled {db : Db} (host : Host) : (removeSettled db rows).core host =
      { db.core host with runtime := rows.foldl (fun t e => t.erase e.1) db.runtime } := by
  unfold removeSettled
  induction rows generalizing db with
  | nil => rfl
  | cons e rows ih => exact ih

theorem mem_byId : id ∈ byId ids ↔ id ∈ ids := (List.perm_insertionSort _ ids).mem_iff

theorem nodup_byId : (byId ids).Nodup ↔ ids.Nodup := (List.perm_insertionSort _ ids).nodup_iff

theorem settledRow_eq_some {db : Db} {e : TaskId × Outcome} :
    settledRow db now id = some e ↔ ∃ r decider, db.runtime.get? id = some r ∧ r.state = .blocked ∧
      db.decidingEdge id = some decider ∧ e = (id, rejection db now r decider) := by
  unfold settledRow
  constructor
  · intro h
    split at h
    · rename_i r decider hr hd
      split at h
      · rename_i hs
        cases h
        exact ⟨r, decider, hr, hs, hd, rfl⟩
      · cases h
    · cases h
  · rintro ⟨r, decider, hr, hs, hd, rfl⟩
    simp [hr, hd, hs]

theorem mem_settledRows {db : Db} {rejected : List TaskId} {e : TaskId × Outcome} :
    e ∈ settledRows db now rejected ↔ e.1 ∈ rejected ∧ settledRow db now e.1 = some e := by
  simp only [settledRows, List.mem_filterMap, mem_byId]
  constructor
  · rintro ⟨id, hid, h⟩
    obtain ⟨r, decider, _, _, _, rfl⟩ := settledRow_eq_some.mp h
    exact ⟨hid, h⟩
  · rintro ⟨hid, h⟩
    exact ⟨e.1, hid, h⟩

theorem nodup_settledRows {db : Db} {rejected : List TaskId} (h : rejected.Nodup) :
    ((settledRows db now rejected).map Prod.fst).Nodup := by
  rw [settledRows, List.map_filterMap]
  refine (nodup_byId.mpr h).filterMap fun a a' b hb hb' => ?_
  obtain ⟨e, he, rfl⟩ := Option.map_eq_some_iff.mp hb
  obtain ⟨e', he', hee⟩ := Option.map_eq_some_iff.mp hb'
  obtain ⟨_, _, _, _, _, rfl⟩ := settledRow_eq_some.mp he
  obtain ⟨_, _, _, _, _, rfl⟩ := settledRow_eq_some.mp he'
  exact hee.symm

theorem insertOutcomes_resolves (hfire : ∀ new, Resolving (fire new)) (hnd : (rows.map Prod.fst).Nodup)
    (hrows : ∀ e ∈ rows, ∃ r, s.db.runtime.get? e.1 = some r ∧ e.2.currentAttempt = r.currentAttempt) :
    Resolves s.core (insertOutcomes fire rows (s.update fun db => removeSettled db rows)).core := by
  have h := hfire (rows.map fun e => (e.1, e.2.state))
    ((s.update fun db => removeSettled db rows).update
      fun db => rows.foldl (fun db e => db.setOutcome e.1 e.2) db)
  refine .trans ?_ h
  have hout : (removeSettled s.db rows).outcomes = s.db.outcomes := congrArg Core.outcomes (core_removeSettled s.host)
  simp only [Session.core_update, core_setOutcomes, Session.update_db, Session.update_host, core_removeSettled, hout]
  exact closeAll_resolves hnd hrows

theorem finish_resolves (hfire : ∀ new, Resolving (fire new)) {r : Runtime}
    (hr : s.db.runtime.get? id = some r) {o : Outcome} (ho : o.currentAttempt = r.currentAttempt)
    (recorded : Bool) :
    Resolves s.core ((finish fire id o s).core.note id r.currentAttempt recorded) := by
  have hclose : Resolve s.core ((s.core.note id r.currentAttempt recorded).close id o) := .close hr ho recorded
  have hfires := Resolves.note (hfire [(id, o.state)] ((s.update fun db => db.deleteRuntime id).update
    fun db => db.setOutcome id o)) id r.currentAttempt recorded
  -- The trigger fires on the closed row; the history row comes after it.
  refine .head hclose ?_
  cases recorded <;> exact hfires

theorem terminalizeDeadlineWith_resolves (hfire : ∀ new, Resolving (fire new)) :
    Resolves s.core (terminalizeDeadlineWith fire id s).2.core := by
  unfold terminalizeDeadlineWith
  split
  · exact fastTerminalizeDeadline_resolves
  · split
    · exact .refl
    · rename_i r hr
      split
      · exact .refl
      · split
        · exact .refl
        · split
          · simp only [Session.core_update, Db.core_addEvent, Db.core_addAttempt, Db.core_eq]
            exact finish_resolves (s := s.ask.ask) hfire hr rfl true
          · simp only [Session.core_update]
            split
            · simp only [Db.core_addEvent, Db.core_addAttempt, Db.core_eq]
              exact finish_resolves (s := s.ask.ask) hfire hr rfl true
            · exact finish_resolves (s := s.ask.ask) hfire hr rfl false

/-! ## Releasing dependents -/

theorem Runtime.Valid.dependencyReleased {r : Runtime} (h : r.Valid) (hs : r.state = .blocked)
    (now : Time) (sequence : Nat) : (r.dependencyReleased now sequence).Valid := by
  have hshape := h.shape
  have hcancel := h.cancel
  by_cases hd : r.runAt ≤ now
  · simp only [Runtime.dependencyReleased, if_pos hd]
    constructor <;>
      simp_all [Runtime.shapeCheck, Runtime.cancelCheck, Runtime.counterCheck, Runtime.unleased]
  · simp only [Runtime.dependencyReleased, if_neg hd]
    constructor <;>
      simp_all [Runtime.shapeCheck, Runtime.cancelCheck, Runtime.counterCheck, Runtime.unleased]

theorem Runtime.dependencyReleased_state (r : Runtime) (now : Time) (sequence : Nat) :
    (r.dependencyReleased now sequence).state = .ready ∨ (r.dependencyReleased now sequence).state = .scheduled := by
  by_cases hd : r.runAt ≤ now <;> simp [Runtime.dependencyReleased, hd]

theorem releaseDependent_resolves (now : Time) : Resolves s.core (releaseDependent now s id).core := by
  unfold releaseDependent
  split
  · exact .refl
  · rename_i r hr
    have hmove (hs : r.state = .blocked) (sequence : Nat) :
        Resolve s.core (s.core.setRuntime id (r.dependencyReleased now sequence)) := by
      refine .release hr hs (fun h => h.dependencyReleased hs now sequence) ?_ rfl rfl
      rcases r.dependencyReleased_state now sequence with h | h <;> simp [h]
    by_cases hs : r.state = .blocked
    · simp only [if_pos hs]
      split <;> exact .single (hmove hs _)
    · simp only [if_neg hs]
      split <;> exact .refl

theorem foldl_resolves {α : Type} {f : Session → α → Session} {xs : List α}
    (hf : ∀ s x, Resolves s.core (f s x).core) : Resolves s.core (xs.foldl f s).core := by
  induction xs generalizing s with
  | nil => exact .refl
  | cons x xs ih => exact (hf s x).trans ih

/-! ## The trigger -/

theorem settleDependents_resolves (hfire : ∀ new, Resolving (fire new))
    {rejected released : List TaskId} (hnd : rejected.Nodup) :
    Resolves s.core (settleDependents fire now rejected released s).core := by
  unfold settleDependents
  refine .trans ?_ (foldl_resolves fun s id => terminalizeDeadlineWith_resolves hfire)
  refine .trans ?_ (foldl_resolves fun s id => releaseDependent_resolves now)
  refine .trans ?_ (insertOutcomes_resolves hfire (nodup_settledRows hnd) fun e he => ?_)
  · refine foldl_counters_resolves (fun id => id) (fun _ _ h => recountRejected_resolves h)
      (fun _ _ _ => isBlocked_recountRejected) fun id hid => ?_
    have := (List.mem_filter.mp (mem_byId.mp hid)).2
    rw [Bool.and_eq_true] at this
    exact this.1
  · obtain ⟨r, decider, hr, -, -, he⟩ := settledRow_eq_some.mp (mem_settledRows.mp he).2
    exact ⟨r, hr, congrArg (fun e => e.2.currentAttempt) he⟩

theorem nodup_dependentsOf {db : Db} : (dependentsOf db prerequisites).Nodup := nodup_byId.mpr (Table.nodup_select _ _)

theorem mem_dependentsOf {db : Db} : id ∈ dependentsOf db prerequisites ↔ db.isBlocked id = true ∧
      ∃ k d, db.dependencies.get? k = some d ∧ k.1 = id ∧ resolvable prerequisites k d = true := by
  simp only [dependentsOf, mem_byId, List.mem_map, Prod.exists, Table.mem_select, Bool.and_eq_true,
    beq_iff_eq, isBlocked_iff, Table.any_iff, decide_eq_true_eq]
  constructor
  · rintro ⟨_, r, ⟨hr, hs, hedge⟩, rfl⟩
    exact ⟨⟨r, hr, hs⟩, hedge⟩
  · rintro ⟨⟨r, hr, hs⟩, hedge⟩
    exact ⟨id, r, ⟨hr, hs, hedge⟩, rfl⟩

theorem measure_taskId {before after : Db} {m : Measure}
    (h : measure before after prerequisites id = some m) : m.taskId = id := by
  obtain ⟨r, _, rfl⟩ := Option.map_eq_some_iff.mp h
  rfl

theorem nodup_measures {before after : Db} (h : ids.Nodup) :
    ((ids.filterMap (measure before after prerequisites)).map Measure.taskId).Nodup := by
  rw [List.map_filterMap]
  refine h.filterMap fun a a' b hb hb' => ?_
  obtain ⟨m, hm, rfl⟩ := Option.map_eq_some_iff.mp hb
  obtain ⟨m', hm', hmm⟩ := Option.map_eq_some_iff.mp hb'
  rw [← measure_taskId hm, ← measure_taskId hm', hmm]

theorem mapEdges_resolve (f : TaskId × TaskId → Dependency → Dependency) :
    Resolve s.core (s.update fun db => db.mapEdges f).core := .edges _ _

theorem resolveDependentsMany_resolves (hfire : ∀ new, Resolving (fire new))
    (prerequisites : List (TaskId × OutcomeState)) : Resolving (resolveDependentsMany fire prerequisites) := by
  intro s
  simp only [resolveDependentsMany]
  split
  · exact .refl
  · refine .trans ?_ (settleDependents_resolves hfire ?_)
    · refine .head (mapEdges_resolve (s := s.ask) _) (foldl_counters_resolves Measure.taskId
        (fun _ _ h => recordMeasure_resolves h) (fun _ _ _ => isBlocked_recordMeasure) fun m hm => ?_)
      obtain ⟨id, hid, hm⟩ := List.mem_filterMap.mp hm
      rw [measure_taskId hm]
      exact (mem_dependentsOf.mp hid).1
    · exact (nodup_measures nodup_dependentsOf).sublist
        ((List.filter_sublist.trans List.filter_sublist).map _)

theorem resolveTaskOutcomeDependencies_resolves {resolve : Fire} (h : ∀ new, Resolving (resolve new))
    (new : List (TaskId × OutcomeState)) : Resolving (resolveTaskOutcomeDependencies resolve new) := by
  intro s
  simp only [resolveTaskOutcomeDependencies]
  split
  · exact .head (mapEdges_resolve (s := s.ask) _) (h _ _)
  · exact .refl

theorem trigger_resolves (fuel : Nat) (new : List (TaskId × OutcomeState)) : Resolving (trigger fuel new) := by
  induction fuel generalizing new with
  | zero => exact fun _ => .refl
  | succ fuel ih =>
    exact resolveTaskOutcomeDependencies_resolves (resolveDependentsMany_resolves ih) new

theorem onOutcomes_resolves (new : List (TaskId × OutcomeState)) : Resolving (onOutcomes new) :=
  fun s => trigger_resolves _ new s

/-! ## The fuel of the trigger

A trigger fires another one only after it has deleted a runtime row, so what it does depends on the
triggers below it at sessions with fewer rows. -/

section Fuel

/-- The runtime rows of `t` are rows of `s`. -/
def Session.Covers (s t : Session) : Prop := ∀ id, s.db.runtime.get? id = none → t.db.runtime.get? id = none

def Session.Fewer (s t : Session) : Prop :=
  s.Covers t ∧ ∃ id, s.db.runtime.get? id ≠ none ∧ t.db.runtime.get? id = none

variable {f g : Fire} {t : Session}

theorem Session.Fewer.size (h : s.Fewer t) : t.db.runtime.size < s.db.runtime.size := by
  obtain ⟨hcovers, id, hs, ht⟩ := h
  exact Table.size_lt hcovers hs ht

theorem recountRejected_none {db : Db} (k : TaskId) (h : db.runtime.get? id = none) :
    (recountRejected db k).runtime.get? id = none := by
  simp only [recountRejected]
  split <;> simp [Db.setCounters, Db.addEvent, h]

theorem recordMeasure_none {db : Db} (m : Measure) (h : db.runtime.get? id = none) :
    (recordMeasure db m).runtime.get? id = none := by
  simp only [recordMeasure]
  split <;> split <;> simp [Db.setCounters, Db.addEvent, h]

theorem foldl_none {α : Type} {h : Db → α → Db} {xs : List α} {db : Db}
    (hh : ∀ db x, db.runtime.get? id = none → (h db x).runtime.get? id = none) (hn : db.runtime.get? id = none) :
    (xs.foldl h db).runtime.get? id = none := by
  induction xs generalizing db with
  | nil => exact hn
  | cons x xs ih => exact ih (hh db x hn)

theorem settled_get? : ((t.update fun db => removeSettled db rows).update
      fun db => rows.foldl (fun db e => db.setOutcome e.1 e.2) db).db.runtime.get? k =
      if k ∈ rows.map Prod.fst then none else t.db.runtime.get? k := by
  change ((rows.foldl (fun db e => db.setOutcome e.1 e.2) (removeSettled t.db rows)).core t.host).runtime.get? k = _
  rw [core_setOutcomes, core_removeSettled]
  exact Table.get?_foldl_erase

section Below

variable (hbelow : ∀ new t, s.Fewer t → f new t = g new t)

include hbelow

theorem insertOutcomes_congr (hnil : f [] = g []) (hst : s.Covers t)
    (hrows : ∀ e ∈ rows, t.db.runtime.get? e.1 ≠ none) :
    insertOutcomes f rows (t.update fun db => removeSettled db rows) =
      insertOutcomes g rows (t.update fun db => removeSettled db rows) := by
  cases rows with
  | nil => exact congrFun hnil _
  | cons e rows =>
    refine hbelow _ _ ⟨fun k hk => ?_, e.1, fun hn => ?_, ?_⟩
    · rw [settled_get?, hst k hk, ite_self]
    · exact hrows e (by simp) (hst e.1 hn)
    · rw [settled_get?, if_pos (by simp)]

theorem finish_congr (hst : s.Covers t) {r : Runtime} (hr : t.db.runtime.get? id = some r) (o : Outcome) :
    finish f id o t = finish g id o t := by
  refine hbelow _ _ ⟨fun k hk => ?_, id, fun hn => ?_, ?_⟩
  · simp [Db.setOutcome, Db.deleteRuntime, hst k hk]
  · simp [hst id hn] at hr
  · simp [Db.setOutcome, Db.deleteRuntime]

theorem terminalizeDeadlineWith_congr (hst : s.Covers t) :
    terminalizeDeadlineWith f id t = terminalizeDeadlineWith g id t := by
  unfold terminalizeDeadlineWith
  split
  · rfl
  · split
    · rfl
    · rename_i r hr
      have hfinish (o : Outcome) : finish f id o t.ask.ask = finish g id o t.ask.ask :=
        finish_congr hbelow (t := t.ask.ask) hst hr o
      simp only [hfinish]

theorem foldl_terminalizeDeadlineWith_congr (hf : ∀ new, Resolving (f new)) (hst : s.Covers t) (ids : List TaskId) :
    ids.foldl (fun s id => (terminalizeDeadlineWith f id s).2) t =
      ids.foldl (fun s id => (terminalizeDeadlineWith g id s).2) t := by
  induction ids generalizing t with
  | nil => rfl
  | cons id ids ih =>
    rw [List.foldl_cons, List.foldl_cons, ← terminalizeDeadlineWith_congr hbelow hst]
    exact ih fun k hk => (terminalizeDeadlineWith_resolves hf).runtime_none (hst k hk)

theorem settleDependents_congr (hf : ∀ new, Resolving (f new)) (hnil : f [] = g []) (hst : s.Covers t)
    {rejected released : List TaskId} :
    settleDependents f now rejected released t = settleDependents g now rejected released t := by
  have hrecounted (ids : List TaskId) : s.Covers (t.update fun db => ids.foldl recountRejected db) :=
    fun k hk => foldl_none (fun _ => recountRejected_none) (hst k hk)
  simp only [settleDependents]
  -- It fires for the rejected dependents and again for the released ones whose deadline has passed.
  rw [← insertOutcomes_congr hbelow hnil (hrecounted _) fun e he => ?_]
  · refine foldl_terminalizeDeadlineWith_congr hbelow hf (fun k hk => ?_) _
    refine (foldl_resolves fun s id => releaseDependent_resolves now).runtime_none ((hf _ _).runtime_none ?_)
    exact settled_get?.trans (by rw [hrecounted _ k hk, ite_self])
  · obtain ⟨r, -, hr, -⟩ := settledRow_eq_some.mp (mem_settledRows.mp he).2
    exact Option.ne_none_iff_exists'.mpr ⟨r, hr⟩

theorem resolveDependentsMany_congr (hf : ∀ new, Resolving (f new)) (hnil : f [] = g []) (hst : s.Covers t)
    (new : List (TaskId × OutcomeState)) : resolveDependentsMany f new t = resolveDependentsMany g new t := by
  simp only [resolveDependentsMany]
  split
  · rfl
  · exact settleDependents_congr hbelow hf hnil fun k hk =>
      foldl_none (fun _ => recordMeasure_none) (by exact hst k hk)

theorem resolveTaskOutcomeDependencies_congr (hf : ∀ new, Resolving (f new)) (hnil : f [] = g [])
    (new : List (TaskId × OutcomeState)) : resolveTaskOutcomeDependencies (resolveDependentsMany f) new s =
      resolveTaskOutcomeDependencies (resolveDependentsMany g) new s := by
  simp only [resolveTaskOutcomeDependencies]
  rw [resolveDependentsMany_congr hbelow hf hnil]
  exact fun _ h => h

end Below

theorem trigger_nil (fuel : Nat) : trigger fuel [] = fun s => s := by
  cases fuel with
  | zero => rfl
  | succ fuel =>
    funext s
    simp [trigger, resolveTaskOutcomeDependencies, Table.any]

theorem trigger_stable {n a b : Nat} (ha : n ≤ a) (hb : n ≤ b) (hs : s.db.runtime.size < n)
    (new : List (TaskId × OutcomeState)) : trigger a new s = trigger b new s := by
  induction n generalizing a b new s with
  | zero => omega
  | succ n ih =>
    obtain ⟨a, rfl⟩ := Nat.exists_eq_add_one_of_ne_zero (by omega : a ≠ 0)
    obtain ⟨b, rfl⟩ := Nat.exists_eq_add_one_of_ne_zero (by omega : b ≠ 0)
    refine resolveTaskOutcomeDependencies_congr (fun new t h => ?_) (trigger_resolves a)
      ((trigger_nil a).trans (trigger_nil b).symm) new
    -- The level below has one unit of fuel less and at least one row fewer.
    have hsize := h.size
    exact ih (by omega) (by omega) (by omega) new

/-- The fuel is enough: more of it changes nothing. -/
theorem trigger_eq_onOutcomes {fuel : Nat} (h : s.db.runtime.size < fuel) (new : List (TaskId × OutcomeState)) :
    trigger fuel new s = onOutcomes new s :=
  trigger_stable h (le_refl _) (Nat.lt_succ_self _) new

/-- The recursion of the source: the trigger fires itself. -/
theorem onOutcomes_eq (new : List (TaskId × OutcomeState)) :
    onOutcomes new s = resolveTaskOutcomeDependencies (resolveDependentsMany onOutcomes) new s := by
  refine resolveTaskOutcomeDependencies_congr (fun new t h => trigger_eq_onOutcomes h.size new) (trigger_resolves _)
    ((trigger_nil _).trans ?_) new
  exact funext fun t => (congrFun (trigger_nil _) t).symm

end Fuel

end Workhorse
