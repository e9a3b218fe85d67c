import Workhorse.Task.Lemmas.PassActs

/-!
# Enqueue and purge as writes

An accepted batch creates its rows, inserts its edges and resolves those whose prerequisite is
terminal. A purge deletes rows, and cancels the tasks that others still need.
-/

namespace Workhorse

open Transaction Relation

variable {s : Session} {c c' : Core} {id k : TaskId} {r : Request} {db : Db} {b : Batch} {requests : List Request}
  {queue : String}

/-! ## The rows of a batch -/

structure Batch.Valid (b : Batch) : Prop where
  full : ∀ e ∈ b.full, e.2.2.Starts e.2.1
  fast : ∀ e ∈ b.fast, e.2.2.shapeCheck = true ∧ e.2.2.state = .ready

theorem Request.fastRuntime_valid {now : Time} {sequence : Nat} :
    (r.fastRuntime now sequence).shapeCheck = true ∧ (r.fastRuntime now sequence).state = .ready := by
  simp [Request.fastRuntime, FastRuntime.shapeCheck]

/-- The counts of a request and the answer whether a terminal prerequisite rejects it agree. -/
def Counts.Agree (n : Counts) (rejected : Bool) : Prop :=
  n.pendingPrerequisites = 0 → rejected = false → n.pendingEdges = 0

theorem Request.runtime_valid {now : Time} {n : Counts} {rejected : Bool} (h : n.Agree rejected) {sequence : Option Nat}
    (hseq : sequence.isSome = true ↔ startState now r n rejected = .ready) :
    (r.runtime now (startState now r n rejected) sequence n.pendingEdges).Valid ∧
      (r.runtime now (startState now r n rejected) sequence n.pendingEdges).state ≠ .active := by
  unfold startState at hseq ⊢
  split
  · rename_i hb
    have hnone : sequence = none := by simpa [hb] using hseq
    exact ⟨⟨by simp [Runtime.shapeCheck, Request.runtime, Runtime.unleased, hnone],
      by simp [Runtime.cancelCheck, Request.runtime],
      by simp [Runtime.counterCheck, Request.runtime]⟩, by simp [Request.runtime]⟩
  · rename_i hb
    simp only [Bool.or_eq_true, decide_eq_true_eq, not_or, Nat.not_lt, Nat.le_zero, Bool.not_eq_true] at hb
    have hedges := h hb.2 hb.1
    rw [if_neg (by simp [hb])] at hseq
    split
    · rename_i hdue
      rw [if_pos hdue] at hseq
      refine ⟨⟨?_, by simp [Runtime.cancelCheck, Request.runtime],
        by simp [Runtime.counterCheck, Request.runtime, hedges]⟩, by simp [Request.runtime]⟩
      simpa [Runtime.shapeCheck, Request.runtime, Runtime.unleased] using hseq
    · rename_i hdue
      rw [if_neg hdue] at hseq
      have hnone : sequence = none := by simpa using hseq
      exact ⟨⟨by simp [Runtime.shapeCheck, Request.runtime, Runtime.unleased, hnone],
        by simp [Runtime.cancelCheck, Request.runtime],
        by simp [Runtime.counterCheck, Request.runtime, hedges]⟩, by simp [Request.runtime]⟩

theorem resolveIdentity_cases :
    Ensures (resolveIdentity r b) s fun reply s' => s'.core = s.core ∧ ∃ keys, reply.2.2 = { b with keys } := by
  simp only [resolveIdentity, ensures_bind, ensures_asking]
  split
  · exact ensures_pure.mpr ⟨rfl, b.keys, rfl⟩
  · simp only [ensures_bind, ensures_database]
    split
    · exact ensures_pure.mpr ⟨rfl, _, rfl⟩
    · simp only [ensures_ite, ensures_bind, ensures_asking, ensures_pure, ensures_throw]
      exact ⟨fun _ => ⟨rfl, _, rfl⟩, fun _ => ⟨fun _ => trivial, fun _ => ⟨rfl, b.keys, rfl⟩⟩⟩

inductive Buffers (r : Request) (n : Counts) (rejected : Bool) (b : Batch) : Batch → Prop
  | replay (keys : List ((String × String) × Idempotency)) (replies : List (TaskId × Bool)) :
      Buffers r n rejected b { b with keys, replies }
  | fast (keys : List ((String × String) × Idempotency)) (replies : List (TaskId × Bool)) (id : TaskId)
      (task : Task) (sequence : Nat) :
      Buffers r n rejected b { b with
        keys, replies, fast := b.fast ++ [(id, task, r.fastRuntime b.now sequence)] }
  | full (keys : List ((String × String) × Idempotency)) (replies : List (TaskId × Bool)) (id : TaskId)
      (sequence : Option Nat)
      (hseq : sequence.isSome = true ↔ startState b.now r n rejected = .ready) :
      Buffers r n rejected b { b with
        keys, replies
        full := b.full ++ [(id, r.task, r.runtime b.now (startState b.now r n rejected) sequence n.pendingEdges)]
        edges := b.edges ++ r.prerequisites.map fun p => ((id, p), r.edge) }

theorem bufferRequest_buffers {n : Counts} {rejected : Bool} : Ensures (bufferRequest r n rejected b) s fun b' s' =>
      Buffers r n rejected b b' ∧ s'.core = s.core := by
  simp only [bufferRequest, ensures_bind]
  refine resolveIdentity_cases.mono fun reply t hcases => ?_
  obtain ⟨ht, keys, hreply⟩ := hcases
  obtain ⟨id, isNew, b'⟩ := reply
  simp only at hreply
  subst hreply
  simp only [ensures_ite, ensures_bind, ensures_map, ensures_nextReadySequence, ensures_pure]
  refine ⟨fun _ => ⟨.replay keys _, ht⟩, fun _ => ⟨fun _ => ⟨.fast keys _ id _ _, ht⟩, fun _ =>
    ⟨fun hs => ⟨.full keys _ id _ ?_, ht⟩, fun hs => ⟨.full keys _ id _ ?_, ht⟩⟩⟩⟩
  · simpa using hs
  · simpa using hs

theorem Buffers.valid {n : Counts} {rejected : Bool} {b b' : Batch} (hb : b.Valid)
    (hr : r.executionTimeoutMs.all (0 < ·) = true ∧ 1 ≤ r.maxAttempts.getD 25) (hn : n.Agree rejected)
    (h : Buffers r n rejected b b') : b'.Valid := by
  cases h with
  | replay => exact ⟨hb.full, hb.fast⟩
  | fast keys replies id task sequence =>
    refine ⟨hb.full, fun e he => ?_⟩
    rcases List.mem_append.mp he with he | he
    · exact hb.fast e he
    · cases List.mem_singleton.mp he
      exact Request.fastRuntime_valid
  | full keys replies id sequence hseq =>
    refine ⟨fun e he => ?_, hb.fast⟩
    rcases List.mem_append.mp he with he | he
    · exact hb.full e he
    · cases List.mem_singleton.mp he
      obtain ⟨hvalid, hs⟩ := Request.runtime_valid hn hseq
      exact ⟨hvalid, hs, hr.1, rfl, hr.2⟩

theorem Action.release_or_rejects (a : Action) : a = .release ∨ a.rejects = true := by
  cases a <;> simp [Action.rejects]

theorem counts_agree (hrej : (r.prerequisites.any fun id => (terminalAction db r.edge id).any Action.rejects) = false)
    (hpend : (r.prerequisites.countP fun id => !db.outcomes.contains id) = 0) :
    (r.prerequisites.countP fun id => (terminalAction db r.edge id).all (· ≠ .release)) = 0 := by
  rw [List.countP_eq_zero] at hpend ⊢
  intro id hid
  have hterm := hpend id hid
  simp only [Bool.not_eq_true', Bool.not_eq_false, Table.contains_iff] at hterm
  obtain ⟨o, ho⟩ := hterm
  have hnot := List.any_eq_false.mp hrej id hid
  simp only [terminalAction, ho, Option.map_some, Option.any_some, Option.all_some] at hnot ⊢
  rcases Action.release_or_rejects (r.edge.actionOn o.state) with h | h
  · simp [h]
  · exact absurd h hnot

theorem normalizeRetryPolicy_same {policy : Option RetryPolicy} :
    Ensures (normalizeRetryPolicy policy) s fun _ s' => s' = s := by
  unfold normalizeRetryPolicy
  split <;> simp only [ensures_bind, ensures_ensure, ensures_pure, implies_true]

theorem ensureRequest_checks {fast : Bool} : Ensures (ensureRequest fast r) s fun _ s' =>
      s' = s ∧ r.executionTimeoutMs.all (0 < ·) = true ∧ 1 ≤ r.maxAttempts.getD 25 := by
  simp only [ensureRequest, rejectFastFeature, ensures_bind, ensures_ensure, decide_eq_true_eq]
  intro _ _ _ _ _ _ _ _ hattempts
  refine normalizeRetryPolicy_same.mono fun _ t ht => ?_
  subst ht
  intro htimeout
  have hpos : r.executionTimeoutMs.all (0 < ·) = true := by
    cases h : r.executionTimeoutMs with
    | none => rfl
    | some ms =>
      simp only [h, Option.all_some, Bool.and_eq_true, decide_eq_true_eq] at htimeout ⊢
      exact htimeout.1
  simp only [ensures_ite, ensures_bind, ensures_ensure, ensures_raise]
  simp [hpos, hattempts.2.2.2.2.1]

theorem ensureRequest_same {fast : Bool} : Ensures (ensureRequest fast r) s fun _ s' => s' = s :=
  ensureRequest_checks.mono fun _ _ h => h.1

theorem enqueueRequest_valid (hb : b.Valid) :
    Ensures (enqueueRequest b r) s fun b' s' => b'.Valid ∧ s'.core = s.core := by
  simp only [enqueueRequest, lockPrerequisites, checkPrerequisites, countPrerequisites, isRejected,
    ensures_bind, ensures_database, ensures_pure, ensures_ensure]
  refine ensureRequest_checks.mono fun _ t hchecks => ?_
  obtain ⟨rfl, htimeout⟩ := hchecks
  refine fun _ => ?_
  split
  · exact ensures_throw.mpr trivial
  · refine ensures_pure.mpr (bufferRequest_buffers.mono fun b' t h => ⟨h.1.valid ?_ htimeout ?_, h.2⟩)
    · exact ⟨hb.full, hb.fast⟩
    · exact fun hp hr => counts_agree hr hp

theorem openBatch_valid : Ensures (openBatch requests) s fun b s' => b.Valid ∧ s'.core = s.core := by
  simp only [openBatch, ensures_bind, ensures_clockTimestamp, ensures_ensure, ensures_database, ensures_pure]
  refine fun _ => (Ensures.forM (s := s.ask) (fun t : Session => t.core = s.core) (fun r _ t ht => ?_)
    rfl).mono fun _ t ht => ⟨⟨by simp, by simp⟩, ht⟩
  unfold ensureIdempotency
  split
  · exact ensures_pure.mpr ht
  · simp only [ensures_bind, ensures_ensure]
    exact fun _ _ _ => ht

/-! ## Writing a batch -/

theorem core_addEvents {α : Type} {xs : List α} {id : α → TaskId} {type : α → EventType}
    {host : Host} : (xs.foldl (fun db e => db.addEvent (id e) none (type e)) db).core host = db.core host := by
  induction xs generalizing db with
  | nil => rfl
  | cons x xs ih => exact ih

theorem insertBatchEdges_resolves : Ensures (insertBatchEdges b) s fun _ s' => Resolves s.core s'.core := by
  simp only [insertBatchEdges, ensures_bind]
  refine insertEdges_cases.mono fun _ t ht => ?_
  have hedges : Resolves s.core t.core := ht ▸ .single (.edges _ _)
  have hevents {f : ((TaskId × TaskId) × Dependency) → EventType} :
      (t.update fun db => b.edges.foldl (fun db e => db.addEvent e.1.1 none (f e)) db).core = t.core := core_addEvents
  simp only [ensures_database, ensures_write, ensures_ite, ensures_perform, ensures_pure]
  rw [← hevents (f := fun e => if e.2.pending then .dependencyBlocked else .dependencyReleased)]
    at hedges
  exact ⟨fun _ => hedges.trans (resolveDependentsMany_resolves onOutcomes_resolves _ _), fun _ => hedges⟩

theorem create_writes {rows : List (TaskId × Task × Runtime)} (host : Host)
    (hnd : (rows.map Prod.fst).Nodup) (hnew : ∀ e ∈ rows, db.tasks.get? e.1 = none)
    (hvalid : ∀ e ∈ rows, e.2.2.Starts e.2.1) :
    Writes (db.core host) ((rows.foldl (fun db e => db.create e.1 e.2.1 e.2.2) db).core host) := by
  induction rows generalizing db with
  | nil => exact .refl
  | cons e rows ih =>
    obtain ⟨he, hnd⟩ := List.nodup_cons.mp hnd
    have hcreate : Write (db.core host) ((db.create e.1 e.2.1 e.2.2).core host) :=
      .create (hnew e (by simp)) (hvalid e (by simp))
    refine .head hcreate (ih hnd (fun e' he' => ?_) fun e' he' => hvalid e' (by simp [he']))
    have hne : e'.1 ≠ e.1 := fun h => he (h ▸ List.mem_map_of_mem he')
    simpa [Db.create, hne] using hnew e' (by simp [he'])

theorem createFast_writes {rows : List (TaskId × Task × FastRuntime)} (host : Host)
    (hnd : (rows.map Prod.fst).Nodup) (hnew : ∀ e ∈ rows, db.tasks.get? e.1 = none)
    (hvalid : ∀ e ∈ rows, e.2.2.shapeCheck = true ∧ e.2.2.state = .ready) :
    Writes (db.core host) ((rows.foldl (fun db e => db.createFast e.1 e.2.1 e.2.2) db).core host) := by
  induction rows generalizing db with
  | nil => exact .refl
  | cons e rows ih =>
    obtain ⟨he, hnd⟩ := List.nodup_cons.mp hnd
    have hcreate : Write (db.core host) ((db.createFast e.1 e.2.1 e.2.2).core host) :=
      .fastCreate (hnew e (by simp)) e.2.1 (hvalid e (by simp)).1 (hvalid e (by simp)).2
    refine .head hcreate (ih hnd (fun e' he' => ?_) fun e' he' => hvalid e' (by simp [he']))
    have hne : e'.1 ≠ e.1 := fun h => he (h ▸ List.mem_map_of_mem he')
    simpa [Db.createFast, hne] using hnew e' (by simp [he'])

theorem Resolves.tasks (h : Resolves c c') : c'.tasks = c.tasks := by
  induction h with
  | refl => rfl
  | tail _ h ih =>
    rw [← ih]
    cases h <;> rfl

theorem Acts.tasks (h : Acts c c') : c'.tasks = c.tasks := by
  induction h with
  | refl => rfl
  | tail _ h ih =>
    rw [← ih]
    cases h with
    | quiet h => cases h <;> rfl
    | finish hr ho recorded => exact (finish_resolves onOutcomes_resolves hr ho recorded).tasks

theorem tasks_create {rows : List (TaskId × Task × Runtime)} (hid : id ∉ rows.map Prod.fst) :
    (rows.foldl (fun db e => db.create e.1 e.2.1 e.2.2) db).tasks.get? id = db.tasks.get? id := by
  induction rows generalizing db with
  | nil => rfl
  | cons e rows ih =>
    simp only [List.map_cons, List.mem_cons, not_or] at hid
    rw [List.foldl_cons, ih hid.2]
    simp [Db.create, hid.1]

theorem insertFull_writes (hb : b.Valid) (hnd : (b.full.map Prod.fst).Nodup)
    (hnew : ∀ e ∈ b.full, s.db.tasks.get? e.1 = none) :
    Ensures (insertFull b) s fun _ s' => Writes s.core s'.core ∧ s'.db.tasks =
      (b.full.foldl (fun db e => db.create e.1 e.2.1 e.2.2) s.db).tasks := by
  simp only [insertFull, ensures_bind, ensures_write, ensures_ite]
  have hcreate := create_writes s.host hnd hnew hb.full
  have hrest {t : Session} (ht : Resolves
      (s.update fun db => b.full.foldl (fun db e => db.create e.1 e.2.1 e.2.2) db).core t.core) :
      Ensures ((pastDeadline b.now b.full).forM fun id => do
        let _ ← perform (terminalizeDeadline id))
        (t.update fun db => b.full.foldl (fun db e => db.addEvent e.1 none .enqueued) db)
        fun _ s' => Writes s.core s'.core ∧ s'.db.tasks =
          (b.full.foldl (fun db e => db.create e.1 e.2.1 e.2.2) s.db).tasks := by
    have hevents : (t.update fun db =>
        b.full.foldl (fun db e => db.addEvent e.1 none .enqueued) db).core = t.core := core_addEvents
    refine .forM (fun t' : Session => Writes s.core t'.core ∧ t'.db.tasks =
      (b.full.foldl (fun db e => db.create e.1 e.2.1 e.2.2) s.db).tasks) (fun id _ t' ht' => ?_) ?_
    · simp only [ensures_bind, ensures_perform, ensures_pure]
      exact ⟨ht'.1.trans terminalizeDeadline_acts.writes, terminalizeDeadline_acts.tasks.trans ht'.2⟩
    · rw [hevents]
      exact ⟨hcreate.trans ht.writes, (congrArg Core.tasks hevents).trans ht.tasks⟩
  exact ⟨fun _ => insertBatchEdges_resolves.mono fun _ t ht => hrest ht, fun _ => hrest .refl⟩

theorem insertFast_writes (hb : b.Valid) (hnd : (b.fast.map Prod.fst).Nodup)
    (hnew : ∀ e ∈ b.fast, s.db.tasks.get? e.1 = none) : Ensures (insertFast b) s fun _ s' => Writes s.core s'.core := by
  simp only [insertFast, ensures_bind, ensures_write]
  have hcreate := createFast_writes s.host hnd hnew hb.fast
  refine .forM (fun t : Session => Writes s.core t.core) (fun id _ t ht => ?_) hcreate
  simp only [ensures_bind, ensures_perform, ensures_pure]
  exact ht.trans fastTerminalizeDeadline_acts.writes

theorem insertBatch_writes (hb : b.Valid) : Ensures (insertBatch b) s fun _ s' => Writes s.core s'.core := by
  simp only [insertBatch, ensures_bind, ensures_database, ensures_ite, ensures_throw, ensures_write]
  refine ⟨fun _ => trivial, fun hids => ?_⟩
  simp only [Batch.ids, List.nodup_append, not_not, Table.not_contains_iff, List.mem_append] at hids
  obtain ⟨⟨hnd, hnd', hdisj⟩, hnew⟩ := hids
  -- The idempotency rows are outside the core.
  generalize hkeys : (s.update fun db => { db with
    idempotency := b.keys.foldr (fun e t => t.put e.1 e.2) db.idempotency }) = u
  have hu : u.core = s.core := hkeys ▸ rfl
  have hutasks : u.db.tasks = s.db.tasks := congrArg Core.tasks hu
  rw [← hutasks] at hnew
  rw [← hu]
  refine (insertFull_writes hb hnd fun e he => hnew e.1 (.inl (List.mem_map_of_mem he))).mono
    fun _ t hfull => ?_
  obtain ⟨ht, htasks⟩ := hfull
  refine (insertFast_writes hb hnd' fun e he => ?_).mono fun _ t' ht' => ht.trans ht'
  rw [htasks, tasks_create fun hmem => hdisj _ hmem _ (List.mem_map_of_mem he) rfl]
  exact hnew e.1 (.inr (List.mem_map_of_mem he))

/-- A batch changes the core only when it is written. -/
theorem enqueueBatch_inserts {Q : Session → Prop} (h : ∀ b t, Batch.Valid b →
      t.core = s.core → Ensures (insertBatch b) t fun _ s' => Q s') :
    Ensures (enqueueBatch requests) s fun _ s' => Q s' := by
  simp only [enqueueBatch, lockPrerequisites, decideEdges, ensures_bind, ensures_database, ensures_pure]
  refine openBatch_valid.mono fun b t hopen => ?_
  obtain ⟨hb, ht⟩ := hopen
  refine (Ensures.foldlM (fun b (t : Session) => b.Valid ∧ t.core = s.core) (fun b r _ t hb => ?_)
    ⟨⟨hb.full, hb.fast⟩, ht⟩).mono fun b t hb => ?_
  · exact (enqueueRequest_valid hb.1).mono fun b' t' h => ⟨h.1, h.2.trans hb.2⟩
  · exact h _ t ⟨hb.1.full, hb.1.fast⟩ hb.2

theorem enqueueBatch_writes : Ensures (enqueueBatch requests) s fun _ s' => Writes s.core s'.core :=
  enqueueBatch_inserts fun _ _ hb ht => ht ▸ insertBatch_writes hb

/-! ## Purge -/

theorem boundaries_deleteTasks {host : Host} {ids : List TaskId} : ∀ id, ids.contains id = false →
      (db.core host).boundaries.Grows id ((db.deleteTasks ids).core host).boundaries := by
  intro id hid
  have hkept {ν : Type} {t : Table (TaskId × String) ν} {name : String} {v : ν}
      (h : t.get? (id, name) = some v) :
      (t.filter fun k _ => !ids.contains k.1).get? (id, name) = some v := by
    rw [Table.get?_filter, h, Option.filter_some, hid]
    rfl
  exact ⟨fun _ _ => hkept, fun _ _ h => .inl (hkept h), fun _ _ h => .inl (hkept h), fun _ _ => hkept⟩

theorem deleteTasks_write {host : Host} {ids : List TaskId}
    (h : ∀ id ∈ ids, db.runtime.contains id = true ∨ db.fastRuntime.contains id = true) :
    Write (db.core host) ((db.deleteTasks ids).core host) := by
  have hdelete := Write.delete (c := db.core host) ids.contains
    (fun id hid => h id (List.contains_iff_mem.mp hid))
    (db.dependencies.filter fun k _ => !ids.contains k.1 && !ids.contains k.2)
    (@boundaries_deleteTasks db host ids)
  have hattempts : (fun id n => if ids.contains id then 0 else (db.core host).attempts id n) =
      ((db.deleteTasks ids).core host).attempts := by
    funext id n
    simp only [Db.core, Db.deleteTasks, List.countP_filter]
    split
    · rename_i hid
      refine (List.countP_eq_zero.mpr fun a _ ha => ?_).symm
      simp only [Bool.and_eq_true, decide_eq_true_eq] at ha
      rw [← ha.1.1, hid] at ha
      exact absurd ha.2 (by simp)
    · rename_i hid
      refine List.countP_congr fun a _ => ?_
      simp only [Bool.and_eq_true, decide_eq_true_eq, iff_self_and]
      rintro ⟨rfl, -⟩
      simpa using hid
  rw [hattempts] at hdelete
  exact hdelete

theorem mem_purgedTasks (h : id ∈ purgedTasks db queue) : db.runtime.contains id = true := by
  obtain ⟨e, he, rfl⟩ := List.mem_map.mp (mem_byId.mp h)
  exact Table.contains_of_get? (Table.mem_select.mp he).1

theorem mem_purgedFastTasks (h : id ∈ purgedFastTasks db queue) : db.fastRuntime.contains id = true := by
  obtain ⟨e, he, rfl⟩ := List.mem_map.mp (mem_byId.mp h)
  exact Table.contains_of_get? (Table.mem_select.mp he).1

/-- A purge deletes full-tier tasks, cancels the ones that stay, and deletes fast-tier tasks. -/
structure Purges (s t s' : Session) (deleted deletedFast : List TaskId) : Prop where
  full : ∀ id ∈ deleted, s.db.runtime.contains id = true
  acts : Acts ((s.db.deleteTasks deleted).core s.host) t.core
  fast : ∀ id ∈ deletedFast, t.db.fastRuntime.contains id = true
  tasks : s'.db.tasks = (t.db.deleteTasks deletedFast).tasks
  core : s'.core = (t.db.deleteTasks deletedFast).core t.host

theorem purgeQueue_purges : Ensures (purgeQueue queue) s fun _ s' =>
    ∃ u t deleted fast, u.core = s.core ∧ Purges u t s' deleted fast := by
  simp only [purgeQueue, ensures_bind, ensures_ensure, ensures_write, ensures_database, ensures_pure]
  intro _
  -- The control row of the queue is outside the core.
  generalize hdb : (s.update fun db => if db.queueControl.contains queue then db else { db with
    queueControl := db.queueControl.put queue ⟨false, .full, false, false⟩ }) = u
  have hu : u.core = s.core := by
    rw [← hdb, Session.core_update]
    split <;> rfl
  refine (Ensures.forM (fun t : Session => Acts ((u.db.deleteTasks ((purgedTasks u.db queue).filter fun id =>
    !(stayingTasks u.db (purgedTasks u.db queue)).contains id)).core u.host) t.core) (fun id _ t ht => ?_) .refl).mono
    fun _ t ht => ⟨u, t, _, purgedFastTasks t.db queue, hu, ?_, ht, fun _ => mem_purgedFastTasks, rfl, rfl⟩
  · simp only [ensures_bind, ensures_pure]
    exact cancel_acts.mono fun _ _ h => ht.trans h
  · exact fun id hid => mem_purgedTasks (List.mem_filter.mp hid).1

theorem purgeQueue_writes : Ensures (purgeQueue queue) s fun _ s' => Writes s.core s'.core := by
  refine purgeQueue_purges.mono fun _ s' h => ?_
  obtain ⟨u, t, deleted, fast, hu, h⟩ := h
  rw [← hu, h.core]
  have hdelete : Writes u.core ((u.db.deleteTasks deleted).core u.host) :=
    .single (deleteTasks_write fun id hid => .inl (h.full id hid))
  exact (hdelete.trans h.acts.writes).tail (deleteTasks_write fun id hid => .inr (h.fast id hid))

end Workhorse
