import Workhorse.Enqueue.Debounce
import Workhorse.Enqueue.Lemmas.Keys
import Workhorse.Enqueue.Lemmas.Replay

/-!
# Served debounce calls

A database that only calls on one key have written holds at most one runtime row, the pending task of
the key. The lemmas follow one call through it.
-/

namespace Workhorse

open Transaction Session

variable {s s' : Session} {db : Db} {id : TaskId} {r : Request} {k : String × String} {e : Idempotency} {row : Runtime}

structure Runtime.Unstarted (r : Runtime) : Prop where
  state : r.state = .ready ∨ r.state = .scheduled
  attemptStartedAt : r.attemptStartedAt = none
  waitName : r.waitName = none
  currentAttempt : r.currentAttempt = 1

/-- The databases that calls on the key `k` write. -/
structure Db.Debounced (db : Db) (k : String × String) : Prop where
  dependencies : db.dependencies = .empty
  fastRuntime : db.fastRuntime = .empty
  queueControl : db.queueControl = .empty
  row : ∀ e, db.idempotency.get? k = some e → e.debounce = true ∧ db.tasks.contains e.taskId = true
  pending : ∀ id r, db.runtime.get? id = some r → r.Unstarted ∧ ∃ e, db.idempotency.get? k = some e ∧ e.taskId = id

/-! ## The enqueue underneath -/

theorem onOutcomes_of_no_edges (h : s.db.dependencies = .empty) (new : List (TaskId × OutcomeState)) :
    onOutcomes new s = s := by
  simp [onOutcomes, trigger, resolveTaskOutcomeDependencies, h, Table.any, Table.empty]

theorem terminalizeDeadline_alone (id : TaskId) (hedges : s.db.dependencies = .empty)
    (hfast : s.db.fastRuntime = .empty) : (terminalizeDeadline id s).2.db.dependencies = .empty ∧
      (terminalizeDeadline id s).2.db.fastRuntime = .empty ∧
      ∀ id' r, (terminalizeDeadline id s).2.db.runtime.get? id' = some r → s.db.runtime.get? id' = some r := by
  have hfinish (o : Outcome) (t : Session) (ht : t.db = s.db) :
      finish onOutcomes id o t = t.update fun db => (db.deleteRuntime id).setOutcome id o := by
    unfold finish insertOutcomes
    exact onOutcomes_of_no_edges (by simp [ht, Db.setOutcome, Db.deleteRuntime, hedges]) _
  have herase (id' : TaskId) (r : Runtime) (h : (s.db.runtime.erase id).get? id' = some r) :
      s.db.runtime.get? id' = some r := by
    obtain ⟨-, h⟩ := Table.get?_erase_eq_some h
    exact h
  unfold terminalizeDeadline terminalizeDeadlineWith
  rw [if_neg (by simp [hfast, Table.contains])]
  split
  · exact ⟨hedges, hfast, fun _ _ h => h⟩
  · split
    · exact ⟨hedges, hfast, fun _ _ h => h⟩
    · split
      · exact ⟨hedges, hfast, fun _ _ h => h⟩
      · split
        · dsimp only
          rw [hfinish _ s.ask.ask rfl]
          exact ⟨hedges, hfast, herase⟩
        · dsimp only
          rw [hfinish _ s.ask.ask rfl]
          simp only [update_db]
          split
          · exact ⟨hedges, hfast, herase⟩
          · exact ⟨hedges, hfast, herase⟩

theorem enqueueRequest_plain {b : Batch} (hfast : b.fastQueues = []) (hp : r.prerequisites = []) :
    Ensures (enqueueRequest b r) s fun b' _ => b'.fast = b.fast ∧ b'.edges = b.edges ∧
      (b'.full = b.full ∨ ∃ id row, b'.full = b.full ++ [(id, r.task, row)] ∧ row.Unstarted ∧
        row.runAt = r.runAt.getD b.now) := by
  simp only [enqueueRequest, lockPrerequisites, checkPrerequisites, countPrerequisites, isRejected,
    ensures_bind, ensures_database, ensures_pure, ensures_ensure, hp]
  refine ensureRequest_same.mono fun _ t ht => ?_
  subst ht
  refine fun _ => ?_
  simp only [List.find?_nil, ensures_pure, bufferRequest, ensures_bind]
  refine resolveIdentity_cases.mono fun reply t hreply => ?_
  obtain ⟨-, keys, hb⟩ := hreply
  obtain ⟨id, isNew, b'⟩ := reply
  simp only at hb
  subst hb
  have hstart (n : Nat) (sequence : Option Nat) : (r.runtime b.now
      (startState b.now r ⟨0, n⟩ false) sequence n).Unstarted := by
    refine ⟨?_, rfl, rfl, rfl⟩
    simp only [Request.runtime, startState]
    split
    · simp_all
    · split
      · exact .inl rfl
      · exact .inr rfl
  have hbuffer (sequence : Option Nat) (n : Nat) : b.full ++ [(id, r.task, r.runtime b.now
      (startState b.now r ⟨0, n⟩ false) sequence n)] = b.full ∨ ∃ id' row,
      b.full ++ [(id, r.task, r.runtime b.now (startState b.now r ⟨0, n⟩ false) sequence n)] =
        b.full ++ [(id', r.task, row)] ∧ row.Unstarted ∧ row.runAt = r.runAt.getD b.now :=
    .inr ⟨id, _, rfl, hstart n sequence, rfl⟩
  simp only [ensures_ite, ensures_bind, ensures_map, ensures_nextReadySequence, ensures_pure, hfast, hp,
    List.contains_nil, List.map_nil, List.append_nil, List.countP_nil, List.any_nil, hbuffer]
  simp

theorem enqueueBatch_one {replies : List (TaskId × Bool)} (hqueue : s.db.queueControl = .empty)
    (hp : r.prerequisites = []) (h : enqueueBatch [r] s = .ok (replies, s')) :
    ∃ b t, insertBatch b t = .ok ((), s') ∧ t.core = s.core ∧ s.Frames t ∧ b.now = s.now ∧
      b.replies = replies ∧ b.Answers s.db.idempotency [r] ∧ b.fast = [] ∧ b.edges = [] ∧
      (b.full = [] ∨ ∃ id row, b.full = [(id, r.task, row)] ∧ row.Unstarted ∧ row.runAt = r.runAt.getD b.now) := by
  unfold enqueueBatch at h
  obtain ⟨b, t, hopen, h⟩ := bind_eq_ok.mp h
  obtain ⟨rfl, hnow, hanswers, httl⟩ := openBatch_answers _ _ hopen
  have hb : b.fastQueues = [] ∧ b.full = [] ∧ b.fast = [] ∧ b.edges = [] := by
    unfold openBatch at hopen
    obtain ⟨_, _, hclock, hopen⟩ := bind_eq_ok.mp hopen
    cases hclock
    obtain ⟨-, hopen⟩ := ensure_bind_ok.mp hopen
    obtain ⟨_, u, hforM, hopen⟩ := bind_eq_ok.mp hopen
    cases hopen
    simp [hqueue]
  obtain ⟨hfastQueues, hfull, hfast, hedges⟩ := hb
  obtain ⟨b₁, t₁, hlock, h⟩ := bind_eq_ok.mp h
  have hlocked : t₁ = s.ask ∧ b₁.now = s.now ∧ b₁.fastQueues = [] ∧ b₁.full = [] ∧ b₁.fast = [] ∧
      b₁.edges = [] ∧ b₁.Answers s.ask.db.idempotency [] := by
    cases hlock
    exact ⟨rfl, hnow, hfastQueues, hfull, hfast, hedges, hanswers.answered, hanswers.ids⟩
  obtain ⟨rfl, hnow, hfastQueues, hfull, hfast, hedges, hanswers⟩ := hlocked
  obtain ⟨b', t, hfold, h⟩ := bind_eq_ok.mp h
  rw [List.foldlM_cons] at hfold
  obtain ⟨_, _, hrequest, hfold⟩ := bind_eq_ok.mp hfold
  cases hfold
  obtain ⟨_, _, hdecide, h⟩ := bind_eq_ok.mp h
  cases hdecide
  obtain ⟨_, u, hinsert, h⟩ := bind_eq_ok.mp h
  cases h
  obtain ⟨hframes, hnow', hanswers'⟩ := enqueueRequest_answers hanswers (httl r (by simp)) _ _ hrequest
  obtain ⟨hfast', hedges', hfull'⟩ := enqueueRequest_plain hfastQueues hp _ _ hrequest
  have hcore := (enqueueRequest_valid ⟨by simp [hfull], by simp [hfast]⟩ _ _ hrequest).2
  rw [hfull] at hfull'
  refine ⟨_, t, hinsert, hcore, (Frames.ask s).trans hframes, hnow'.trans hnow, rfl,
    ⟨hanswers'.answered, hanswers'.ids⟩, hfast'.trans hfast, by simp [hedges', hedges], ?_⟩
  rcases hfull' with hfull' | ⟨id, row, hfull', hrow, hrun⟩
  · exact .inl hfull'
  · exact .inr ⟨id, row, hfull', hrow, by rw [hrun, hnow']⟩

theorem runtime_create {xs : List (TaskId × Task × Runtime)}
    (h : (xs.foldl (fun db e => db.create e.1 e.2.1 e.2.2) db).runtime.get? id = some row) :
    db.runtime.get? id = some row ∨ ∃ e ∈ xs, e.1 = id ∧ e.2.2 = row := by
  induction xs generalizing db with
  | nil => exact .inl h
  | cons e xs ih =>
    rcases ih h with h | ⟨e', he', h⟩
    · simp only [Db.create, Table.get?_put] at h
      split at h
      · rename_i hid
        exact .inr ⟨e, by simp, hid.symm, Option.some.inj h⟩
      · exact .inl h
    · exact .inr ⟨e', by simp [he'], h⟩

theorem create_others (xs : List (TaskId × Task × Runtime)) (db : Db) :
    (xs.foldl (fun db e => db.create e.1 e.2.1 e.2.2) db).dependencies = db.dependencies ∧
    (xs.foldl (fun db e => db.create e.1 e.2.1 e.2.2) db).fastRuntime = db.fastRuntime ∧
    (xs.foldl (fun db e => db.create e.1 e.2.1 e.2.2) db).queueControl = db.queueControl := by
  induction xs generalizing db with
  | nil => exact ⟨rfl, rfl, rfl⟩
  | cons e xs ih => exact ih _

theorem addEvents_others (xs : List (TaskId × Task × Runtime)) (f : TaskId × Task × Runtime → EventType)
    (db : Db) :
    (xs.foldl (fun db e => db.addEvent e.1 none (f e)) db).runtime = db.runtime ∧
    (xs.foldl (fun db e => db.addEvent e.1 none (f e)) db).dependencies = db.dependencies ∧
    (xs.foldl (fun db e => db.addEvent e.1 none (f e)) db).fastRuntime = db.fastRuntime ∧
    (xs.foldl (fun db e => db.addEvent e.1 none (f e)) db).queueControl = db.queueControl := by
  induction xs generalizing db with
  | nil => exact ⟨rfl, rfl, rfl, rfl⟩
  | cons e xs ih => exact ih _

theorem insertBatch_alone {b : Batch} (hfast : b.fast = []) (hedges : b.edges = [])
    (hdependencies : s.db.dependencies = .empty) (hfastRuntime : s.db.fastRuntime = .empty) :
    Ensures (insertBatch b) s fun _ s' => s'.db.dependencies = .empty ∧ s'.db.fastRuntime = .empty ∧
      s'.db.queueControl = s.db.queueControl ∧ ∀ id row, s'.db.runtime.get? id = some row →
        s.db.runtime.get? id = some row ∨ ∃ e ∈ b.full, e.1 = id ∧ e.2.2 = row := by
  simp only [insertBatch, insertFull, insertFast, hfast, hedges, ensures_bind, ensures_database,
    ensures_ite, ensures_throw, ensures_write, List.foldl_nil]
  refine ⟨fun _ => trivial, fun _ => ⟨fun h => absurd rfl h, fun _ => ?_⟩⟩
  refine Ensures.mono (Ensures.forM (fun t : Session => t.db.dependencies = .empty ∧
    t.db.fastRuntime = .empty ∧ t.db.queueControl = s.db.queueControl ∧ ∀ id row, t.db.runtime.get? id = some row →
      s.db.runtime.get? id = some row ∨ ∃ e ∈ b.full, e.1 = id ∧ e.2.2 = row)
    (fun id _ t ht => ?_) ?_) fun _ t ht => ?_
  · obtain ⟨hd, hf, hq, hr⟩ := ht
    simp only [ensures_bind, ensures_perform, ensures_pure]
    obtain ⟨hd', hf', hr'⟩ := terminalizeDeadline_alone id hd hf
    refine ⟨hd', hf', ?_, fun id row h => hr id row (hr' id row h)⟩
    have hframes : t.Frames (terminalizeDeadline id t).2 := terminalizeDeadline_frames
    exact (congrArg (·.2.2.2.2.2.2) hframes.rest).trans hq
  · simp only [update_db]
    obtain ⟨hr, hd, hf, hq⟩ := addEvents_others b.full (fun _ => .enqueued)
      (b.full.foldl (fun db e => db.create e.1 e.2.1 e.2.2) { s.db with
        idempotency := b.keys.foldr (fun e t => t.put e.1 e.2) s.db.idempotency })
    obtain ⟨hd', hf', hq'⟩ := create_others b.full ({ s.db with
        idempotency := b.keys.foldr (fun e t => t.put e.1 e.2) s.db.idempotency })
    refine ⟨(hd.trans hd').trans hdependencies, (hf.trans hf').trans hfastRuntime, hq.trans hq', ?_⟩
    intro id row h
    rw [hr] at h
    rcases runtime_create h with h | h
    · exact .inl h
    · exact .inr h
  · simp only [pastDeadline, List.filter_nil, List.map_nil]
    exact ensures_pure.mpr ht

theorem insertBatch_new {b : Batch} :
    Ensures (insertBatch b) s fun _ _ => ∀ id ∈ b.ids, s.db.tasks.contains id = false := by
  simp only [insertBatch, ensures_bind, ensures_database, ensures_ite, ensures_throw, ensures_write]
  exact ⟨fun _ => trivial, fun hids _ _ _ _ _ _ => (not_not.mp hids).2⟩

/-! ## The answer to one request -/

namespace Answered

variable {rows : Table (String × String) Idempotency} {now : Time}
  {keys : List ((String × String) × Idempotency)} {replies : List (TaskId × Bool)}

theorem of_nil (h : Answered rows now [] keys replies) : keys = [] ∧ replies = [] := by
  generalize hdone : ([] : List Request) = done at h
  cases h with
  | nil => exact ⟨rfl, rfl⟩
  | unkeyed => simp at hdone
  | fresh => simp at hdone
  | replay => simp at hdone

theorem of_one (h : Answered rows now [r] keys replies) (hk : r.identity = some k) :
    ((∀ e, rows.get? k = some e → e.expiresAt ≤ now) ∧
      ∃ entry, keys = [(k, entry)] ∧ replies = [(entry.taskId, true)]) ∨
    ∃ e, rows.get? k = some e ∧ now < e.expiresAt ∧ keys = [] ∧ replies = [(e.taskId, false)] := by
  generalize hdone : [r] = done at h
  rw [← List.nil_append [r]] at hdone
  cases h with
  | nil => cases hdone
  | @unkeyed done keys replies r' h hr id =>
    obtain ⟨rfl, hr'⟩ := List.append_inj' hdone rfl
    cases hr'
    rw [hr] at hk
    cases hk
  | @fresh done keys replies r' k' entry h hr hexpired hlive =>
    obtain ⟨rfl, hr'⟩ := List.append_inj' hdone rfl
    cases hr'
    obtain ⟨rfl, rfl⟩ := h.of_nil
    cases Option.some.inj (hk.symm.trans hr)
    exact .inl ⟨hexpired, entry, rfl, rfl⟩
  | @replay done keys replies r' k' e h hr he hlive =>
    obtain ⟨rfl, hr'⟩ := List.append_inj' hdone rfl
    cases hr'
    obtain ⟨rfl, rfl⟩ := h.of_nil
    cases Option.some.inj (hk.symm.trans hr)
    exact .inr ⟨e, he, hlive, rfl, rfl⟩

end Answered

theorem Batch.Answers.full_eq_nil {b : Batch} {rows : Table (String × String) Idempotency}
    (h : b.Answers rows [r]) (hreplies : b.replies = [(e.taskId, false)]) : b.full = [] := by
  have hids : b.ids = [] := by
    refine List.eq_nil_iff_forall_not_mem.mpr fun id hid => ?_
    rw [h.ids, hreplies] at hid
    simp at hid
  simpa using (List.append_eq_nil_iff.mp hids).1

theorem validateDebounced_live (hqueue : s.db.queueControl = .empty)
    (hk : r.identity = some k) (hp : r.prerequisites = []) (he : s.db.idempotency.get? k = some e)
    (hlive : s.now < e.expiresAt) : Ensures (validateDebounced r) s fun _ s' => s'.core = s.core ∧ s.Frames s' := by
  intro u s' h
  unfold validateDebounced at h
  split at h
  · rename_i replies t hbatch
    cases h
    obtain ⟨b, t, hinsert, hcore, hframes, hnow, -, hanswers, hfast, hedges, -⟩ := enqueueBatch_one hqueue hp hbatch
    rcases hanswers.answered.of_one hk with ⟨hexpired, -⟩ | ⟨e', -, -, hkeys, hreplies⟩
    · rw [hnow] at hexpired
      exact absurd (hexpired e he) (Int.not_le.mpr hlive)
    · rw [insertBatch_empty hkeys (hanswers.full_eq_nil hreplies) hfast hedges] at hinsert
      cases hinsert
      exact ⟨hcore, hframes⟩
  · cases h
    exact ⟨rfl, (Frames.ask s).trans (.ask _)⟩
  · cases h

/-! ## The two ways of a call -/

structure Db.Window (db : Db) (k : String × String) (id : TaskId) (until_ : Time) : Prop where
  row : ∃ e, db.idempotency.get? k = some e ∧ e.taskId = id ∧ e.expiresAt = until_
  runAt : ∀ row, db.runtime.get? id = some row → row.runAt = until_

theorem acceptDebounced_accepts (sampled : Time) {d : Debounce} (hdb : s.db.Debounced k)
    (hk : d.identity = k) (hp : r.prerequisites = []) (hnone : ∀ id, s.db.runtime.get? id = none)
    (hexpired : ∀ e, s.db.idempotency.get? k = some e → e.expiresAt ≤ s.now) :
    Ensures (acceptDebounced sampled d r) s fun reply s' => reply.2 = .accepted ∧ s.db.tasks.contains reply.1 = false ∧
      (∀ id, s'.db.tasks.contains id = true ↔ s.db.tasks.contains id = true ∨ id = reply.1) ∧
      s'.db.Debounced k ∧ s'.db.Window k reply.1 (sampled + d.window) ∧ s'.host = s.host ∧ s.asked ≤ s'.asked := by
  intro reply s' h
  unfold acceptDebounced at h
  obtain ⟨replies, t', hbatch, h⟩ := bind_eq_ok.mp h
  have hk' : (d.normalized r (sampled + d.window)).identity = some k := by
    rw [← hk]
    rfl
  have hp' : (d.normalized r (sampled + d.window)).prerequisites = [] := hp
  obtain ⟨b, t, hinsert, hcore, hframes, hnow, hreplies, hanswers, hfast, hedges, hfull⟩ :=
    enqueueBatch_one hdb.queueControl hp' hbatch
  obtain ⟨_, t₁, hwrite, h⟩ := bind_eq_ok.mp h
  cases hwrite
  -- The key is free, so the request takes it over.
  obtain ⟨entry, hkeys, hreply⟩ : ∃ entry, b.keys = [(k, entry)] ∧ b.replies = [(entry.taskId, true)] := by
    rcases hanswers.answered.of_one hk' with ⟨-, hentry⟩ | ⟨e, he, hlive, -⟩
    · exact hentry
    · rw [hnow] at hlive
      exact absurd (hexpired e he) (Int.not_le.mpr hlive)
  rw [← hreplies, hreply] at h
  cases h
  obtain ⟨hrows, htasks, hhost, hasked⟩ := insertBatch_rows _ _ hinsert
  have hids (id : TaskId) : id ∈ b.ids ↔ id = entry.taskId := by
    rw [hanswers.ids, hreply]
    simp
  have htask : ∀ id, t'.db.tasks.contains id = true ↔ s.db.tasks.contains id = true ∨ id = entry.taskId := by
    intro id
    rw [htasks, hframes.tasks, hids]
  have hcoreDeps : t.db.dependencies = .empty := (congrArg Core.dependencies hcore).trans hdb.dependencies
  have hcoreFast : t.db.fastRuntime = .empty := (congrArg Core.fastRuntime hcore).trans hdb.fastRuntime
  have hcoreRuntime : t.db.runtime = s.db.runtime := congrArg Core.runtime hcore
  obtain ⟨hd, hf, hq, hruntime⟩ := insertBatch_alone hfast hedges hcoreDeps hcoreFast _ _ hinsert
  have hrow : t'.db.idempotency.get? k = some entry := by
    rw [hrows, hkeys]
    simp
  have hmodified : (t'.db.idempotency.modify d.identity fun stored =>
      { stored with debounce := true, expiresAt := sampled + d.window }).get? k =
      some { entry with debounce := true, expiresAt := sampled + d.window } := by
    rw [Table.get?_modify, hk, if_pos rfl, hrow]
    rfl
  -- The only row is the one of the new task.
  have hrow' : ∀ id row, t'.db.runtime.get? id = some row → id = entry.taskId ∧ row.Unstarted ∧
      row.runAt = sampled + d.window := by
    intro id row h
    rcases hruntime id row h with h | ⟨e, he, rfl, rfl⟩
    · rw [hcoreRuntime, hnone] at h
      cases h
    · rcases hfull with hfull | ⟨id', row', hfull, hunstarted, hrun⟩
      · rw [hfull] at he
        cases he
      · have hmem : e.1 ∈ b.ids := List.mem_append_left _ (List.mem_map_of_mem he)
        rw [hfull] at he
        cases List.mem_singleton.mp he
        exact ⟨(hids _).mp hmem, hunstarted, hrun⟩
  refine ⟨rfl, ?_, htask, ⟨hd, hf, ?_, ?_, ?_⟩, ⟨?_, ?_⟩, hhost.trans hframes.host, le_trans hframes.asked hasked⟩
  · have := insertBatch_new _ _ hinsert entry.taskId ((hids _).mpr rfl)
    rwa [hframes.tasks] at this
  · refine hq.trans ?_
    exact (congrArg (·.2.2.2.2.2.2) hframes.rest).trans hdb.queueControl
  · intro e he
    cases hmodified.symm.trans he
    exact ⟨rfl, (htask _).mpr (.inr rfl)⟩
  · intro id row h
    obtain ⟨rfl, hunstarted, -⟩ := hrow' id row h
    exact ⟨hunstarted, _, hmodified, rfl⟩
  · exact ⟨_, hmodified, rfl, rfl⟩
  · intro row h
    exact (hrow' _ row h).2.2

theorem Runtime.Unstarted.debounced (h : row.Unstarted) {request : Request}
    {sampled runAt : Time} {readyAt : Option Time} {sequence : Option Nat} :
    (row.debounced request sampled runAt readyAt sequence).Unstarted := by
  refine ⟨?_, h.attemptStartedAt, h.waitName, h.currentAttempt⟩
  unfold Runtime.debounced
  dsimp only
  split
  · exact .inl rfl
  · exact .inr rfl

theorem replacedSequence_same {sampled runAt : Time} :
    Ensures (replacedSequence sampled runAt row) s fun _ s' => s'.core = s.core ∧ s.Frames s' := by
  have hsame : s.core = s.core ∧ s.Frames s := ⟨rfl, .refl s⟩
  unfold replacedSequence
  split
  · split
    · exact ensures_pure.mpr hsame
    · rw [ensures_map, ensures_nextReadySequence]
      exact ⟨rfl, .nextReadySequence s⟩
  · exact ensures_pure.mpr hsame

theorem replacePending_replaces {sampled : Time} {d : Debounce}
    (hdb : s.db.Debounced k) (hk : d.identity = k) (hp : r.prerequisites = [])
    (he : s.db.idempotency.get? k = some e) (hrow : s.db.runtime.get? e.taskId = some row)
    (hlive : s.now < e.expiresAt) (hdeadline : ∀ deadline, r.deadline = some deadline → sampled < deadline) :
    Ensures (replacePending sampled d r e row) s fun _ s' =>
      (∀ id, s'.db.tasks.contains id = s.db.tasks.contains id) ∧
      s'.db.tasks.get? e.taskId = some r.task ∧ s'.db.runtime.contains e.taskId = true ∧
      s'.db.Debounced k ∧ (d.schedule = .reset → s'.db.Window k e.taskId (sampled + d.window)) ∧
      s'.host = s.host ∧ s.asked ≤ s'.asked := by
  unfold replacePending
  simp only [ensures_bind]
  have hvalidate := validateDebounced_live
    (r := d.normalized r (if d.schedule = .reset then sampled + d.window else row.runAt))
    hdb.queueControl (by rw [← hk]; rfl) hp he hlive
  refine hvalidate.mono fun _ t ht => ?_
  obtain ⟨hcore, hframes⟩ := ht
  refine normalizeRetryPolicy_same.mono fun _ t' ht' => ?_
  subst ht'
  refine replacedSequence_same.mono fun sequence u hu => ?_
  have hcore := hu.1.trans hcore
  have hframes := hframes.trans hu.2
  simp only [ensures_write, ensures_ite, ensures_bind, ensures_perform, ensures_pure]
  have hdue : ¬((d.normalized r (if d.schedule = .reset then sampled + d.window else row.runAt)).deadline.any
      (· ≤ sampled)) = true := by
    intro hdue
    obtain ⟨deadline, hdeadline', hle⟩ := (Option.any_eq_true _ _).mp hdue
    exact absurd (hdeadline deadline hdeadline') (Int.not_lt.mpr (by simpa using hle))
  refine ⟨fun h => absurd h hdue, fun _ => ?_⟩
  have hruntime : u.db.runtime = s.db.runtime := congrArg Core.runtime hcore
  have hunstarted := (hdb.pending e.taskId row hrow).1
  simp only [update_db, Db.addEvent, hruntime, hframes.tasks, hframes.idempotency]
  refine ⟨fun id => Table.contains_modify _ _ _ _, ?_, ?_, ⟨?_, ?_, ?_, ?_, ?_⟩, ?_, hframes.host, hframes.asked⟩
  · obtain ⟨t, ht⟩ := Table.contains_iff.mp (hdb.row e he).2
    simp [ht, Debounce.normalized, Request.task]
  · rw [Table.contains_modify]
    exact Table.contains_of_get? hrow
  · exact (congrArg Core.dependencies hcore).trans hdb.dependencies
  · exact (congrArg Core.fastRuntime hcore).trans hdb.fastRuntime
  · exact (congrArg (·.2.2.2.2.2.2) hframes.rest).trans hdb.queueControl
  · intro e' he'
    rw [Table.get?_modify, hk, if_pos rfl, he] at he'
    cases he'
    refine ⟨(hdb.row e he).1, ?_⟩
    rw [Table.contains_modify]
    exact (hdb.row e he).2
  · intro id row' h
    rw [Table.get?_modify] at h
    rw [Table.get?_modify, hk, if_pos rfl, he]
    split at h
    · rename_i hid
      subst hid
      rw [hrow] at h
      cases h
      exact ⟨hunstarted.debounced, _, rfl, rfl⟩
    · obtain ⟨hrow', e', he', hid⟩ := hdb.pending id row' h
      rw [he] at he'
      cases he'
      exact ⟨hrow', _, rfl, hid⟩
  · intro hreset
    refine ⟨?_, fun row' h => ?_⟩
    · rw [Table.get?_modify, hk, if_pos rfl, he]
      exact ⟨_, rfl, rfl, by simp [hreset]⟩
    · rw [Table.get?_modify, if_pos rfl, hrow] at h
      cases h
      simp [Runtime.debounced, hreset]

/-! ## Served calls -/

def Db.Pending (db : Db) (id : TaskId) : Prop :=
  ∃ row, db.runtime.get? id = some row ∧ (row.state = .ready ∨ row.state = .scheduled)

/-- Every outcome creates what it reports: a replaced call no task, and it leaves one pending task, with
its own definition; an accepted call one task; any other call none. -/
structure ServedCall.Reported (c : ServedCall) : Prop where
  replaced : c.outcome = .replaced → (∀ id, c.after.tasks.contains id = c.before.tasks.contains id) ∧
    (∀ id, c.after.Pending id ↔ id = c.taskId) ∧ c.after.tasks.get? c.taskId = some c.request.task
  accepted : c.outcome = .accepted → c.before.tasks.contains c.taskId = false ∧
    ∀ id, c.after.tasks.contains id = true ↔ c.before.tasks.contains id = true ∨ id = c.taskId
  other : c.outcome ≠ .replaced → c.outcome ≠ .accepted → ∀ id, c.after.tasks.contains id = c.before.tasks.contains id

def ServedCall.Resets (c : ServedCall) : Prop :=
  c.debounce.schedule = .reset ∧ (c.outcome = .replaced ∨ c.outcome = .accepted)

def ServedCall.Sets (c : ServedCall) (k : String × String) : Prop :=
  c.Resets → c.after.Window k c.taskId (c.sampled + c.debounce.window)

/-- The condition on a call when it is served: its key is not overtaken by its own expiry while it
waited, and its deadline is ahead of its sample. -/
structure DebounceCall.Timely (c : DebounceCall) (k : String × String) (s : Session) : Prop where
  live : ∀ e, s.db.idempotency.get? k = some e → c.sampled < e.expiresAt → s.now < e.expiresAt
  deadline : ∀ deadline, c.request.deadline = some deadline → c.sampled < deadline

theorem Db.Debounced.addEvent (h : db.Debounced k) (type : EventType) : (db.addEvent id none type).Debounced k :=
  ⟨h.dependencies, h.fastRuntime, h.queueControl, h.row, h.pending⟩

theorem Db.Debounced.pending_iff (h : db.Debounced k)
    (he : db.idempotency.get? k = some e) (hrow : db.runtime.contains e.taskId = true) :
    ∀ id, db.Pending id ↔ id = e.taskId := by
  intro id
  constructor
  · rintro ⟨row, hrow, -⟩
    obtain ⟨-, e', he', hid⟩ := h.pending id row hrow
    rw [he] at he'
    cases he'
    exact hid.symm
  · rintro rfl
    obtain ⟨row, hrow⟩ := Table.contains_iff.mp hrow
    exact ⟨row, hrow, (h.pending _ row hrow).1.state⟩

theorem debounceKey_reports {c : DebounceCall} (hdb : s.db.Debounced k) (hk : c.debounce.identity = k)
    (hp : c.request.prerequisites = []) (hpast : c.sampled ≤ s.now) (htimely : c.Timely k s) :
    Ensures (debounceKey c.sampled c.debounce c.request) s fun reply s' => s'.db.Debounced k ∧
      s'.host = s.host ∧ s.asked ≤ s'.asked ∧
      ServedCall.Reported { c with taskId := reply.1, outcome := reply.2, before := s.db, after := s'.db } ∧
      ServedCall.Sets { c with taskId := reply.1, outcome := reply.2, before := s.db, after := s'.db }
        k := by
  -- A call that adds an event and no more.
  have hrefused {taskId : TaskId} : (s.update fun db => db.addEvent taskId none .debounceRejected).db.Debounced k ∧
      s.host = s.host ∧ s.asked ≤ s.asked ∧ ServedCall.Reported { c with
        taskId := taskId, outcome := .nonReplaceable, before := s.db
        after := s.db.addEvent taskId none .debounceRejected } ∧
      ServedCall.Sets { c with
        taskId := taskId, outcome := .nonReplaceable, before := s.db
        after := s.db.addEvent taskId none .debounceRejected } k := by
    refine ⟨hdb.addEvent _, rfl, le_rfl, ⟨?_, ?_, fun _ _ _ => rfl⟩, ?_⟩
    · intro h
      cases h
    · intro h
      cases h
    · rintro ⟨-, h⟩
      rcases h with h | h <;> cases h
  have haccepts (hnone : ∀ id, s.db.runtime.get? id = none)
      (hexpired : ∀ e, s.db.idempotency.get? k = some e → e.expiresAt ≤ s.now) :=
    (acceptDebounced_accepts c.sampled hdb hk hp hnone hexpired).mono
      (Q := fun reply s' => s'.db.Debounced k ∧ s'.host = s.host ∧ s.asked ≤ s'.asked ∧ ServedCall.Reported { c with
          taskId := reply.1, outcome := reply.2, before := s.db, after := s'.db } ∧
        ServedCall.Sets { c with
          taskId := reply.1, outcome := reply.2, before := s.db, after := s'.db } k)
      fun reply s' h => by
        obtain ⟨houtcome, hnew, htasks, hdb', hwindow, hhost, hasked⟩ := h
        refine ⟨hdb', hhost, hasked, ⟨?_, fun _ => ⟨hnew, htasks⟩, ?_⟩, fun _ => hwindow⟩
        · intro h
          cases houtcome.symm.trans h
        · exact fun _ h => absurd houtcome h
  unfold debounceKey
  simp only [ensures_bind, ensures_database]
  split
  · rename_i hnone
    rw [hk] at hnone
    refine haccepts (fun id => ?_) fun e he => ?_
    · by_contra hrow
      obtain ⟨row, hrow⟩ := Option.ne_none_iff_exists'.mp hrow
      obtain ⟨-, e, he, -⟩ := hdb.pending id row hrow
      rw [hnone] at he
      cases he
    · rw [hnone] at he
      cases he
  · rename_i e he
    rw [hk] at he
    simp only [ensures_ite]
    constructor
    · intro hlive
      split
      · rename_i row hrow
        obtain ⟨hrow, -⟩ := Option.filter_eq_some_iff.mp hrow
        simp only [ensures_bind, ensures_pure]
        refine (replacePending_replaces hdb hk hp he hrow (htimely.live e he hlive)
          htimely.deadline).mono fun _ s' h => ?_
        obtain ⟨htasks, htask, hcontains, hdb', hwindow, hhost, hasked⟩ := h
        obtain ⟨row', hrow'⟩ := Table.contains_iff.mp hcontains
        obtain ⟨-, e', he', hid⟩ := hdb'.pending _ row' hrow'
        refine ⟨hdb', hhost, hasked, ⟨fun _ => ⟨htasks, ?_, htask⟩, ?_, ?_⟩, fun h => hwindow h.1⟩
        · simpa only [hid] using hdb'.pending_iff he' (by rw [hid]; exact hcontains)
        · intro h
          cases h
        · exact fun h => absurd rfl h
      · simp only [ensures_bind, ensures_write, ensures_pure]
        exact hrefused
    · intro hexpired
      constructor
      · intro _
        simp only [ensures_bind, ensures_write, ensures_pure]
        exact hrefused
      · intro hgone
        refine haccepts (fun id => ?_) fun e' he' => ?_
        · by_contra hrow
          obtain ⟨row, hrow⟩ := Option.ne_none_iff_exists'.mp hrow
          obtain ⟨hunstarted, e', he', hid⟩ := hdb.pending id row hrow
          rw [he] at he'
          cases he'
          rw [hid, hrow] at hgone
          rcases hunstarted.state with h | h <;> simp [h] at hgone
        · rw [he] at he'
          cases he'
          exact le_trans (Int.not_lt.mp hexpired) hpast

end Workhorse
