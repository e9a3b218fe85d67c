import Workhorse.Enqueue.Lemmas.Keys
import Workhorse.Task.Lemmas.Runs

/-!
# Durable boundaries along a run

While a task lives, its boundaries only grow: a name is bound once, and a wait takes one delivery.
A replay by a live generation reads what is bound, and an accepted delivery wakes the waiting row.
-/

namespace Workhorse

open Transaction Session

variable {s s' : Session} {c c' : Core} {call : Call} {e : Exchange} {id : TaskId} {name : String}
  {timeoutMs : Option Nat} {inputFingerprint : Option String} {es : List Exchange}

/-! ## Growth -/

theorem Resolves.boundaries (h : Resolves c c') : c'.boundaries = c.boundaries := by
  induction h with
  | refl => rfl
  | tail _ h ih =>
    rw [← ih]
    cases h <;> rfl

theorem Acts.grows (h : Acts c c') (id : TaskId) : c.boundaries.Grows id c'.boundaries := by
  induction h with
  | refl => exact .refl _
  | tail _ h ih =>
    cases h with
    | quiet h =>
      cases h with
      | bind h => exact ih.trans (h id)
      | revise | claim | retry | skip | fastRevise | fastClaim | fastClose | fastRecord => exact ih
    | finish hr ho recorded =>
      have hsame := (finish_resolves onOutcomes_resolves hr ho recorded).boundaries
      rw [hsame]
      exact ih

theorem Session.Frames.boundaries (h : s.Frames s') : s'.core.boundaries = s.core.boundaries :=
  congrArg (fun r => (⟨r.2.2.1, r.2.2.2.1, r.2.2.2.2.1, r.2.2.2.2.2.1⟩ : Boundaries)) h.rest

theorem boundaries_create {xs : List (TaskId × Task × Runtime)} {db : Db} {host : Host} :
    ((xs.foldl (fun db e => db.create e.1 e.2.1 e.2.2) db).core host).boundaries = (db.core host).boundaries := by
  induction xs generalizing db with
  | nil => rfl
  | cons e xs ih => exact ih

theorem boundaries_createFast {xs : List (TaskId × Task × FastRuntime)} {db : Db} {host : Host} :
    ((xs.foldl (fun db e => db.createFast e.1 e.2.1 e.2.2) db).core host).boundaries = (db.core host).boundaries := by
  induction xs generalizing db with
  | nil => rfl
  | cons e xs ih => exact ih

theorem insertBatch_boundaries {b : Batch} :
    Ensures (insertBatch b) s fun _ s' => s'.core.boundaries = s.core.boundaries := by
  simp only [insertBatch, ensures_bind, ensures_database, ensures_ite, ensures_throw, ensures_write]
  refine ⟨fun _ => trivial, fun _ => insertFull_frames.mono fun _ t ht => ?_⟩
  refine insertFast_frames.mono fun _ s' hs' => ?_
  rw [hs'.boundaries, core_update, boundaries_createFast, Db.core_eq, ht.boundaries, core_update, boundaries_create]
  rfl

theorem enqueueBatch_boundaries {requests : List Request} :
    Ensures (enqueueBatch requests) s fun _ s' => s'.core.boundaries = s.core.boundaries :=
  enqueueBatch_inserts fun _ _ _ ht => ht ▸ insertBatch_boundaries

theorem purgeQueue_grows {queue : String} : Ensures (purgeQueue queue) s fun _ s' =>
    ∀ id, s'.db.tasks.contains id = true → s.core.boundaries.Grows id s'.core.boundaries := by
  refine purgeQueue_purges.mono fun _ s' h id hid => ?_
  obtain ⟨u, t, deleted, fast, hu, h⟩ := h
  have htasks : t.db.tasks = (u.db.deleteTasks deleted).tasks := h.acts.tasks
  rw [h.tasks] at hid
  simp only [Db.deleteTasks, Table.contains_filter, Bool.and_eq_true, Bool.not_eq_true', htasks] at hid
  rw [← hu, h.core]
  exact ((boundaries_deleteTasks id hid.2.1).trans (h.acts.grows id)).trans (boundaries_deleteTasks id hid.1)

theorem exec_grows (hc : s.core.Sound) : Ensures (exec call) s fun _ s' =>
    s'.db.tasks.contains id = true → s.core.boundaries.Grows id s'.core.boundaries := by
  by_cases hcall : call.acts = true
  · exact (exec_acts hc hcall).mono fun _ _ h _ => h.grows id
  · cases call <;> simp only [Call.acts, not_true, Bool.false_eq_true, not_false_eq_true] at hcall
    case releaseOwned =>
      simp only [exec, ensures_map]
      refine releaseOwned_calls.mono fun _ _ h _ => ?_
      rcases h with h | ⟨r, r', -, -, -, -, -, -, -, h⟩
      · exact h.acts.grows id
      · rw [h]
        exact .refl _
    case enqueueBatch =>
      simp only [exec, ensures_map]
      exact enqueueBatch_boundaries.mono fun _ _ h _ => h ▸ .refl _
    case purgeQueue =>
      simp only [exec, ensures_map]
      exact purgeQueue_grows.mono fun _ _ h => h id

theorem Step.grows (hc : s.core.Sound) (h : Step s e s') (ht : s'.db.tasks.contains id = true) :
    s.core.boundaries.Grows id s'.core.boundaries := by
  cases h with
  | commit h => exact exec_grows hc _ _ h ht
  | abort => exact .refl _

inductive Lives (id : TaskId) : Session → List Exchange → Session → Prop
  | nil (s : Session) : Lives id s [] s
  | snoc {s s' s'' : Session} {es : List Exchange} {e : Exchange} (h : Lives id s es s')
      (h' : Step s' e s'') (ht : s''.db.tasks.contains id = true) : Lives id s (es ++ [e]) s''

theorem Lives.run (h : Lives id s es s') : Run s es s' := by
  induction h with
  | nil => exact .nil _
  | snoc _ h _ ih => exact ih.snoc h

theorem Lives.grows (hc : s.core.Sound) (h : Lives id s es s') : s.core.boundaries.Grows id s'.core.boundaries := by
  induction h with
  | nil => exact .refl _
  | snoc hl h ht ih => exact ih.trans (h.grows (hc.moves (hl.run.moves hc)) ht)

/-! ## Replays -/

variable {worker : String} {fence : Nat} {r : Runtime} {now : Time}

inductive Channel
  | signal
  | human
deriving DecidableEq

variable {channel : Channel}

def Boundaries.delivery (b : Boundaries) (channel : Channel) (k : TaskId × String) : Option Delivery :=
  match channel with
  | .signal => (b.signalWaits.get? k).bind (·.delivery)
  | .human => (b.humanWaits.get? k).bind (·.delivery)

def Exchange.Delivers (e : Exchange) (channel : Channel) (id : TaskId) (name : String) : Prop :=
  match channel, e.call, e.reply with
  | .signal, .sendSignal id' name' _ _ _, some (.sent st _) => st = .delivered ∧ id' = id ∧ name' = name
  | .human, .completeHumanWait id' name' _ _ _, some (.sent st _) =>
    st = .delivered ∧ id' = id ∧ name' = name
  | _, _, _ => False

/-- The row that waits under a name becomes ready, in its attempt and with the deadline of its task. -/
def Session.Wakes (s s' : Session) (id : TaskId) (name : String) : Prop :=
  ∃ r r', s.db.runtime.get? id = some r ∧ r.state = .scheduled ∧ r.waitName = some name ∧
    s'.db.runtime.get? id = some r' ∧ r'.state = .ready ∧ r'.waitName = none ∧
    r'.currentAttempt = r.currentAttempt ∧ r'.deadlineAt = (s.db.tasks.get? id).bind (·.deadlineAt)

theorem Session.Wakes.of_woken {sequence : Nat} (hr : s.db.runtime.get? id = some r)
    (hs : r.state = .scheduled) (hname : r.waitName = some name) (hrow : s'.db.runtime =
      s.db.runtime.put id (r.woken now sequence ((s.db.tasks.get? id).bind (·.deadlineAt)))) :
    s.Wakes s' id name :=
  ⟨r, r.woken now sequence ((s.db.tasks.get? id).bind (·.deadlineAt)), hr, hs, hname,
    by rw [hrow, Table.get?_put, if_pos rfl], rfl, rfl, rfl, rfl⟩

theorem Boundaries.Grows.delivery {b b' : Boundaries} (h : b.Grows id b')
    {d : Delivery} (hd : b.delivery channel (id, name) = some d) : b'.delivery channel (id, name) = some d := by
  cases channel with
  | signal =>
    obtain ⟨w, hw, hd⟩ := Option.bind_eq_some_iff.mp hd
    rcases h.signal name w hw with hw | ⟨hnone, -⟩
    · exact Option.bind_eq_some_iff.mpr ⟨w, hw, hd⟩
    · rw [hnone] at hd
      cases hd
  | human =>
    obtain ⟨w, hw, hd⟩ := Option.bind_eq_some_iff.mp hd
    rcases h.human name w hw with hw | ⟨hnone, -⟩
    · exact Option.bind_eq_some_iff.mpr ⟨w, hw, hd⟩
    · rw [hnone] at hd
      cases hd

theorem waitingRow_name {attempt : Nat} {p : Runtime → Bool}
    (h : ((s.db.runtime.get? id).filter fun r => r.state == .scheduled && r.waitName == some name &&
      r.currentAttempt == attempt).filter p = some r) : r.waitName = some name := by
  obtain ⟨h, -⟩ := Option.filter_eq_some_iff.mp h
  obtain ⟨hr, h⟩ := Option.filter_eq_some_iff.mp h
  simp only [Bool.and_eq_true, beq_iff_eq] at h
  exact h.1.2

structure Session.Accepts (s s' : Session) (channel : Channel) (id : TaskId) (name : String) : Prop where
  free : s.core.boundaries.delivery channel (id, name) = none
  bound : (s'.core.boundaries.delivery channel (id, name)).isSome = true
  wakes : s.Wakes s' id name

theorem Session.Accepts.of_delivery {d : Delivery} (hfree : s.core.boundaries.delivery channel (id, name) = none)
    (hd : s'.core.boundaries.delivery channel (id, name) = some d) (hwakes : s.Wakes s' id name) :
    s.Accepts s' channel id name ∧ s'.core.boundaries.delivery channel (id, name) = some d :=
  ⟨⟨hfree, Option.isSome_iff_exists.mpr ⟨d, hd⟩, hwakes⟩, hd⟩

theorem Delivery.replay_ne {d : Delivery} {key by_ : String} {payload : Jsonb} :
    d.replay key payload by_ ≠ .delivered := by
  unfold replay
  split <;> [split; skip] <;> simp

theorem sendSignal_accepts {payload : Jsonb} {key requestedBy : String} :
    Ensures (sendSignal id name payload key requestedBy) s fun reply s' =>
      reply.1 = .delivered → s.Accepts s' .signal id name ∧
        s'.core.boundaries.delivery .signal (id, name) = some ⟨payload, key, requestedBy, s.now⟩ := by
  simp only [sendSignal, ensureName, ensureTrimmed, ensureDelivery, ensures_bind, ensures_ensure,
    ensures_database, ensures_ite, ensures_pure]
  refine fun _ _ _ _ _ => ⟨fun _ => by simp, fun _ => ?_⟩
  split
  · simp [ensures_write]
  · rename_i wait hwait
    split
    · simp only [ensures_ite, ensures_bind, ensures_write, ensures_pure]
      exact ⟨fun _ h => absurd h Delivery.replay_ne, fun _ h => absurd h Delivery.replay_ne⟩
    · rename_i hnone
      simp only [waitingRow, ensures_bind, ensures_database, ensures_pure, ensures_clockTimestamp]
      split
      · simp [ensures_write]
      · rename_i r h
        obtain ⟨hr, hs⟩ := waitingRow_some (s := s) h
        simp only [wake, ensures_bind, ensures_write, ensures_pure, ensures_nextReadySequence]
        refine fun _ => Accepts.of_delivery ?_ ?_ (.of_woken hr hs (waitingRow_name (s := s) h) rfl)
        · exact (congrArg (·.bind SignalWait.delivery) hwait).trans hnone
        · exact congrArg (·.bind SignalWait.delivery) (Table.get?_put_self s.db.signalWaits (id, name) _)

theorem completeHumanWait_accepts {result : Jsonb} {key completedBy : String} :
    Ensures (completeHumanWait id name result key completedBy) s fun reply s' =>
      reply.1 = .delivered → s.Accepts s' .human id name ∧
        s'.core.boundaries.delivery .human (id, name) = some ⟨result, key, completedBy, s.now⟩ := by
  simp only [completeHumanWait, ensureName, ensureTrimmed, ensureDelivery, ensures_bind, ensures_ensure,
    ensures_database, ensures_ite, ensures_pure]
  refine fun _ _ _ _ _ => ⟨fun _ => by simp, fun _ => ?_⟩
  split
  · simp [ensures_write]
  · rename_i wait hwait
    split
    · simp only [ensures_ite, ensures_bind, ensures_write, ensures_pure]
      exact ⟨fun _ h => absurd h Delivery.replay_ne, fun _ h => absurd h Delivery.replay_ne⟩
    · rename_i hnone
      simp only [waitingRow, ensures_bind, ensures_database, ensures_pure, ensures_clockTimestamp]
      split
      · simp [ensures_write]
      · rename_i r h
        obtain ⟨hr, hs⟩ := waitingRow_some (s := s) h
        simp only [wake, ensures_bind, ensures_write, ensures_pure, ensures_nextReadySequence]
        refine fun _ => Accepts.of_delivery ?_ ?_ (.of_woken hr hs (waitingRow_name (s := s) h) rfl)
        · exact (congrArg (·.bind HumanWait.delivery) hwait).trans hnone
        · exact congrArg (·.bind HumanWait.delivery) (Table.get?_put_self s.db.humanWaits (id, name) _)

theorem exec_accepts : Ensures (exec call) s fun reply s' => ∀ channel id name,
    Exchange.Delivers ⟨call, some reply⟩ channel id name → s.Accepts s' channel id name := by
  cases call <;> simp only [exec, ensures_map, ensures_write]
  case sendSignal =>
    refine sendSignal_accepts.mono fun _ _ h channel _ _ hd => ?_
    cases channel with
    | signal =>
      obtain ⟨hst, rfl, rfl⟩ := hd
      exact (h hst).1
    | human => exact False.elim hd
  case completeHumanWait =>
    refine completeHumanWait_accepts.mono fun _ _ h channel _ _ hd => ?_
    cases channel with
    | signal => exact False.elim hd
    | human =>
      obtain ⟨hst, rfl, rfl⟩ := hd
      exact (h hst).1
  case configure =>
    intro channel _ _ hd
    cases channel <;> exact False.elim hd
  all_goals
    intro _ _ _ channel _ _ hd
    cases channel <;> exact False.elim hd

theorem Step.accepts (h : Step s e s') (hd : e.Delivers channel id name) : s.Accepts s' channel id name := by
  cases h with
  | commit h => exact exec_accepts _ _ h channel id name hd
  | @abort call => cases channel <;> cases call <;> exact False.elim hd

theorem Lives.delivered (hc : s.core.Sound) (h : Lives id s es s') :
    es.Pairwise (fun e e' => ∀ channel name, e.Delivers channel id name → ¬e'.Delivers channel id name) ∧
    ∀ e ∈ es, ∀ channel name, e.Delivers channel id name →
      (s'.core.boundaries.delivery channel (id, name)).isSome = true := by
  induction h with
  | nil => exact ⟨.nil, by simp⟩
  | snoc hl hs ht ih =>
    have hgrows := hs.grows (hc.moves (hl.run.moves hc)) ht
    refine ⟨List.pairwise_append.mpr ⟨ih.1, List.pairwise_singleton _ _, ?_⟩, ?_⟩
    · intro e₁ he₁ e₂ he₂ channel name hd₁ hd₂
      cases List.mem_singleton.mp he₂
      have hbound := ih.2 e₁ he₁ channel name hd₁
      rw [(hs.accepts hd₂).free] at hbound
      cases hbound
    · intro e' he' channel name hd
      rcases List.mem_append.mp he' with he' | he'
      · obtain ⟨d, hd⟩ := Option.isSome_iff_exists.mp (ih.2 e' he' channel name hd)
        exact Option.isSome_iff_exists.mpr ⟨d, hgrows.delivery hd⟩
      · cases List.mem_singleton.mp he'
        exact (hs.accepts hd).bound

/-! ## What a call records -/

/-- The boundary that a call binds first, in the later boundaries of the task, holds what the call passed. -/
def Exchange.Recorded (e : Exchange) (id : TaskId) (b b' : Boundaries) : Prop :=
  match e.call, e.reply with
  | .saveCheckpoint id' _ _ name value inputFingerprint, some (.checkpoint .saved _) => id' = id →
    ∃ c, b'.checkpoints.get? (id, name) = some c ∧ c.value = value ∧ c.inputFingerprint = inputFingerprint
  | .scheduleWait id' _ _ name durationMs wakeAt, some (.wait _ (some _)) =>
    id' = id → b.waits.get? (id, name) = none → ∃ w, b'.waits.get? (id, name) = some w ∧
      some w.mode = (durationMs.map .relative).or (wakeAt.map .absolute)
  | .waitForSignal id' _ _ name _, some (.delivery .waiting _) => id' = id →
    ∃ w, b'.signalWaits.get? (id, name) = some w
  | .waitForHuman id' _ _ name context _, some (.delivery .waiting _) => id' = id →
    ∃ w, b'.humanWaits.get? (id, name) = some w ∧ w.context = context
  | .sendSignal id' name payload key by_, some (.sent .delivered _) => id' = id →
    ∃ now, b'.delivery .signal (id, name) = some ⟨payload, key, by_, now⟩
  | .completeHumanWait id' name result key by_, some (.sent .delivered _) => id' = id →
    ∃ now, b'.delivery .human (id, name) = some ⟨result, key, by_, now⟩
  | _, _ => True

theorem saveCheckpoint_records {value : Jsonb} :
    Ensures (saveCheckpoint id worker fence name value inputFingerprint) s fun reply s' => reply.1 = .saved →
      ∃ c, s'.db.checkpoints.get? (id, name) = some c ∧ c.value = value ∧ c.inputFingerprint = inputFingerprint := by
  simp only [saveCheckpoint, ensureName, ensures_bind, ensures_ensure, ensures_owned]
  intro _ _ _
  split
  · simp [ensures_pure]
  · simp only [ensures_clockTimestamp, ensures_ite, ensures_bind, ensures_pure, ensures_database]
    refine ⟨by simp, fun _ => ?_⟩
    split
    · simp only [ensures_pure]
      split_ifs <;> simp
    · simp only [ensures_bind, ensures_write, ensures_pure]
      exact fun _ => ⟨_, Table.get?_put_self .., rfl, rfl⟩

theorem scheduleWait_records {durationMs : Option Nat} {wakeAt : Option Time}
    (hfree : s.db.waits.get? (id, name) = none) :
    Ensures (scheduleWait id worker fence name durationMs wakeAt) s fun reply s' => reply.2.isSome = true →
      ∃ w, s'.db.waits.get? (id, name) = some w ∧
        some w.mode = (durationMs.map .relative).or (wakeAt.map .absolute) := by
  simp only [scheduleWait, ensureName, ensures_bind, ensures_ensure, ensures_owned, ensures_clockTimestamp]
  intro _ hone _
  split
  · simp [ensures_pure]
  · rw [ensures_bind, ensures_database]
    split
    · rename_i hstored
      cases hfree.symm.trans hstored
    · simp only [ensures_ite, ensures_bind, ensures_ensure, ensures_pure, ensures_write,
        ensures_clockTimestamp, ensures_unexpired]
      refine fun _ => ⟨by simp, fun _ => ⟨fun _ _ => ⟨_, Table.get?_put_self .., ?_⟩, fun _ =>
        ⟨fun _ _ => ⟨_, Table.get?_put_self .., ?_⟩, by simp⟩⟩⟩
      -- The arguments give one of the two modes.
      all_goals cases durationMs <;> cases wakeAt <;> simp_all

theorem waitForSignal_records :
    Ensures (waitForSignal id worker fence name timeoutMs) s fun reply s' => reply.1 = .waiting →
      ∃ w, s'.db.signalWaits.get? (id, name) = some w := by
  simp only [waitForSignal, ensureName, ensureTrimmed, ensureWorker, ensures_bind, ensures_ensure, ensures_database]
  intro _ _ _ _
  split
  · simp [ensures_ite, ensures_pure]
  · rw [ensures_bind, ensures_owned, ensures_bind, ensures_clockTimestamp]
    split
    · simp [ensures_pure]
    · split
      · simp [ensures_write]
      · simp only [ensures_ite, ensures_bind, ensures_pure, ensures_write, ensures_database,
          ensures_clockTimestamp, ensures_unexpired]
        exact ⟨by simp, fun _ => ⟨fun _ _ => ⟨_, Table.get?_put_self ..⟩, by simp⟩⟩

theorem waitForHuman_records {context : Jsonb} :
    Ensures (waitForHuman id worker fence name context timeoutMs) s fun reply s' => reply.1 = .waiting →
      ∃ w, s'.db.humanWaits.get? (id, name) = some w ∧ w.context = context := by
  simp only [waitForHuman, ensureName, ensureTrimmed, ensureWorker, ensures_bind, ensures_ensure, ensures_database]
  intro _ _ _ _ _
  split
  · simp only [ensures_ite, ensures_pure]
    simp
  · rw [ensures_bind, ensures_owned, ensures_bind, ensures_clockTimestamp]
    split
    · simp [ensures_pure]
    · split
      · simp only [ensures_bind, ensures_write, ensures_pure, ensures_ite]
        simp
      · simp only [ensures_ite, ensures_bind, ensures_pure, ensures_write, ensures_database,
          ensures_clockTimestamp, ensures_unexpired]
        exact ⟨by simp, fun _ => ⟨fun _ _ => ⟨_, Table.get?_put_self .., rfl⟩, by simp⟩⟩

theorem exec_recorded : Ensures (exec call) s fun reply s' =>
    Exchange.Recorded ⟨call, some reply⟩ id s.core.boundaries s'.core.boundaries := by
  cases call <;> simp only [exec, ensures_map, ensures_write]
  case saveCheckpoint =>
    refine saveCheckpoint_records.mono fun reply s' h => ?_
    obtain ⟨status, stored⟩ := reply
    cases status <;> first | exact trivial | exact fun hid => hid ▸ h rfl
  case scheduleWait id' _ _ name _ _ =>
    by_cases hfree : s.db.waits.get? (id', name) = none
    · refine (scheduleWait_records hfree).mono fun reply s' h => ?_
      obtain ⟨status, stored⟩ := reply
      cases stored with
      | none => exact trivial
      | some w => exact fun hid _ => hid ▸ h rfl
    · intro reply s' _
      obtain ⟨status, stored⟩ := reply
      cases stored with
      | none => exact trivial
      | some w => exact fun hid h => absurd (hid ▸ h) hfree
  case waitForSignal =>
    refine waitForSignal_records.mono fun reply s' h => ?_
    obtain ⟨status, payload⟩ := reply
    cases status <;> first | exact trivial | exact fun hid => hid ▸ h rfl
  case waitForHuman =>
    refine waitForHuman_records.mono fun reply s' h => ?_
    obtain ⟨status, payload⟩ := reply
    cases status <;> first | exact trivial | exact fun hid => hid ▸ h rfl
  case sendSignal =>
    refine sendSignal_accepts.mono fun reply s' h => ?_
    obtain ⟨status, delivery⟩ := reply
    cases status <;> first | exact trivial | exact fun hid => hid ▸ ⟨_, (h rfl).2⟩
  case completeHumanWait =>
    refine completeHumanWait_accepts.mono fun reply s' h => ?_
    obtain ⟨status, delivery⟩ := reply
    cases status <;> first | exact trivial | exact fun hid => hid ▸ ⟨_, (h rfl).2⟩
  case configure => exact trivial
  all_goals exact fun _ _ _ => trivial

theorem Step.recorded (h : Step s e s') : e.Recorded id s.core.boundaries s'.core.boundaries := by
  cases h with
  | commit h => exact exec_recorded _ _ h
  | @abort call => cases call <;> exact trivial

theorem Exchange.Recorded.grows {b b' b'' : Boundaries} (h : e.Recorded id b b') (hg : b'.Grows id b'') :
    e.Recorded id b b'' := by
  unfold Exchange.Recorded at h ⊢
  split at h
  · intro hid
    obtain ⟨c, hc, hrest⟩ := h hid
    exact ⟨c, hg.checkpoint _ _ hc, hrest⟩
  · intro hid hfree
    obtain ⟨w, hw, hmode⟩ := h hid hfree
    exact ⟨w, hg.wait _ _ hw, hmode⟩
  · intro hid
    obtain ⟨w, hw⟩ := h hid
    rcases hg.signal _ _ hw with hw | ⟨-, _, hw⟩
    · exact ⟨w, hw⟩
    · exact ⟨_, hw⟩
  · intro hid
    obtain ⟨w, hw, hcontext⟩ := h hid
    rcases hg.human _ _ hw with hw | ⟨-, _, hw⟩
    · exact ⟨w, hw, hcontext⟩
    · exact ⟨_, hw, hcontext⟩
  · exact fun hid => (h hid).imp fun _ hd => hg.delivery hd
  · exact fun hid => (h hid).imp fun _ hd => hg.delivery hd
  · trivial

end Workhorse
