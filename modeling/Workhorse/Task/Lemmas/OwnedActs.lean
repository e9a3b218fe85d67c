import Workhorse.Task.Lemmas.FastActs

/-!
# Calls of a worker

Every call on an owned task is a sequence of acts that closes the generation exactly when it accepts;
heartbeats and durable boundaries that do not suspend leave it open.
-/

namespace Workhorse

open Transaction Relation

variable {s : Session} {c : Core} {id : TaskId} {worker : String} {fence : Nat} {r : Runtime} {error : Option Envelope}

theorem owned_some (h : (s.db.runtime.get? id).filter (·.ownedBy worker fence) = some r) :
    s.db.runtime.get? id = some r ∧ r.state = .active ∧ r.workerId = some worker ∧ r.fenceToken = fence := by
  obtain ⟨hr, ho⟩ := Option.filter_eq_some_iff.mp h
  exact ⟨hr, Runtime.ownedBy_iff.mp ho⟩

theorem ensures_owned {Q : Option Runtime → Session → Prop} : Ensures (owned id worker fence) s Q ↔
    Q ((s.db.runtime.get? id).filter (·.ownedBy worker fence)) s := ensures_ok rfl

theorem ensures_unexpired {Q : Bool → Session → Prop} : Ensures (unexpired r) s Q ↔
    Q (r.expiresAt.any (s.now < ·) && r.deadlineAt.all (s.ask.now < ·) &&
      r.attemptTimeoutAt.all (s.ask.ask.now < ·)) s.ask.ask.ask :=
  ensures_ok rfl

theorem ensures_close {state : OutcomeState} {result : Option Jsonb}
    {Q : Unit → Session → Prop} : Ensures (close id r state fence result error) s Q ↔ Q () (finish onOutcomes id {
        state, currentAttempt := r.currentAttempt, fenceToken := fence, runAt := r.runAt, result
        error, finishedAt := s.now } s.ask) :=
  ensures_ok rfl

theorem attempt_lt {n : Nat} {task : Task} (ht : c.tasks.get? id = some task)
    (h : n < task.maxAttempts) : ∀ t, c.tasks.get? id = some t → n < t.maxAttempts := by
  intro t ht'
  rw [ht] at ht'
  cases ht'
  exact h

theorem retryAt_calls (hcore : s.core = c) (hr : c.runtime.get? id = some r) (hs : r.state = .active)
    (hf : r.fenceToken = fence) (hc : r.cancelRequestedAt = none)
    (hmax : ∀ t, c.tasks.get? id = some t → r.currentAttempt < t.maxAttempts) {runAt : Time}
    {delay : RetryDelay} {accepted : Status → Prop} : Ensures (retryAt id r runAt delay error) s fun status s' =>
      Calls c id fence (accepted status) (s'.core.record id r.currentAttempt) := by
  subst hcore
  simp only [retryAt, ensures_bind, ensures_clockTimestamp, ensures_ite, ensures_map,
    ensures_nextReadySequence, ensures_pure, ensures_write, Session.core_update, Db.core_setRuntime]
  refine ⟨fun hd => ?_, fun hd => ?_⟩
  · exact .retry hr hs hf (.retried hs hc _ _ (by simp [hd]) _) (by simp [Runtime.retried, hd]) hmax
  · exact .retry hr hs hf (.retried hs hc _ _ (by simp [hd]) _) (by simp [Runtime.retried, hd]) hmax

theorem retryAt_acts (hcore : s.core = c) (hr : c.runtime.get? id = some r) (hs : r.state = .active)
    (hc : r.cancelRequestedAt = none)
    (hmax : ∀ t, c.tasks.get? id = some t → r.currentAttempt < t.maxAttempts) {runAt : Time} {delay : RetryDelay} :
    Ensures (retryAt id r runAt delay error) s fun _ s' =>
      Acts c (s'.core.record id r.currentAttempt) := by
  have h : Ensures (retryAt id r runAt delay error) s fun _ s' =>
      Calls c id r.fenceToken False (s'.core.record id r.currentAttempt) :=
    retryAt_calls hcore hr hs rfl hc hmax
  exact h.mono fun _ _ h => h.acts

theorem terminalizeDeadline_calls (hcore : s.core = c) (hr : c.runtime.get? id = some r)
    (hs : r.state = .active) (hf : r.fenceToken = fence) (hfast : c.fastRuntime.contains id = false) :
    Calls c id fence ((terminalizeDeadline id s).1 = true) (terminalizeDeadline id s).2.core := by
  subst hcore
  rw [Session.runtime_core] at hr
  rw [Session.fastRuntime_core] at hfast
  simp only [terminalizeDeadline, terminalizeDeadlineWith, hfast, hr, hs, if_true, Bool.false_eq_true, if_false]
  split
  · exact .same (by simp)
  · split
    · exact .same (by simp)
    · split <;> simp only [Session.core_update, Db.core_addEvent, Db.core_addAttempt, Db.core_eq]
      · exact .finish (s := s.ask.ask) hr hs hf rfl true
      · exact .finish (s := s.ask.ask) hr hs hf rfl true

theorem timeoutOwned_calls (hcore : s.core = c) : Ensures (timeoutOwned id worker fence) s
    fun ok s' => Calls c id fence (ok = true) s'.core := by
  subst hcore
  simp only [timeoutOwned, ensures_bind, ensures_database, ensures_ite, ensures_owned]
  refine ⟨fun _ => fastTimeoutOwned_calls rfl, fun hfast => ?_⟩
  rw [Bool.not_eq_true] at hfast
  split
  · exact ensures_pure.mpr (.same (by simp))
  · rename_i r h
    obtain ⟨hr, hs, -, hf⟩ := owned_some h
    split
    · exact ensures_pure.mpr (.same (by simp))
    · simp only [ensures_ite, ensures_bind, ensures_clockTimestamp, ensures_pure, ensures_perform,
        ensures_strictTask, ensures_close, ensures_write, Session.core_update, Db.core_addEvent,
        Db.core_addAttempt, Db.core_eq]
      refine ⟨fun _ => .same (by simp), fun _ => ⟨fun _ => .same (by simp), fun hc task htask =>
        ⟨fun _ => ?_, fun _ => ⟨fun hmax => ?_, fun _ => ?_⟩⟩⟩⟩
      · exact terminalizeDeadline_calls rfl hr hs hf hfast
      · exact retryAt_calls (by simp only [core_retryDelay, Session.core_ask]) hr hs hf
          (by simpa using hc) (attempt_lt htask hmax)
      · exact .finish (s := s.ask.ask.ask) hr hs hf rfl true

theorem expireOwned_calls (hcore : s.core = c) : Ensures (expireOwned id worker fence) s
    fun status s' => Calls c id fence (status.closed = true) s'.core := by
  subst hcore
  simp only [expireOwned, ensures_bind, ensures_database, ensures_ite, ensures_owned]
  refine ⟨fun _ => fastExpireOwned_calls rfl, fun hfast => ?_⟩
  rw [Bool.not_eq_true] at hfast
  split
  · exact ensures_pure.mpr (.same (by simp [Status.closed]))
  · rename_i r h
    obtain ⟨hr, hs, -, hf⟩ := owned_some h
    simp only [ensures_ite, ensures_bind, ensures_clockTimestamp, ensures_pure, ensures_perform]
    refine ⟨fun _ => .same (by simp [Status.closed]), fun _ => ⟨fun _ => ?_, fun _ => ⟨fun _ => ?_,
      fun _ => ⟨fun _ => ?_, fun _ => .same (by simp [Status.closed])⟩⟩⟩⟩
    · have h := terminalizeDeadline_calls (s := s.ask.ask) rfl hr hs hf hfast
      exact ⟨fun ht => h.mono fun _ => ht, fun _ => h.mono (by simp [Status.closed])⟩
    · refine (timeoutOwned_calls (s := s.ask.ask.ask) rfl).mono fun ok s' h => ?_
      exact ⟨fun ht => h.mono fun _ => ht, fun _ => h.mono (by simp [Status.closed])⟩
    · have h := terminalizeDeadline_calls (s := s.ask.ask.ask.ask) rfl hr hs hf hfast
      exact ⟨fun ht => h.mono fun _ => ht, fun _ => h.mono (by simp [Status.closed])⟩

theorem complete_calls {result : Option Jsonb} (hc : s.core.Sound) :
    Ensures (complete id worker fence result) s fun ok s' =>
      Calls s.core id fence (ok = true) s'.core := by
  simp only [complete, ensures_bind, ensures_database, ensures_ite, ensures_owned]
  refine ⟨fun _ => fastComplete_calls hc, fun _ => ?_⟩
  split
  · rename_i r task h _
    obtain ⟨hr, hs, -, hf⟩ := owned_some h
    simp only [ensures_ite, ensures_bind, ensures_pure, ensures_unexpired, ensures_ensure, ensures_close,
      ensures_write, Session.core_update, Db.core_addEvent, Db.core_addAttempt, Db.core_eq]
    refine ⟨fun _ => .same (by simp), fun _ _ => ⟨fun _ => .same (by simp), fun _ => ?_⟩⟩
    exact .finish (s := s.ask.ask.ask.ask.ask.ask.ask) hr hs hf rfl true
  · exact ensures_pure.mpr (.same (by simp))

theorem fail_calls {retryDelayMs : Option Int} : Ensures (fail id worker fence error retryDelayMs) s fun status s' =>
      Calls s.core id fence (status.closed = true) s'.core := by
  simp only [fail, ensures_bind, ensures_database, ensures_ite, ensures_owned]
  refine ⟨fun _ => fastFail_calls, fun _ => ?_⟩
  split
  · exact ensures_pure.mpr (.same (by simp [Status.closed]))
  · rename_i r h
    obtain ⟨hr, hs, -, hf⟩ := owned_some h
    simp only [ensures_ite, ensures_bind, ensures_clockTimestamp, ensures_pure, ensures_perform,
      ensures_strictTask, ensures_unexpired, ensures_close, ensures_write, Session.core_update,
      Db.core_addEvent, Db.core_addAttempt, Db.core_eq]
    refine ⟨fun _ => .same (by simp [Status.closed]), fun _ => ⟨fun _ => .same (by simp [Status.closed]),
      fun hc => ⟨fun _ => expireOwned_calls rfl, fun _ => ⟨fun _ => expireOwned_calls rfl,
        fun _ task htask => ⟨fun hmax => ⟨fun _ => ?_, fun _ => ?_⟩, fun _ => ⟨fun _ => ?_, fun _ => ?_⟩⟩⟩⟩⟩⟩
    · simpa using Calls.same (by simp [Status.closed])
    · exact retryAt_calls (by simp only [core_retryDelay, Session.core_ask]) hr hs hf
        (by simpa using hc) (attempt_lt htask hmax.1)
    · exact .same (by simp [Status.closed])
    · exact .finish (s := s.ask.ask.ask.ask.ask.ask.ask) hr hs hf rfl true

/-- A release writes its row and may use up its execution time; every other outcome is a call. -/
def Released (s : Session) (id : TaskId) (worker : String) (fence : Nat) (accepted : Prop) (c' : Core) : Prop :=
  Calls s.core id fence accepted c' ∨ ∃ r r' : Runtime, s.core.runtime.get? id = some r ∧
    r.ownedBy worker fence = true ∧ r.Becomes r' ∧ r'.state = .ready ∧ r'.currentAttempt = r.currentAttempt ∧
    (r.attemptTimeoutAt.all (s.host.clock (s.asked + 5) < ·)) ∧
    r'.executionUsedMs = r.usedAt (s.host.clock (s.asked + 8)) ∧ c' = s.core.setRuntime id r'

namespace Released

variable {accepted : Prop} {c' : Core}

theorem moves (h : Released s id worker fence accepted c') : Moves s.core c' := by
  rcases h with h | ⟨r, r', hr, -, h, -, hattempt, -, -, rfl⟩
  · exact h.acts.moves
  · exact .single (.release hr h hattempt)

theorem closes (h : Released s id worker fence accepted c') (ha : accepted) : Closes s.core c' id fence := by
  rcases h with h | ⟨r, r', hr, ho, -, hs', -, -, -, rfl⟩
  · exact h.closes ha
  · obtain ⟨hs, -, hf⟩ := Runtime.ownedBy_iff.mp ho
    exact closes_setRuntime hr hs hf (by simp [hs'])

end Released

theorem releaseOwned_calls : Ensures (releaseOwned id worker fence) s fun status s' =>
    Released s id worker fence (status.closed = true) s'.core := by
  simp only [releaseOwned, ensures_bind, ensures_database, ensures_ite, ensures_owned]
  refine ⟨fun _ => fastReleaseOwned_calls.mono fun _ _ => .inl, fun _ => ?_⟩
  split
  · exact ensures_pure.mpr (.inl (.same (by simp [Status.closed])))
  · rename_i r h
    obtain ⟨hr, ho⟩ := Option.filter_eq_some_iff.mp h
    have hs := (Runtime.ownedBy_iff.mp ho).1
    simp only [ensures_ite, ensures_bind, ensures_clockTimestamp, ensures_pure, ensures_unexpired,
      ensures_nextReadySequence, ensures_write, Session.core_update, Db.core_addEvent, Db.core_setRuntime]
    have hexpire {t : Session} (ht : t.core = s.core) : Ensures (expireOwned id worker fence) t
        fun status s' => Released s id worker fence (status.closed = true) s'.core :=
      (expireOwned_calls ht).mono fun _ _ => .inl
    refine ⟨fun _ => .inl (.same (by simp [Status.closed])), fun _ => ⟨fun _ => .inl (.same (by simp [Status.closed])),
        fun hc => ⟨fun _ => hexpire rfl, fun _ => ⟨fun _ => hexpire rfl,
          fun _ => ⟨fun _ => .inl (.same (by simp [Status.closed])), fun hlive => .inr ?_⟩⟩⟩⟩⟩
    simp only [Bool.not_eq_true', Bool.not_eq_false, Bool.and_eq_true] at hlive
    exact ⟨r, _, hr, ho, .released hs (by simpa using hc) _ _ _ _, rfl, rfl, hlive.2, rfl, rfl⟩

theorem acknowledgeCancel_calls : Ensures (acknowledgeCancel id worker fence) s fun ok s' =>
    Calls s.core id fence (ok = true) s'.core := by
  simp only [acknowledgeCancel, ensures_bind, ensures_database, ensures_ite, ensures_owned]
  refine ⟨fun _ => fastAcknowledgeCancel_calls, fun _ => ?_⟩
  split
  · exact ensures_pure.mpr (.same (by simp))
  · rename_i r h
    obtain ⟨hr, hs, -, hf⟩ := owned_some h
    rw [ensures_bind, ensures_clockTimestamp]
    split
    · exact ensures_pure.mpr (.same (by simp))
    · simp only [ensures_ite, ensures_bind, ensures_clockTimestamp, ensures_pure, ensures_close,
        ensures_write, Session.core_update, Db.core_addEvent, Db.core_addAttempt, Db.core_eq]
      refine ⟨fun _ => .same (by simp), fun _ => ⟨fun _ => .same (by simp), fun _ => ?_⟩⟩
      exact .finish (s := s.ask.ask.ask) hr hs hf rfl true

end Workhorse
