import Workhorse.Task.Lemmas.OwnedActs

/-!
# Heartbeats and durable boundaries
-/

namespace Workhorse

open Transaction Relation

variable {s : Session} {c : Core} {id : TaskId} {worker name : String} {fence : Nat} {r : Runtime}
  {beats : List Beat} {now : Time}

theorem heartbeat_acts {leaseMs : Nat} :
    Ensures (heartbeat id worker fence leaseMs) s fun _ s' => Acts s.core s'.core := by
  simp only [heartbeat, ensureWorker, ensureLease, ensures_bind, ensures_ensure, ensures_database,
    ensures_ite, ensures_clockTimestamp, ensures_owned, ensures_pure]
  refine fun _ _ => ⟨fun _ => fastHeartbeatMany_acts, fun _ => ?_⟩
  split
  · exact ensures_pure.mpr .refl
  · rename_i r h
    obtain ⟨hr, hs, -, -⟩ := owned_some h
    simp only [ensures_bind, ensures_write, ensures_pure, Session.core_update]
    exact .revise hr (.renewed hs _ _)

theorem heartbeatFull_acts : Ensures (heartbeatFull worker beats) s fun _ s' => Acts s.core s'.core := by
  simp only [heartbeatFull, ensures_bind, ensures_clockTimestamp, ensures_pure]
  refine .foldlM (fun _ (t : Session) => Acts s.core t.core) (fun acc b _ t ht => ?_) .refl
  rw [ensures_bind, ensures_owned]
  split
  · exact ensures_pure.mpr ht
  · rename_i r h
    obtain ⟨hr, hs, -, -⟩ := owned_some h
    simp only [ensures_ite, ensures_bind, ensures_pure, ensures_write, Session.core_update]
    exact ⟨fun _ => ht, fun _ => ht.quiet (.revise hr (.renewed hs _ _))⟩

theorem heartbeatMany_acts : Ensures (heartbeatMany worker beats) s fun _ s' => Acts s.core s'.core := by
  simp only [heartbeatMany, ensureBeats, ensureWorker, ensures_bind, ensures_ensure, ensures_database,
    ensures_ite, ensures_pure]
  refine fun _ _ _ => ⟨fun _ => fastHeartbeatMany_acts, fun _ => ⟨fun _ => ?_, fun _ => heartbeatFull_acts⟩⟩
  refine .foldlM (fun _ (t : Session) => Acts s.core t.core) (fun acc e _ t ht => ?_) .refl
  simp only [ensures_bind, ensures_pure]
  exact heartbeat_acts.mono fun _ t' h => ht.trans h

theorem lockRows_core {ids : List TaskId} : Ensures (lockRows ids) s fun _ s' => s'.core = s.core := by
  refine .foldlM (fun _ (t : Session) => t.core = s.core) (fun acc b _ t ht => ?_) rfl
  simp only [ensures_bind, ensures_tryLock, ensures_ite, ensures_pure]
  exact ⟨fun _ => ht, fun _ => ht⟩

theorem mem_of_longestLease {leaseMs : Nat} (h : longestLease beats id fence = some leaseMs) :
    ∃ b ∈ beats, b.taskId = id ∧ b.fenceToken = fence := by
  obtain ⟨b, hb, -⟩ := List.mem_map.mp (List.max?_mem h)
  obtain ⟨hb, hid⟩ := List.mem_filter.mp hb
  simp only [Bool.and_eq_true, decide_eq_true_eq] at hid
  exact ⟨b, hb, hid⟩

theorem renewLocked_cases (worker : String) (beats : List Beat) (now : Time) (id : TaskId) (db : Db) :
    renewLocked worker beats now id db = db ∨ ∃ r leaseMs, db.runtime.get? id = some r ∧
      (∃ b ∈ beats, b.taskId = id ∧ b.fenceToken = r.fenceToken) ∧ r.ownedBy worker r.fenceToken = true ∧
      renewLocked worker beats now id db = db.setRuntime id (r.renewed now leaseMs) := by
  unfold renewLocked
  split
  · exact .inl rfl
  · rename_i r hr
    split
    · exact .inl rfl
    · rename_i leaseMs hl
      split
      · rename_i ho
        exact .inr ⟨r, leaseMs, hr, mem_of_longestLease hl, ho, rfl⟩
      · exact .inl rfl

theorem fastRenewLocked_cases (worker : String) (beats : List Beat) (now : Time) (id : TaskId)
    (db : Db) :
    fastRenewLocked worker beats now id db = db ∨ ∃ r leaseMs, db.fastRuntime.get? id = some r ∧
      (∃ b ∈ beats, b.taskId = id ∧ b.fenceToken = r.fenceToken) ∧ r.ownedBy worker r.fenceToken = true ∧
      fastRenewLocked worker beats now id db = db.setFast id (r.renewed now leaseMs) := by
  unfold fastRenewLocked
  split
  · exact .inl rfl
  · rename_i r hr
    split
    · exact .inl rfl
    · rename_i leaseMs hl
      split
      · rename_i ho
        exact .inr ⟨r, leaseMs, hr, mem_of_longestLease hl, ho, rfl⟩
      · exact .inl rfl

theorem renewLocked_acts {db : Db} {host : Host} :
    Acts (db.core host) ((renewLocked worker beats now id db).core host) := by
  rcases renewLocked_cases worker beats now id db with h | ⟨r, leaseMs, hr, -, ho, h⟩
  · rw [h]
  · rw [h]
    exact .revise hr (.renewed (Runtime.ownedBy_iff.mp ho).1 _ _)

theorem fastRenewLocked_acts {db : Db} {host : Host} :
    Acts (db.core host) ((fastRenewLocked worker beats now id db).core host) := by
  rcases fastRenewLocked_cases worker beats now id db with h | ⟨r, leaseMs, hr, -, ho, h⟩
  · rw [h]
  · rw [h]
    exact .fastRevise hr (.renewed (FastRuntime.ownedBy_iff.mp ho).1 _ _)

theorem foldl_acts {α : Type} {f : Db → α → Db} {xs : List α} {db : Db} {host : Host}
    (hf : ∀ db x, Acts (db.core host) ((f db x).core host)) :
    Acts (db.core host) ((xs.foldl f db).core host) := by
  induction xs generalizing db with
  | nil => exact .refl
  | cons x xs ih => exact (hf db x).trans ih

theorem heartbeatManyV2_acts : Ensures (heartbeatManyV2 worker beats) s fun _ s' => Acts s.core s'.core := by
  simp only [heartbeatManyV2, ensureBeats, ensureWorker, ensures_bind, ensures_ensure, ensures_database, ensures_pure]
  refine fun _ _ _ => lockRows_core.mono fun _ s₁ h₁ => lockRows_core.mono fun _ s₂ h₂ => ?_
  simp only [ensures_clockTimestamp, ensures_write]
  rw [← h₁, ← h₂]
  refine .trans ?_ (foldl_acts fun db id => renewLocked_acts)
  exact foldl_acts fun db id => fastRenewLocked_acts

theorem heartbeatV2_acts {leaseMs : Nat} :
    Ensures (heartbeatV2 id worker fence leaseMs) s fun _ s' => Acts s.core s'.core := by
  simp only [heartbeatV2, ensureWorker, ensureLease, ensures_bind, ensures_ensure, ensures_pure]
  exact fun _ _ => heartbeatManyV2_acts

/-! ## Boundaries -/

theorem saveCheckpoint_acts {value : Jsonb} {inputFingerprint : Option String} :
    Ensures (saveCheckpoint id worker fence name value inputFingerprint) s fun _ s' =>
      Acts s.core s'.core := by
  simp only [saveCheckpoint, ensureName, ensures_bind, ensures_ensure, ensures_owned]
  refine fun _ _ _ => ?_
  split
  · exact ensures_pure.mpr .refl
  · simp only [ensures_bind, ensures_clockTimestamp, ensures_ite, ensures_pure, ensures_database]
    refine ⟨fun _ => .refl, fun _ => ?_⟩
    split
    · exact ensures_pure.mpr .refl
    · rename_i hfree
      simp only [ensures_bind, ensures_write, ensures_pure]
      exact .bind (fun _ => .checkpoints fun _ _ => Table.get?_put_of_free hfree) .refl

theorem updateProgress_core {value : Jsonb} :
    Ensures (updateProgress id worker fence value) s fun _ s' => s'.core = s.core := by
  simp only [updateProgress, ensures_bind, ensures_ensure, ensures_owned]
  refine fun _ => ?_
  split
  · exact ensures_pure.mpr rfl
  · simp only [ensures_bind, ensures_clockTimestamp, ensures_ite, ensures_pure, ensures_database, ensures_write]
    exact ⟨fun _ => rfl, fun _ => ⟨fun _ => rfl, fun _ => ⟨fun _ => rfl, fun _ =>
      ⟨fun _ => rfl, fun _ => rfl⟩⟩⟩⟩

theorem mayRecord_timeout (h : r.mayRecord now = true) : ∀ t, r.attemptTimeoutAt = some t → now < t := by
  intro t ht
  simp only [Runtime.mayRecord, Bool.not_eq_true', Bool.or_eq_false_iff, ht, Option.any_some,
    decide_eq_false_iff_not, not_le] at h
  exact h.1.2

theorem mayRecord_cancel (h : r.mayRecord now = true) : r.cancelRequestedAt = none := by
  simp only [Runtime.mayRecord, Bool.not_eq_true', Bool.or_eq_false_iff] at h
  simpa using h.2

theorem boundary_some (h : ((s.db.runtime.get? id).filter (·.ownedBy worker fence)).filter (·.mayRecord now) = some r) :
    s.db.runtime.get? id = some r ∧ r.state = .active ∧ r.fenceToken = fence ∧
      r.cancelRequestedAt = none ∧ ∀ t, r.attemptTimeoutAt = some t → now < t := by
  obtain ⟨h, hm⟩ := Option.filter_eq_some_iff.mp h
  obtain ⟨hr, hs, -, hf⟩ := owned_some h
  exact ⟨hr, hs, hf, mayRecord_cancel hm, mayRecord_timeout hm⟩

theorem suspended_calls {b : Boundaries} (hb : ∀ k, c.boundaries.Grows k b)
    (hr : c.runtime.get? id = some r) (hs : r.state = .active) (hf : r.fenceToken = fence)
    (hc : r.cancelRequestedAt = none) (hnow : ∀ t, r.attemptTimeoutAt = some t → now < t)
    {runAt : Time} {deadlineAt : Option Time} {accepted : Prop} : Calls c id fence accepted
      (Core.setRuntime { c with boundaries := b } id (r.suspended name runAt now deadlineAt)) :=
  .bind hb (Calls.setRuntime (c := { c with boundaries := b }) hr hs hf
    (.suspended hs hc _ _ hnow _) (by simp [Runtime.suspended]))

theorem scheduleWait_calls {durationMs : Option Nat} {wakeAt : Option Time} :
    Ensures (scheduleWait id worker fence name durationMs wakeAt) s fun reply s' =>
      Calls s.core id fence (reply.1 = .scheduled) s'.core := by
  simp only [scheduleWait, ensureName, ensures_bind, ensures_ensure, ensures_owned, ensures_clockTimestamp]
  refine fun _ _ _ => ?_
  split
  · exact ensures_pure.mpr (.same (by simp))
  · rename_i r h
    obtain ⟨hr, hs, hf, hc, hnow⟩ := boundary_some (s := s) h
    rw [ensures_bind, ensures_database]
    split
    · simp only [ensures_ite, ensures_bind, ensures_pure, ensures_write]
      exact ⟨fun _ => .same (by simp), fun _ => .same (by simp)⟩
    · rename_i hfree
      simp only [ensures_ite, ensures_bind, ensures_ensure, ensures_pure, ensures_write,
        ensures_clockTimestamp, ensures_unexpired]
      refine fun _ => ⟨fun _ => .same (by simp), fun _ => ⟨fun _ => ?_, fun _ => ⟨fun _ => ?_, fun _ => ?_⟩⟩⟩
      · exact .bind (fun _ => .waits fun _ _ => Table.get?_put_of_free hfree) (.same (by simp))
      · exact suspended_calls (fun _ => .waits fun _ _ => Table.get?_put_of_free hfree) hr hs hf hc hnow
      · exact .bind (fun _ => .waits fun _ _ => Table.get?_erase_put_of_free hfree) (.same (by simp))

theorem waitForSignal_calls {timeoutMs : Option Nat} :
    Ensures (waitForSignal id worker fence name timeoutMs) s fun reply s' =>
      Calls s.core id fence (reply.1 = .waiting) s'.core := by
  simp only [waitForSignal, ensureName, ensureTrimmed, ensureWorker, ensures_bind, ensures_ensure, ensures_database]
  refine fun _ _ _ _ => ?_
  split
  · simp only [ensures_ite, ensures_pure]
    exact ⟨fun _ => .same (by simp), fun _ => .same (by simp)⟩
  · rw [ensures_bind, ensures_owned, ensures_bind, ensures_clockTimestamp]
    split
    · exact ensures_pure.mpr (.same (by simp))
    · rename_i r h
      obtain ⟨hr, hs, hf, hc, hnow⟩ := boundary_some (s := s) h
      split
      · simp only [ensures_bind, ensures_write, ensures_pure]
        exact .same (by simp)
      · rename_i hfree
        simp only [ensures_ite, ensures_bind, ensures_pure, ensures_write, ensures_database,
          ensures_clockTimestamp, ensures_unexpired]
        refine ⟨fun _ => .same (by simp), fun _ => ⟨fun _ => ?_, fun _ => ?_⟩⟩
        · exact suspended_calls (fun _ => .signalWaits fun _ _ => Table.get?_put_of_free hfree) hr hs hf hc hnow
        · exact .bind (fun _ => .signalWaits fun _ _ => Table.get?_erase_put_of_free hfree)
            (.same (by simp))

theorem waitForHuman_calls {context : Jsonb} {timeoutMs : Option Nat} :
    Ensures (waitForHuman id worker fence name context timeoutMs) s fun reply s' =>
      Calls s.core id fence (reply.1 = .waiting) s'.core := by
  simp only [waitForHuman, ensureName, ensureTrimmed, ensureWorker, ensures_bind, ensures_ensure, ensures_database]
  refine fun _ _ _ _ _ => ?_
  split
  · simp only [ensures_ite, ensures_pure]
    exact ⟨fun _ => .same (by simp), fun _ => ⟨fun _ => .same (by simp), fun _ => .same (by simp)⟩⟩
  · rw [ensures_bind, ensures_owned, ensures_bind, ensures_clockTimestamp]
    split
    · exact ensures_pure.mpr (.same (by simp))
    · rename_i r h
      obtain ⟨hr, hs, hf, hc, hnow⟩ := boundary_some (s := s) h
      split
      · simp only [ensures_ite, ensures_bind, ensures_write, ensures_pure]
        exact ⟨fun _ => .same (by simp), fun _ => .same (by simp)⟩
      · rename_i hfree
        simp only [ensures_ite, ensures_bind, ensures_pure, ensures_write, ensures_database,
          ensures_clockTimestamp, ensures_unexpired]
        refine ⟨fun _ => .same (by simp), fun _ => ⟨fun _ => ?_, fun _ => ?_⟩⟩
        · exact suspended_calls (fun _ => .humanWaits fun _ _ => Table.get?_put_of_free hfree) hr hs hf hc hnow
        · exact .bind (fun _ => .humanWaits fun _ _ => Table.get?_erase_put_of_free hfree)
            (.same (by simp))

/-! ## Deliveries -/

theorem woken_acts {b : Boundaries} (hb : ∀ k, c.boundaries.Grows k b) (hr : c.runtime.get? id = some r)
    (hs : r.state = .scheduled) {sequence : Nat} {deadlineAt : Option Time} :
    Acts c (Core.setRuntime { c with boundaries := b } id (r.woken now sequence deadlineAt)) :=
  .bind hb (Acts.revise (c := { c with boundaries := b }) hr (.ready hs _ _ _ _))

theorem waitingRow_some {attempt : Nat} {p : Runtime → Bool}
    (h : ((s.db.runtime.get? id).filter fun r => r.state == .scheduled && r.waitName == some name &&
      r.currentAttempt == attempt).filter p = some r) : s.db.runtime.get? id = some r ∧ r.state = .scheduled := by
  obtain ⟨h, -⟩ := Option.filter_eq_some_iff.mp h
  obtain ⟨hr, h⟩ := Option.filter_eq_some_iff.mp h
  simp only [Bool.and_eq_true, beq_iff_eq] at h
  exact ⟨hr, h.1.1⟩

theorem sendSignal_acts {payload : Jsonb} {key requestedBy : String} :
    Ensures (sendSignal id name payload key requestedBy) s fun _ s' => Acts s.core s'.core := by
  simp only [sendSignal, ensureName, ensureTrimmed, ensureDelivery, ensures_bind, ensures_ensure,
    ensures_database, ensures_ite, ensures_pure]
  refine fun _ _ _ _ _ => ⟨fun _ => .refl, fun _ => ?_⟩
  split
  · simp only [ensures_bind, ensures_write, ensures_pure]
    exact .refl
  · rename_i wait hwait
    split
    · simp only [ensures_ite, ensures_bind, ensures_write, ensures_pure]
      exact ⟨fun _ => .refl, fun _ => .refl⟩
    · rename_i hnone
      simp only [waitingRow, ensures_bind, ensures_database, ensures_pure, ensures_clockTimestamp]
      split
      · simp only [ensures_bind, ensures_write, ensures_pure]
        exact .refl
      · rename_i r h
        obtain ⟨hr, hs⟩ := waitingRow_some (s := s) h
        simp only [wake, ensures_bind, ensures_write, ensures_pure, ensures_nextReadySequence]
        exact woken_acts (fun _ => .deliverSignal hwait hnone _) hr hs

theorem completeHumanWait_acts {result : Jsonb} {key completedBy : String} :
    Ensures (completeHumanWait id name result key completedBy) s fun _ s' => Acts s.core s'.core := by
  simp only [completeHumanWait, ensureName, ensureTrimmed, ensureDelivery, ensures_bind,
    ensures_ensure, ensures_database, ensures_ite, ensures_pure]
  refine fun _ _ _ _ _ => ⟨fun _ => .refl, fun _ => ?_⟩
  split
  · simp only [ensures_bind, ensures_write, ensures_pure]
    exact .refl
  · rename_i wait hwait
    split
    · simp only [ensures_ite, ensures_bind, ensures_write, ensures_pure]
      exact ⟨fun _ => .refl, fun _ => .refl⟩
    · rename_i hnone
      simp only [waitingRow, ensures_bind, ensures_database, ensures_pure, ensures_clockTimestamp]
      split
      · simp only [ensures_bind, ensures_write, ensures_pure]
        exact .refl
      · rename_i r h
        obtain ⟨hr, hs⟩ := waitingRow_some (s := s) h
        simp only [wake, ensures_bind, ensures_write, ensures_pure, ensures_nextReadySequence]
        exact woken_acts (fun _ => .deliverHuman hwait hnone _) hr hs

end Workhorse
