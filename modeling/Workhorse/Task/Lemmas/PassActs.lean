import Workhorse.Task.Lemmas.WaitActs

/-!
# Passes and operator calls
-/

namespace Workhorse

open Transaction Relation

variable {s : Session} {id : TaskId} {worker : String} {fence : Nat} {r : Runtime} {retryDelayMs : Option Int}
  {now : Time}

theorem finish_acts (hr : s.db.runtime.get? id = some r) {o : Outcome}
    (ho : o.currentAttempt = r.currentAttempt) (recorded : Bool) :
    Acts s.core ((finish onOutcomes id o s).core.note id r.currentAttempt recorded) :=
  .single (.finish hr ho recorded)

theorem terminalizeDeadline_acts : Acts s.core (terminalizeDeadline id s).2.core := by
  unfold terminalizeDeadline terminalizeDeadlineWith
  split
  · exact fastTerminalizeDeadline_acts
  · split
    · exact .refl
    · rename_i r hr
      split
      · exact .refl
      · split
        · exact .refl
        · split
          · simp only [Session.core_update, Db.core_addEvent, Db.core_addAttempt, Db.core_eq]
            exact finish_acts (s := s.ask.ask) hr rfl true
          · simp only [Session.core_update]
            split <;> simp only [Db.core_addEvent, Db.core_addAttempt, Db.core_eq]
            · exact finish_acts (s := s.ask.ask) hr rfl true
            · exact finish_acts (s := s.ask.ask) hr rfl false

theorem scan_core {limit : Nat} {rows : List (TaskId × Time)} :
    Ensures (scan limit rows) s fun _ s' => s'.core = s.core := by
  simp only [scan, ensures_bind, ensures_pure]
  exact lockRows_core

theorem promoteRow_acts : Ensures (promoteRow id) s fun _ s' => Acts s.core s'.core := by
  simp only [promoteRow, ensures_bind, ensures_database]
  split
  · exact ensures_pure.mpr .refl
  · rename_i r hr
    simp only [ensures_ite, ensures_bind, ensures_clockTimestamp, ensures_nextReadySequence,
      ensures_write, ensures_pure, Session.core_update]
    refine ⟨fun hs => ?_, fun _ => .refl⟩
    split <;> exact .revise hr (.ready hs _ _ _ _)

theorem promote_acts {limit : Int} : Ensures (promote limit) s fun _ s' => Acts s.core s'.core := by
  simp only [promote, ensures_bind, ensures_clockTimestamp, ensures_database, ensures_pure]
  refine scan_core.mono fun due t ht => ?_
  rw [← Session.core_ask s, ← ht]
  exact .forM (fun t' : Session => Acts t.core t'.core)
    (fun id _ t' h => promoteRow_acts.mono fun _ _ h' => h.trans h') .refl

theorem runTaskNow_acts {requestedBy reason requestId : String} :
    Ensures (runTaskNow id requestedBy reason requestId) s fun _ s' => Acts s.core s'.core := by
  simp only [runTaskNow, ensures_bind, ensures_clockTimestamp, ensures_ensure, ensures_database]
  refine fun _ _ _ => ?_
  split
  · rename_i r hr
    simp only [ensures_ite, ensures_bind, ensures_nextReadySequence, ensures_write, ensures_pure]
    refine ⟨fun _ => .refl, fun h₁ => ⟨fun _ => .refl, fun hw => ⟨fun _ => .refl, fun h₂ => ?_⟩⟩⟩
    have hs : r.state = .scheduled := by
      cases h : r.state <;> simp_all
    have hwait : r.waitName = none := by simp_all
    have h := Runtime.Revises.ready hs (s.host.clock s.asked) (s.host.clock s.asked)
      (s.db.readySeq + 1) r.deadlineAt
    rw [← hwait] at h
    exact .revise hr h
  · split
    · rename_i r hr
      simp only [ensures_ite, ensures_bind, ensures_nextReadySequence, ensures_write, ensures_pure]
      refine ⟨fun _ => .refl, fun h => ?_⟩
      have hs : r.state = .ready := by
        cases h : r.state <;> simp_all
      exact .fastRevise hr (.rescheduled hs _ _)
    · exact ensures_pure.mpr .refl

/-! ## Recovery -/

theorem fastRecoverRow_acts (hc : s.core.Sound) :
    Ensures (fastRecoverRow retryDelayMs now id) s fun _ s' => Acts s.core s'.core := by
  simp only [fastRecoverRow, ensures_bind, ensures_database]
  split
  · exact ensures_pure.mpr .refl
  · rename_i r hr
    simp only [ensures_ite, ensures_perform, ensures_pure]
    refine ⟨fun _ => fastTerminalizeDeadline_acts, fun _ => ⟨fun _ =>
      (fastTimeoutOwned_calls rfl).mono fun _ _ h => h.acts, fun _ => ⟨fun he => ?_, fun _ => .refl⟩⟩⟩
    have hs : r.state = .active := by
      have hv := hc.fastValid id r hr
      cases hs : r.state with
      | active => rfl
      | ready =>
        simp only [FastRuntime.shapeCheck, hs, Bool.and_eq_true, Option.isNone_iff_eq_none] at hv
        simp [hv.1.1.1.1.2] at he
    split
    · simp only [ensures_bind, ensures_fastClose, ensures_pure, core_fastFinish]
      exact .fastClose hr _ _ _
    · rename_i hcancel
      simp only [ensures_ite, ensures_bind, ensures_perform, ensures_fastClose, ensures_pure, core_fastFinish]
      refine ⟨fun _ => ?_, fun _ => .fastClose hr _ _ _⟩
      exact fastRetry_acts (by simp only [core_retryDelay]) hr hs hcancel

theorem countM_acts {α : Type} {f : α → Tx Bool} {xs : List α} (hc : s.core.Sound)
    (hf : ∀ x (t : Session), t.core.Sound → Ensures (f x) t fun _ t' => Acts t.core t'.core) :
    Ensures (countM f xs) s fun _ s' => Acts s.core s'.core := by
  refine .foldlM (fun _ (t : Session) => Acts s.core t.core) (fun n x _ t ht => ?_) .refl
  simp only [ensures_bind, ensures_ite, ensures_pure]
  refine (hf x t (hc.moves ht.moves)).mono fun _ t' h => ?_
  exact ⟨fun _ => ht.trans h, fun _ => ht.trans h⟩

theorem fastRecoverExpired_acts {limit : Nat}
    (hc : s.core.Sound) : Ensures (fastRecoverExpired limit retryDelayMs now) s fun _ s' =>
      Acts s.core s'.core := by
  simp only [fastRecoverExpired, ensures_bind, ensures_database]
  refine countM_acts hc fun id t ht => ?_
  simp only [ensures_bind, ensures_tryLock, ensures_ite, ensures_pure]
  exact ⟨fun _ => fastRecoverRow_acts (s := t.ask) ht, fun _ => .refl⟩

theorem recoverDeadline_acts : Ensures (recoverDeadline now id) s fun _ s' => Acts s.core s'.core := by
  simp only [recoverDeadline, stillDue, ensures_bind, ensures_database, ensures_pure]
  split
  · exact ensures_pure.mpr .refl
  · exact ensures_perform.mpr terminalizeDeadline_acts

theorem recoverTimeout_acts : Ensures (recoverTimeout now id) s fun _ s' => Acts s.core s'.core := by
  simp only [recoverTimeout, stillDue, ensures_bind, ensures_database, ensures_pure]
  split
  · exact ensures_pure.mpr .refl
  · simp only [ensures_ite, ensures_perform, ensures_bind, ensures_strictTask]
    exact ⟨fun _ => terminalizeDeadline_acts, fun _ _ _ =>
      (timeoutOwned_calls rfl).mono fun _ _ h => h.acts⟩

theorem recoverLease_acts : Ensures (recoverLease retryDelayMs now id) s fun _ s' => Acts s.core s'.core := by
  simp only [recoverLease, stillDue, ensures_bind, ensures_database, ensures_pure]
  split
  · exact ensures_pure.mpr .refl
  · rename_i r h
    obtain ⟨hr, hdue⟩ := Option.filter_eq_some_iff.mp h
    have hs : r.state = .active := by
      simp only [leaseDue, Bool.and_eq_true, beq_iff_eq] at hdue
      exact hdue.1.1.1
    rw [ensures_bind, ensures_strictTask]
    intro task htask
    split
    · simp only [ensures_ite, ensures_bind, ensures_clockTimestamp, ensures_pure, ensures_close,
        ensures_write, Session.core_update, Db.core_addEvent, Db.core_addAttempt, Db.core_eq]
      exact ⟨fun _ => .refl, fun _ => finish_acts (s := s.ask.ask) hr rfl true⟩
    · rename_i hcancel
      simp only [ensures_ite, ensures_bind, ensures_clockTimestamp, ensures_pure, ensures_perform,
        ensures_close, ensures_write, Session.core_update, Db.core_addEvent, Db.core_addAttempt,
        Db.core_eq, Session.core_ask, core_retryDelay]
      refine ⟨fun hmax => ⟨fun _ => .refl, fun _ => ?_⟩, fun _ => ⟨fun _ => .refl, fun _ => ?_⟩⟩
      · exact retryAt_acts (by simp only [Session.core_ask, core_retryDelay]) hr hs hcancel
          (attempt_lt htask hmax)
      · exact finish_acts (s := s.ask.ask) hr rfl true

theorem recoverExpired_acts {limit : Int} {skipExpiredLeases : Bool}
    (hc : s.core.Sound) : Ensures (recoverExpired limit retryDelayMs skipExpiredLeases) s fun _ s' =>
      Acts s.core s'.core := by
  simp only [recoverExpired, ensures_bind, ensures_clockTimestamp, ensures_database]
  refine (fastRecoverExpired_acts (s := s.ask) hc).mono fun fast t₁ h₁ => ?_
  refine scan_core.mono fun deadlines t₂ h₂ => ?_
  rw [← h₂] at h₁
  refine (countM_acts (hc.moves h₁.moves) fun _ _ _ => recoverDeadline_acts).mono fun n t₃ h₃ => ?_
  have h₃ : Acts s.core t₃.core := h₁.trans h₃
  simp only [ensures_ite, ensures_bind, ensures_database, ensures_pure]
  have hrest {timeouts : List TaskId} {t : Session} (ht : Acts s.core t.core) {count : Nat} :
      Ensures (countM (recoverTimeout s.now) timeouts) t fun a s₁ =>
        ((decide (clampLimit limit ≤ count + a) || skipExpiredLeases) = true → Acts s.core s₁.core) ∧
        (¬(decide (clampLimit limit ≤ count + a) || skipExpiredLeases) = true →
          Ensures (scan (clampLimit limit - (count + a)) (dueRows s₁.db (leaseDue s.now) (·.expiresAt)))
            s₁ fun leases s₂ => Ensures (countM (recoverLease retryDelayMs s.now) leases) s₂
              fun _ s' => Acts s.core s'.core) := by
    refine (countM_acts (hc.moves ht.moves) fun _ _ _ => recoverTimeout_acts).mono fun a t₄ h₄ => ?_
    refine ⟨fun _ => ht.trans h₄, fun _ => scan_core.mono fun leases t₅ h₅ => ?_⟩
    have h₄ : Acts s.core t₄.core := ht.trans h₄
    rw [← h₅] at h₄
    exact (countM_acts (hc.moves h₄.moves) fun _ _ _ => recoverLease_acts).mono fun _ _ h => h₄.trans h
  refine ⟨fun _ => scan_core.mono fun timeouts t₄ h₄ => ?_, fun _ => hrest h₃⟩
  rw [← h₄] at h₃
  exact hrest h₃

/-! ## Cancellation -/

theorem fastCancel_acts {r : FastRuntime} {requestedBy reason : Option String}
    (hr : s.db.fastRuntime.get? id = some r) :
    Ensures (fastCancel id r requestedBy reason) s fun _ s' => Acts s.core s'.core := by
  simp only [fastCancel, ensures_bind, ensures_clockTimestamp]
  split
  · rename_i hs
    split
    · exact ensures_pure.mpr .refl
    · simp only [ensures_bind, ensures_write, ensures_pure]
      exact .fastRevise hr (.cancelRequested hs _ _ _)
  · simp only [ensures_bind, ensures_fastClose, ensures_database, ensures_pure, core_fastFinish]
    exact .fastClose hr _ _ _

theorem suspension_attempt {db : Db} {n : Nat} {p : Provenance} (h : db.suspension id n = some p) : p.attempt = n := by
  obtain ⟨e, he, rfl⟩ := Option.map_eq_some_iff.mp h
  have he := (List.perm_insertionSort _ _).mem_iff.mp (List.mem_of_head? he)
  simp only [List.mem_append, List.mem_map, Prod.exists, Table.mem_select, Bool.and_eq_true, decide_eq_true_eq] at he
  rcases he with (⟨_, _, _, ⟨-, -, hn⟩, rfl⟩ | ⟨_, _, _, ⟨-, -, hn⟩, rfl⟩) |
    ⟨_, _, _, ⟨-, -, hn⟩, rfl⟩
  · exact hn
  · exact hn
  · exact hn

theorem cancel_acts {requestedBy reason : Option String} :
    Ensures (cancel id requestedBy reason) s fun _ s' => Acts s.core s'.core := by
  simp only [cancel, ensures_bind, ensures_clockTimestamp, ensures_ensure, ensures_database]
  refine fun _ _ => ?_
  split
  · rename_i r hr
    exact fastCancel_acts (s := s.ask) hr
  · rename_i r _ hr
    rw [ensures_ite]
    refine ⟨fun hs => ?_, fun _ => ?_⟩
    · split
      · exact ensures_pure.mpr .refl
      · simp only [ensures_bind, ensures_write, ensures_pure]
        exact .revise hr (.cancelRequested hs _ _ _)
    · simp only [ensures_bind, ensures_perform, ensures_write, ensures_pure, Session.core_update]
      split <;> simp only [Db.core_addEvent, Db.core_addAttempt, Db.core_eq]
      · rename_i p howner
        have hp : p.attempt = r.currentAttempt := by
          split at howner
          · exact suspension_attempt howner
          · cases howner
        rw [hp]
        exact finish_acts (s := s.ask) hr rfl true
      · exact finish_acts (s := s.ask) hr rfl false
  · split <;> exact ensures_pure.mpr .refl

end Workhorse
