import Workhorse.Task.Lemmas.WaitActs

/-!
# Stale generations

A call that names a generation which is not active, or whose lease has expired at the first clock
reading of the call, changes no row.
-/

namespace Workhorse

open Transaction

variable {s : Session} {id : TaskId} {worker name : String} {fence leaseMs : Nat} {r : FastRuntime} {now : Time}

/-- The generation of a task that a worker names is active, and its lease is live at the next clock
reading. -/
def Session.Current (s : Session) (id : TaskId) (worker : String) (fence : Nat) : Prop :=
  (∃ r, s.db.runtime.get? id = some r ∧ r.ownedBy worker fence = true ∧ r.expiresAt.any (s.now < ·) = true) ∨
  ∃ r, s.db.fastRuntime.get? id = some r ∧ r.ownedBy worker fence = true ∧ r.expiresAt.any (s.now < ·) = true

theorem expired_of_stale {r : Runtime} (hc : s.core.Sound) (hstale : ¬s.Current id worker fence)
    (hr : s.db.runtime.get? id = some r) (ho : r.ownedBy worker fence = true) :
    ∃ t, r.expiresAt = some t ∧ t ≤ s.now := by
  obtain ⟨t, ht⟩ := (hc.valid id r hr).expires (Runtime.ownedBy_iff.mp ho).1
  refine ⟨t, ht, ?_⟩
  by_contra hlt
  exact hstale (.inl ⟨r, hr, ho, by simpa [ht] using hlt⟩)

theorem fastExpired_of_stale (hc : s.core.Sound)
    (hstale : ¬s.Current id worker fence) (hr : s.db.fastRuntime.get? id = some r)
    (ho : r.ownedBy worker fence = true) : ∃ t, r.expiresAt = some t ∧ t ≤ s.now := by
  obtain ⟨t, ht⟩ := FastRuntime.expires_of_shapeCheck (hc.fastValid id r hr)
    (FastRuntime.ownedBy_iff.mp ho).1
  refine ⟨t, ht, ?_⟩
  by_contra hlt
  exact hstale (.inr ⟨r, hr, ho, by simpa [ht] using hlt⟩)

theorem owned_expired {r : Runtime} (hc : s.core.Sound) (hstale : ¬s.Current id worker fence)
    (h : (s.db.runtime.get? id).filter (·.ownedBy worker fence) = some r) :
    ∃ t, r.expiresAt = some t ∧ t ≤ s.now := by
  obtain ⟨hr, ho⟩ := Option.filter_eq_some_iff.mp h
  exact expired_of_stale hc hstale hr ho

theorem fastOwned_expired (hc : s.core.Sound) (hstale : ¬s.Current id worker fence)
    (h : (s.db.fastRuntime.get? id).filter (·.ownedBy worker fence) = some r) :
    ∃ t, r.expiresAt = some t ∧ t ≤ s.now := by
  obtain ⟨hr, ho⟩ := Option.filter_eq_some_iff.mp h
  exact fastExpired_of_stale hc hstale hr ho

section Stale

variable (hc : s.core.Sound) (hstale : ¬s.Current id worker fence)
include hc hstale

theorem fastFail_stale {error : Option Envelope} {retryDelayMs : Option Int} :
    Ensures (fastFail id worker fence error retryDelayMs) s fun _ s' => s' = s ∨ s' = s.ask := by
  simp only [fastFail, fastOwned, ensures_bind, ensures_database, ensures_pure]
  split
  · exact ensures_pure.mpr (.inl rfl)
  · rename_i r h
    obtain ⟨t, ht, hle⟩ := fastOwned_expired hc hstale h
    simp only [ensures_bind, ensures_clockTimestamp]
    rw [if_pos (by simpa [ht] using hle)]
    exact ensures_pure.mpr (.inr rfl)

theorem fastReleaseOwned_stale : Ensures (fastReleaseOwned id worker fence) s fun _ s' => s'.db = s.db := by
  simp only [fastReleaseOwned, fastOwned, ensures_bind, ensures_database, ensures_pure]
  split
  · exact ensures_pure.mpr rfl
  · rename_i r h
    obtain ⟨t, ht, hle⟩ := fastOwned_expired hc hstale h
    simp only [ensures_bind, ensures_clockTimestamp]
    rw [if_pos (by simpa [ht] using hle)]
    exact ensures_pure.mpr rfl

theorem fastAcknowledgeCancel_stale : Ensures (fastAcknowledgeCancel id worker fence) s fun _ s' => s'.db = s.db := by
  simp only [fastAcknowledgeCancel, fastOwned, ensures_bind, ensures_database, ensures_pure]
  split
  · exact ensures_pure.mpr rfl
  · rename_i r h
    obtain ⟨t, ht, hle⟩ := fastOwned_expired hc hstale h
    simp only [ensures_bind, ensures_clockTimestamp]
    split
    · exact ensures_pure.mpr rfl
    · rw [if_pos (by simpa [ht] using hle)]
      exact ensures_pure.mpr rfl

theorem fastCompleteEntry_stale {e : Completion} (hid : e.taskId = id) (hf : e.fenceToken = fence)
    {acc : List TaskId} : Ensures (fastCompleteEntry worker s.now acc e) s.ask fun _ s' =>
      s' = s.ask := by
  simp only [fastCompleteEntry, ensures_bind, ensures_database]
  split
  · exact ensures_pure.mpr rfl
  · rename_i r hr
    subst hid hf
    rw [if_neg]
    · exact ensures_pure.mpr rfl
    rintro ⟨hfence, hw, hl⟩
    -- A row with a worker is active, so the entry names its generation.
    have hs : r.state = .active := by
      have := hc.fastValid _ r hr
      cases hs : r.state with
      | active => rfl
      | ready => simp [FastRuntime.shapeCheck, hs, hw] at this
    obtain ⟨t, ht, hle⟩ := fastExpired_of_stale hc hstale hr (FastRuntime.ownedBy_iff.mpr ⟨hs, hw, hfence⟩)
    simp only [Lease.renewable, FastRuntime.lease, ht, Option.any_some, Bool.and_eq_true, decide_eq_true_eq] at hl
    exact absurd hl.2 (not_lt.mpr hle)

theorem fastComplete_stale {result : Option Jsonb} :
    Ensures (fastComplete id worker fence result) s fun _ s' => s'.db = s.db := by
  simp only [fastComplete, fastCompleteMany, ensures_bind, ensures_database, ensures_ensure, ensures_pure]
  intro ho
  have ho : (⟨id, fence, result⟩ : Completion).oversized s.db = false := by simpa using ho
  simp only [List.filter_cons, ho, Bool.false_eq_true, if_false, List.filter_nil,
    List.insertionSort_nil, List.map_nil, List.contains_nil, Bool.not_false, if_true]
  simp only [List.forM, ensures_pure, ensures_clockTimestamp, List.foldlM_cons, List.foldlM_nil, ensures_bind]
  exact (fastCompleteEntry_stale hc hstale rfl rfl).mono fun _ _ h => h ▸ rfl

theorem complete_stale {result : Option Jsonb} :
    Ensures (complete id worker fence result) s fun _ s' => s'.db = s.db := by
  simp only [complete, ensures_bind, ensures_database, ensures_ite, ensures_owned]
  refine ⟨fun _ => fastComplete_stale hc hstale, fun _ => ?_⟩
  split
  · rename_i r task h _
    obtain ⟨t, ht, hle⟩ := owned_expired hc hstale h
    simp only [ensures_bind, ensures_unexpired]
    rw [if_pos (by simp [ht, hle])]
    exact ensures_pure.mpr rfl
  · exact ensures_pure.mpr rfl

theorem fail_stale {error : Option Envelope} {retryDelayMs : Option Int} :
    Ensures (fail id worker fence error retryDelayMs) s fun _ s' => s'.db = s.db := by
  simp only [fail, ensures_bind, ensures_database, ensures_ite, ensures_owned]
  refine ⟨fun _ => (fastFail_stale hc hstale).mono fun _ _ h => ?_, fun _ => ?_⟩
  · rcases h with rfl | rfl <;> rfl
  split
  · exact ensures_pure.mpr rfl
  · rename_i r h
    obtain ⟨t, ht, hle⟩ := owned_expired hc hstale h
    simp only [ensures_bind, ensures_clockTimestamp]
    rw [if_pos (by simpa [ht] using hle)]
    exact ensures_pure.mpr rfl

theorem releaseOwned_stale : Ensures (releaseOwned id worker fence) s fun _ s' => s'.db = s.db := by
  simp only [releaseOwned, ensures_bind, ensures_database, ensures_ite, ensures_owned]
  refine ⟨fun _ => fastReleaseOwned_stale hc hstale, fun _ => ?_⟩
  split
  · exact ensures_pure.mpr rfl
  · rename_i r h
    obtain ⟨t, ht, hle⟩ := owned_expired hc hstale h
    simp only [ensures_bind, ensures_clockTimestamp]
    rw [if_pos (by simpa [ht] using hle)]
    exact ensures_pure.mpr rfl

theorem acknowledgeCancel_stale : Ensures (acknowledgeCancel id worker fence) s fun _ s' => s'.db = s.db := by
  simp only [acknowledgeCancel, ensures_bind, ensures_database, ensures_ite, ensures_owned]
  refine ⟨fun _ => fastAcknowledgeCancel_stale hc hstale, fun _ => ?_⟩
  split
  · exact ensures_pure.mpr rfl
  · rename_i r h
    obtain ⟨t, ht, hle⟩ := owned_expired hc hstale h
    rw [ensures_bind, ensures_clockTimestamp]
    split
    · exact ensures_pure.mpr rfl
    · rw [if_pos (by simpa [ht] using hle)]
      exact ensures_pure.mpr rfl

theorem saveCheckpoint_stale {value : Jsonb} {inputFingerprint : Option String} :
    Ensures (saveCheckpoint id worker fence name value inputFingerprint) s fun _ s' =>
      s'.db = s.db := by
  simp only [saveCheckpoint, ensureName, ensures_bind, ensures_ensure, ensures_owned]
  refine fun _ _ _ => ?_
  split
  · exact ensures_pure.mpr rfl
  · rename_i r h
    obtain ⟨t, ht, hle⟩ := owned_expired hc hstale h
    simp only [ensures_bind, ensures_clockTimestamp]
    rw [if_pos (by simp [ht, hle])]
    exact ensures_pure.mpr rfl

theorem updateProgress_stale {value : Jsonb} :
    Ensures (updateProgress id worker fence value) s fun _ s' => s'.db = s.db := by
  simp only [updateProgress, ensures_bind, ensures_ensure, ensures_owned]
  refine fun _ => ?_
  split
  · exact ensures_pure.mpr rfl
  · rename_i r h
    obtain ⟨t, ht, hle⟩ := owned_expired hc hstale h
    simp only [ensures_bind, ensures_clockTimestamp]
    rw [if_pos (by simp [Runtime.mayRecord, ht, hle])]
    exact ensures_pure.mpr rfl

theorem boundary_stale :
    ((s.db.runtime.get? id).filter (·.ownedBy worker fence)).filter (·.mayRecord s.now) = none := by
  rw [Option.filter_eq_none_iff]
  intro r h
  obtain ⟨t, ht, hle⟩ := owned_expired hc hstale h
  simp [Runtime.mayRecord, ht, hle]

theorem scheduleWait_stale {durationMs : Option Nat} {wakeAt : Option Time} :
    Ensures (scheduleWait id worker fence name durationMs wakeAt) s fun _ s' => s'.db = s.db := by
  simp only [scheduleWait, ensureName, ensures_bind, ensures_ensure, ensures_owned,
    ensures_clockTimestamp, boundary_stale hc hstale]
  exact fun _ _ _ => ensures_pure.mpr rfl

theorem waitForSignal_stale {timeoutMs : Option Nat} :
    Ensures (waitForSignal id worker fence name timeoutMs) s fun _ s' => s'.db = s.db := by
  simp only [waitForSignal, ensureName, ensureTrimmed, ensureWorker, ensures_bind, ensures_ensure, ensures_database]
  refine fun _ _ _ _ => ?_
  split
  · simp only [ensures_ite, ensures_pure]
    exact ⟨fun _ => trivial, fun _ => trivial⟩
  · rw [ensures_bind, ensures_owned, ensures_bind, ensures_clockTimestamp, boundary_stale hc hstale]
    exact ensures_pure.mpr rfl

theorem waitForHuman_stale {context : Jsonb} {timeoutMs : Option Nat} :
    Ensures (waitForHuman id worker fence name context timeoutMs) s fun _ s' => s'.db = s.db := by
  simp only [waitForHuman, ensureName, ensureTrimmed, ensureWorker, ensures_bind, ensures_ensure, ensures_database]
  refine fun _ _ _ _ _ => ?_
  split
  · simp only [ensures_ite, ensures_pure]
    exact ⟨fun _ => trivial, fun _ => ⟨fun _ => trivial, fun _ => trivial⟩⟩
  · rw [ensures_bind, ensures_owned, ensures_bind, ensures_clockTimestamp, boundary_stale hc hstale]
    exact ensures_pure.mpr rfl

end Stale

/-! ## Batched completions -/

structure Later (s t : Session) : Prop where
  db : t.db = s.db
  host : t.host = s.host
  asked : s.asked ≤ t.asked

theorem Later.ask {t : Session} (h : Later s t) : Later s t.ask := ⟨h.db, h.host, h.asked.trans (Nat.le_succ _)⟩

/-- What is stale stays stale. -/
theorem Later.stale {t : Session} (hclock : s.host.Monotone) (h : Later s t)
    (hstale : ¬s.Current id worker fence) : ¬t.Current id worker fence := by
  have hle : s.now ≤ t.now := by
    unfold Session.now
    rw [h.host]
    exact hclock h.asked
  have hlt {e : Option Time} (he : e.any (t.now < ·) = true) : e.any (s.now < ·) = true := by
    cases e with
    | none => cases he
    | some e =>
      simp only [Option.any_some, decide_eq_true_eq] at he ⊢
      exact hle.trans_lt he
  rintro (⟨r, hr, ho, he⟩ | ⟨r, hr, ho, he⟩)
  · exact hstale (.inl ⟨r, h.db ▸ hr, ho, hlt he⟩)
  · exact hstale (.inr ⟨r, h.db ▸ hr, ho, hlt he⟩)

theorem Later.sound {t : Session} (hc : s.core.Sound) (h : Later s t) : t.core.Sound := by
  have : t.core = s.core := by
    unfold Session.core
    rw [h.db, h.host]
  exact this ▸ hc

theorem fastCompleteMany_stale (hc : s.core.Sound) (hclock : s.host.Monotone)
    {entries : List Completion} (hstale : ∀ e ∈ entries, ¬s.Current e.taskId worker e.fenceToken) :
    Ensures (fastCompleteMany worker entries) s fun _ s' => s'.db = s.db := by
  simp only [fastCompleteMany, ensures_bind, ensures_database]
  refine (Ensures.forM (fun t : Session => Later s t) (fun e he t ht => ?_) ⟨rfl, rfl, le_rfl⟩).mono
    fun _ t ht => ?_
  · simp only [ensures_bind, ensures_pure]
    have hmem : e ∈ entries := (List.mem_filter.mp ((List.perm_insertionSort _ _).mem_iff.mp he)).1
    refine (fastFail_stale (ht.sound hc) (ht.stale hclock (hstale e hmem))).mono fun _ t' h => ?_
    rcases h with rfl | rfl
    · exact ht
    · exact ht.ask
  · rw [ensures_clockTimestamp]
    -- Every entry is judged at the one reading that follows.
    refine (Ensures.foldlM (fun _ (u : Session) => u = t.ask) (fun acc e he u hu => ?_) rfl).mono
      fun _ u hu => hu ▸ ht.db
    subst hu
    exact fastCompleteEntry_stale (ht.sound hc)
      (ht.stale hclock (hstale e (List.mem_filter.mp he).1)) rfl rfl

/-! ## Heartbeats

A heartbeat may name many generations. It rewrites no table but the two of live rows, and no row of a
task that it names under stale generations only. -/

/-- What heartbeats leave alone, for a set of tasks that they name under stale generations only. -/
structure Renews (s : Session) (stale : TaskId → Prop) (t : Session) : Prop where
  host : t.host = s.host
  asked : s.asked ≤ t.asked
  rest : t.db = { s.db with runtime := t.db.runtime, fastRuntime := t.db.fastRuntime }
  full : ∀ id, stale id → t.db.runtime.get? id = s.db.runtime.get? id
  fast : ∀ id, stale id → t.db.fastRuntime.get? id = s.db.fastRuntime.get? id

section Heartbeats

variable {stale : TaskId → Prop} {t : Session} {beats : List Beat}

theorem Renews.refl : Renews s stale s := ⟨rfl, le_rfl, rfl, fun _ _ => rfl, fun _ _ => rfl⟩

theorem Renews.ask (h : Renews s stale t) : Renews s stale t.ask :=
  ⟨h.host, h.asked.trans (Nat.le_succ _), h.rest, h.full, h.fast⟩

theorem Renews.now_le (hclock : s.host.Monotone) (h : Renews s stale t) : s.now ≤ t.now := by
  unfold Session.now
  rw [h.host]
  exact hclock h.asked

theorem Renews.setRuntime (h : Renews s stale t) {r : Runtime}
    (hr : stale id → s.db.runtime.get? id = some r) :
    Renews s stale (t.update fun db => db.setRuntime id r) where
  host := h.host
  asked := h.asked
  rest := by
    rw [Session.update_db, Db.setRuntime, h.rest]
  full k hk := by
    by_cases hkid : k = id
    · subst hkid
      simp [Db.setRuntime, hr hk]
    · simpa [Db.setRuntime, hkid] using h.full k hk
  fast k hk := h.fast k hk

theorem Renews.setFast (h : Renews s stale t) (hr : stale id → s.db.fastRuntime.get? id = some r) :
    Renews s stale (t.update fun db => db.setFast id r) where
  host := h.host
  asked := h.asked
  rest := by
    rw [Session.update_db, Db.setFast, h.rest]
  full k hk := h.full k hk
  fast k hk := by
    by_cases hkid : k = id
    · subst hkid
      simp [Db.setFast, hr hk]
    · simpa [Db.setFast, hkid] using h.fast k hk

theorem Lease.renewable_lt {l : Lease} (h : l.renewable now = true) : ∃ t, l.expiresAt = some t ∧ now < t := by
  simp only [Lease.renewable, Bool.and_eq_true] at h
  simpa [Option.any_eq_true] using h.2

theorem Runtime.renewed_expired {r : Runtime} {t now : Time}
    (ht : r.expiresAt = some t) (hle : t ≤ now) : r.renewed now leaseMs = r := by
  unfold Runtime.renewed
  rw [if_neg]
  intro h
  obtain ⟨t', ht', hlt⟩ := Lease.renewable_lt h
  rw [Runtime.lease, ht] at ht'
  cases ht'
  exact absurd hlt (not_lt.mpr hle)

theorem FastRuntime.renewed_expired {t now : Time}
    (ht : r.expiresAt = some t) (hle : t ≤ now) : r.renewed now leaseMs = r := by
  unfold FastRuntime.renewed
  rw [if_neg]
  intro h
  obtain ⟨t', ht', hlt⟩ := Lease.renewable_lt h
  rw [FastRuntime.lease, ht] at ht'
  cases ht'
  exact absurd hlt (not_lt.mpr hle)

variable (hc : s.core.Sound)
include hc

theorem Renews.renew {r : Runtime} (h : Renews s stale t)
    (hle : s.now ≤ now) (hr : t.db.runtime.get? id = some r) (ho : r.ownedBy worker fence = true)
    (hstale : stale id → ¬s.Current id worker fence) :
    Renews s stale (t.update fun db => db.setRuntime id (r.renewed now leaseMs)) := by
  refine h.setRuntime fun hid => ?_
  have hr₀ := (h.full id hid).symm.trans hr
  obtain ⟨e, he, hexp⟩ := expired_of_stale hc (hstale hid) hr₀ ho
  rw [Runtime.renewed_expired he (hexp.trans hle)]
  exact hr₀

theorem Renews.fastRenew (h : Renews s stale t)
    (hle : s.now ≤ now) (hr : t.db.fastRuntime.get? id = some r) (ho : r.ownedBy worker fence = true)
    (hstale : stale id → ¬s.Current id worker fence) :
    Renews s stale (t.update fun db => db.setFast id (r.renewed now leaseMs)) := by
  refine h.setFast fun hid => ?_
  have hr₀ := (h.fast id hid).symm.trans hr
  obtain ⟨e, he, hexp⟩ := fastExpired_of_stale hc (hstale hid) hr₀ ho
  rw [FastRuntime.renewed_expired he (hexp.trans hle)]
  exact hr₀

variable (hclock : s.host.Monotone)
include hclock

theorem fastHeartbeatMany_renews (h : Renews s stale t)
    (hstale : ∀ b ∈ beats, stale b.taskId → ¬s.Current b.taskId worker b.fenceToken) :
    Ensures (fastHeartbeatMany worker beats) t fun _ t' => Renews s stale t' := by
  simp only [fastHeartbeatMany, ensures_bind, ensures_clockTimestamp, ensures_pure]
  refine .foldlM (fun _ (u : Session) => Renews s stale u) (fun acc b hb u hu => ?_) h.ask
  simp only [fastOwned, ensures_bind, ensures_database, ensures_pure]
  split
  · exact ensures_pure.mpr hu
  · rename_i r hr
    obtain ⟨hr, ho⟩ := Option.filter_eq_some_iff.mp hr
    simp only [ensures_ite, ensures_bind, ensures_pure, ensures_write]
    exact ⟨fun _ => hu, fun _ => hu.fastRenew hc (h.now_le hclock) hr ho (hstale b hb)⟩

theorem heartbeatFull_renews (h : Renews s stale t)
    (hstale : ∀ b ∈ beats, stale b.taskId → ¬s.Current b.taskId worker b.fenceToken) :
    Ensures (heartbeatFull worker beats) t fun _ t' => Renews s stale t' := by
  simp only [heartbeatFull, ensures_bind, ensures_clockTimestamp, ensures_pure]
  refine .foldlM (fun _ (u : Session) => Renews s stale u) (fun acc b hb u hu => ?_) h.ask
  rw [ensures_bind, ensures_owned]
  split
  · exact ensures_pure.mpr hu
  · rename_i r hr
    obtain ⟨hr, ho⟩ := Option.filter_eq_some_iff.mp hr
    simp only [ensures_ite, ensures_bind, ensures_pure, ensures_write]
    exact ⟨fun _ => hu, fun _ => hu.renew hc (h.now_le hclock) hr ho (hstale b hb)⟩

theorem heartbeat_renews (h : Renews s stale t) (hstale : stale id → ¬s.Current id worker fence) :
    Ensures (heartbeat id worker fence leaseMs) t fun _ t' => Renews s stale t' := by
  simp only [heartbeat, ensureWorker, ensureLease, ensures_bind, ensures_ensure, ensures_database,
    ensures_ite, ensures_clockTimestamp, ensures_owned, ensures_pure]
  refine fun _ _ => ⟨fun _ => fastHeartbeatMany_renews hc hclock h fun b hb => ?_, fun _ => ?_⟩
  · cases List.mem_singleton.mp hb
    exact hstale
  · split
    · exact ensures_pure.mpr h.ask
    · rename_i r hr
      obtain ⟨hr, ho⟩ := Option.filter_eq_some_iff.mp hr
      simp only [ensures_bind, ensures_write, ensures_pure]
      exact h.ask.renew hc (h.now_le hclock) hr ho hstale

theorem heartbeatMany_renews
    (hstale : ∀ b ∈ beats, stale b.taskId → ¬s.Current b.taskId worker b.fenceToken) :
    Ensures (heartbeatMany worker beats) s fun _ s' => Renews s stale s' := by
  simp only [heartbeatMany, ensureBeats, ensureWorker, ensures_bind, ensures_ensure, ensures_database,
    ensures_ite, ensures_pure]
  refine fun _ _ _ => ⟨fun _ => fastHeartbeatMany_renews hc hclock .refl hstale, fun _ =>
    ⟨fun _ => ?_, fun _ => heartbeatFull_renews hc hclock .refl hstale⟩⟩
  refine .foldlM (fun _ (u : Session) => Renews s stale u) (fun acc e he u hu => ?_) .refl
  simp only [ensures_bind, ensures_pure]
  refine heartbeat_renews hc hclock hu (hstale e.1 ?_)
  have hmem := (List.perm_insertionSort _ _).mem_iff.mp he
  exact (List.mem_zipIdx' hmem).2 ▸ List.getElem_mem _

omit hc hclock in
theorem lockRows_renews {ids : List TaskId} (h : Renews s stale t) :
    Ensures (lockRows ids) t fun _ t' => Renews s stale t' := by
  refine .foldlM (fun _ (u : Session) => Renews s stale u) (fun acc id _ u hu => ?_) h
  simp only [ensures_bind, ensures_tryLock, ensures_ite, ensures_pure]
  exact ⟨fun _ => hu.ask, fun _ => hu.ask⟩

omit hclock in
theorem renewLocked_renews (h : Renews s stale t) (hle : s.now ≤ now)
    (hstale : ∀ b ∈ beats, stale b.taskId → ¬s.Current b.taskId worker b.fenceToken) :
    Renews s stale (t.update (renewLocked worker beats now id)) := by
  rcases renewLocked_cases worker beats now id t.db with heq | ⟨r, leaseMs, hr, ⟨b, hb, rfl, hf⟩, ho, heq⟩
  · rw [Session.update, heq]
    exact h
  · rw [Session.update, heq]
    exact h.renew hc hle hr (hf ▸ ho) (hstale b hb)

omit hclock in
theorem fastRenewLocked_renews (h : Renews s stale t) (hle : s.now ≤ now)
    (hstale : ∀ b ∈ beats, stale b.taskId → ¬s.Current b.taskId worker b.fenceToken) :
    Renews s stale (t.update (fastRenewLocked worker beats now id)) := by
  rcases fastRenewLocked_cases worker beats now id t.db with heq | ⟨r, leaseMs, hr, ⟨b, hb, rfl, hf⟩, ho, heq⟩
  · rw [Session.update, heq]
    exact h
  · rw [Session.update, heq]
    exact h.fastRenew hc hle hr (hf ▸ ho) (hstale b hb)

omit hc hclock in
theorem foldl_renews {f : TaskId → Db → Db} {ids : List TaskId} (h : Renews s stale t)
    (hf : ∀ id t, Renews s stale t → Renews s stale (t.update (f id))) :
    Renews s stale (t.update fun db => ids.foldl (fun db id => f id db) db) := by
  induction ids generalizing t with
  | nil => exact h
  | cons id ids ih => exact ih (hf id t h)

theorem heartbeatManyV2_renews
    (hstale : ∀ b ∈ beats, stale b.taskId → ¬s.Current b.taskId worker b.fenceToken) :
    Ensures (heartbeatManyV2 worker beats) s fun _ s' => Renews s stale s' := by
  simp only [heartbeatManyV2, ensureBeats, ensureWorker, ensures_bind, ensures_ensure, ensures_database, ensures_pure]
  have hstart : Renews s stale s := .refl
  refine fun _ _ _ => (lockRows_renews hstart).mono fun _ t₁ h₁ => (lockRows_renews h₁).mono
    fun _ t₂ h₂ => ?_
  simp only [ensures_clockTimestamp, ensures_write]
  have hle := h₂.now_le hclock
  exact foldl_renews (foldl_renews h₂.ask fun _ _ h => fastRenewLocked_renews hc h hle hstale)
    fun _ _ h => renewLocked_renews hc h hle hstale

theorem heartbeatV2_renews (hstale : stale id → ¬s.Current id worker fence) :
    Ensures (heartbeatV2 id worker fence leaseMs) s fun _ s' => Renews s stale s' := by
  simp only [heartbeatV2, ensureWorker, ensureLease, ensures_bind, ensures_ensure, ensures_pure]
  refine fun _ _ => heartbeatManyV2_renews hc hclock fun b hb => ?_
  cases List.mem_singleton.mp hb
  exact hstale

end Heartbeats

end Workhorse
