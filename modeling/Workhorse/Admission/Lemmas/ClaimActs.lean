import Workhorse.Task.Lemmas.WaitActs

/-!
# Claims as acts

A claim activates ready rows, each under the next token of the sequence, and leaves them active. The
locks it takes and the buckets it charges are outside the core.
-/

namespace Workhorse

open Transaction Relation

variable {s : Session} {c c' : Core} {id k : TaskId} {worker queue : String} {fence : Nat} {claimed : List ClaimedTask}
  {now : Time} {call : ClaimCall} {limit leaseMs : Nat} {st : ClaimState}

/-- What a claim ensures: every row it returns is active under a token that the claim drew. -/
structure Claims (tier : Tier) (c : Core) (claimed : List ClaimedTask) (c' : Core) : Prop where
  acts : Acts c c'
  held : ∀ t ∈ claimed, c.fenceSeq < t.fenceToken ∧ c'.Holds tier t.taskId t.fenceToken

theorem Claims.nil {tier : Tier} : Claims tier c [] c := ⟨.refl, by simp⟩

theorem Claims.fenceSeq_le {tier : Tier} (h : Claims tier c claimed c') :
    c.fenceSeq ≤ c'.fenceSeq := h.acts.moves.fenceSeq_le

theorem Claims.skip {tier : Tier} (h : Claims tier c claimed c') : Claims tier c claimed c'.draw where
  acts := h.acts.quiet (.skip c')
  held t ht := ⟨(h.held t ht).1, by
    have := (h.held t ht).2
    cases tier <;> exact this⟩

/-- Activating one more row: the rows activated before it are not ready, so they stay. -/
theorem Claims.claim (h : Claims .full c claimed c') {r : Runtime}
    (hr : c'.runtime.get? id = some r) (hs : r.state = .ready) (worker : String) (now expires : Time)
    {timeoutMs : Option Nat} (ht : ∀ t, c'.tasks.get? id = some t → timeoutMs = t.executionTimeoutMs)
    (shard : Option Nat) {t : ClaimedTask} (hid : t.taskId = id) (hf : t.fenceToken = c'.fenceSeq + 1) :
    Claims .full c (claimed ++ [t]) (c'.draw.setRuntime id
      (r.claimed worker (c'.fenceSeq + 1) now expires timeoutMs shard)) where
  acts := h.acts.quiet (.claim hr hs worker now expires ht shard)
  held u hu := by
    rcases List.mem_append.mp hu with hu | hu
    · obtain ⟨hlt, r', hr', hs', hf'⟩ := h.held u hu
      have hne : u.taskId ≠ id := by
        rintro rfl
        rw [hr] at hr'
        cases hr'
        rw [hs] at hs'
        cases hs'
      exact ⟨hlt, r', by simpa [Core.setRuntime, Core.draw, hne] using hr', hs', hf'⟩
    · cases List.mem_singleton.mp hu
      have := h.fenceSeq_le
      exact ⟨by omega, r.claimed worker _ now expires timeoutMs shard, by simp [Core.setRuntime, hid], rfl, hf.symm⟩

theorem Claims.fastClaim (h : Claims .fast c claimed c') {r : FastRuntime}
    (hr : c'.fastRuntime.get? id = some r) (hs : r.state = .ready) (worker : String) (now : Time)
    (leaseMs : Nat) {t : ClaimedTask} (hid : t.taskId = id) (hf : t.fenceToken = c'.fenceSeq + 1) :
    Claims .fast c (claimed ++ [t]) (c'.draw.setFast id
      (r.claimed worker (c'.fenceSeq + 1) now leaseMs)) where
  acts := h.acts.quiet (.fastClaim hr hs worker now leaseMs)
  held u hu := by
    rcases List.mem_append.mp hu with hu | hu
    · obtain ⟨hlt, r', hr', hs', hf'⟩ := h.held u hu
      have hne : u.taskId ≠ id := by
        rintro rfl
        rw [hr] at hr'
        cases hr'
        rw [hs] at hs'
        cases hs'
      exact ⟨hlt, r', by simpa [Core.setFast, Core.draw, hne] using hr', hs', hf'⟩
    · cases List.mem_singleton.mp hu
      have := h.fenceSeq_le
      exact ⟨by omega, r.claimed worker _ now leaseMs, by simp [Core.setFast, hid], rfl, hf.symm⟩

@[simp] theorem ensures_nextFence {Q : Nat → Session → Prop} : Ensures nextFence s Q ↔
    Q (s.db.fenceSeq + 1) (s.update fun db => { db with fenceSeq := db.fenceSeq + 1 }) := ensures_ok rfl

theorem activateAll_claims {now expires : Time} {picked : List (TaskId × (Runtime → Option Nat))}
    (h : Claims .full c claimed s.core) : Ensures (activateAll worker now expires picked) s fun started s' =>
      Claims .full c (claimed ++ started) s'.core := by
  refine .foldlM (fun acc (t : Session) => Claims .full c (claimed ++ acc) t.core)
    (fun acc e _ t ht => ?_) (by simpa using h)
  simp only [activate, ensures_bind, ensures_nextFence, ensures_database]
  split
  · rename_i r task hr htask
    simp only [ensures_ite, ensures_bind, ensures_write, ensures_pure, ← List.append_assoc]
    have htimeout : ∀ t', t.core.tasks.get? e.1 = some t' →
        task.executionTimeoutMs = t'.executionTimeoutMs := fun t' ht' =>
      congrArg Task.executionTimeoutMs (Option.some.inj (htask.symm.trans ht'))
    exact ⟨fun h => ht.claim hr h.1 _ _ _ htimeout _ rfl rfl, fun _ => ht.skip⟩
  · simp only [ensures_pure]
    exact ht.skip

theorem fastClaim_claims {recordClaims : Bool} :
    Ensures (fastClaim queue worker limit leaseMs recordClaims) s fun started s' =>
      Claims .fast s.core started s'.core := by
  simp only [fastClaim, ensures_bind, ensures_clockTimestamp, ensures_database]
  refine lockRows_core.mono fun locked t ht => ?_
  rw [← Session.core_ask s, ← ht]
  refine .foldlM (fun acc (u : Session) => Claims .fast t.core acc u.core) (fun acc id _ u hu => ?_) .nil
  simp only [fastActivate, ensures_bind, ensures_nextFence, ensures_database]
  split
  · exact ensures_pure.mpr hu.skip
  · rename_i r hr
    simp only [ensures_ite, ensures_bind, ensures_write, ensures_pure, Session.core_update]
    refine ⟨fun hs => ?_, fun _ => hu.skip⟩
    split <;> exact hu.fastClaim hr hs _ _ _ rfl rfl

/-! ## Locks and buckets -/

theorem lockBudgets_core {mayWait : Bool} {held : List String} :
    Ensures (lockBudgets queue mayWait held) s fun _ s' => s'.core = s.core := by
  simp only [lockBudgets, ensures_bind, ensures_database]
  refine .foldlM (fun _ (t : Session) => t.core = s.core) (fun acc name _ t ht => ?_) rfl
  simp only [ensures_ite, ensures_bind, ensures_tryLock, ensures_pure]
  exact ⟨fun _ => ht, fun _ => ⟨fun _ => ht, fun _ => ⟨fun _ => ht, fun _ => ht⟩⟩⟩

theorem firstFreeShard_core {shards : List Nat} :
    Ensures (firstFreeShard queue shards) s fun _ s' => s'.core = s.core := by
  induction shards generalizing s with
  | nil => exact ensures_pure.mpr rfl
  | cons shard rest ih =>
    simp only [firstFreeShard, ensures_bind, ensures_tryLock, ensures_ite, ensures_pure]
    exact ⟨fun _ => rfl, fun _ => ih⟩

theorem roundLocks_core {first : Bool} :
    Ensures (roundLocks call first st) s fun st' s' => s'.core = s.core ∧ ∀ st'' ∈ st', st''.claimed = st.claimed := by
  simp only [roundLocks, ensures_bind, ensures_ite, ensures_pure]
  refine lockBudgets_core.mono fun budgets t ht => ⟨fun _ => ?_, fun _ => ⟨ht, by simp⟩⟩
  refine firstFreeShard_core.mono fun shard t' ht' => ?_
  cases shard with
  | some shard => exact ensures_pure.mpr ⟨ht'.trans ht, by simp⟩
  | none =>
    refine ensures_pure.mpr ⟨ht'.trans ht, fun st'' h => ?_⟩
    split at h
    · cases h
      rfl
    · cases h

theorem discardFullBuckets_core : Ensures (discardFullBuckets queue now) s fun _ s' => s'.core = s.core := by
  simp only [discardFullBuckets, ensures_bind, ensures_database]
  refine (Ensures.foldlM (fun _ (t : Session) => t.core = s.core) (fun acc e _ t ht => ?_) rfl).mono
    fun _ t ht => ?_
  · simp only [ensures_bind, ensures_tryLock, ensures_ite, ensures_pure]
    exact ⟨fun _ => ht, fun _ => ht⟩
  · rw [ensures_write]
    exact ht

theorem readRoom_core {home shards left : Nat} {held : List Nat} :
    Ensures (readRoom queue home shards now left held) s fun _ s' => s'.core = s.core := by
  simp only [readRoom, ensures_bind, ensures_database, ensures_ite, ensures_pure]
  refine ⟨fun _ => ?_, fun _ => trivial⟩
  refine .foldlM (fun _ (t : Session) => t.core = s.core) (fun b shard _ t ht => ?_) rfl
  simp only [borrowShard, ensures_ite, ensures_bind, ensures_tryLock, ensures_pure]
  exact ⟨fun _ => ht, fun _ => ⟨fun _ => ht, fun _ => ht⟩⟩

theorem pickDirect_core {take : Nat} : Ensures (pickDirect queue now take) s fun _ s' => s'.core = s.core := by
  simp only [pickDirect, ensures_bind, ensures_database, ensures_pure]
  exact lockRows_core

theorem pickWindow_core {budgets : List String} {take : Nat} :
    Ensures (pickWindow queue budgets now take) s fun _ s' => s'.core = s.core := by
  simp only [pickWindow, ensures_bind, ensures_database, ensures_pure]
  exact lockRows_core

theorem core_chargeKeys {keys : List String} {db : Db} {host : Host} :
    (chargeKeys queue now keys db).core host = db.core host := by
  unfold chargeKeys
  split <;> rfl

theorem startRows_claims {r : Reading} {held : List Nat} {picked : List TaskId} (h : Claims .full c claimed s.core) :
    Ensures (startRows call now r held picked) s fun started s' =>
      Claims .full c (claimed ++ started) s'.core := by
  simp only [startRows, ensures_bind, ensures_database]
  refine (activateAll_claims h).mono fun started t ht => ?_
  have hcharge (t' : Session) (h : t'.core = t.core) {keys budgets : List String} : Claims .full c (claimed ++ started)
        ((t'.update (chargeKeys call.queue now keys)).update (chargeBudgets now budgets)).core := by
    have heq : ((t'.update (chargeKeys call.queue now keys)).update (chargeBudgets now budgets)).core = t.core := by
      rw [← h]
      exact core_chargeKeys
    rw [heq]
    exact ht
  split
  · rename_i tokens _
    simp only [ensures_bind, ensures_write, ensures_pure]
    exact hcharge (t.update (chargeShards call.queue now (charges tokens held started.length))) rfl
  · simp only [ensures_bind, ensures_write, ensures_pure]
    exact hcharge t rfl

/-! ## Rounds -/

theorem roundStarts_claims (h : Claims .full c st.claimed s.core) : Ensures (roundStarts call now st) s fun st' s' =>
      Claims .full c st'.1.claimed s'.core := by
  simp only [roundStarts, ensures_bind]
  refine readRoom_core.mono fun room t ht => ?_
  rw [← ht] at h
  simp only [ensures_ite, ensures_bind, ensures_database, ensures_pure]
  refine ⟨fun _ => h, fun _ => ⟨fun _ => pickDirect_core.mono fun picked t' ht' => ?_,
    fun _ => pickWindow_core.mono fun picked t' ht' => ⟨fun _ => ht' ▸ h, fun _ => ?_⟩⟩⟩
  · exact startRows_claims (ht' ▸ h)
  · exact startRows_claims (ht' ▸ h)

theorem claimRound_claims {first : Bool}
    (h : Claims .full c st.claimed s.core) : Ensures (claimRound call first st) s fun st' s' =>
      Claims .full c st'.1.claimed s'.core := by
  simp only [claimRound, ensures_bind]
  refine roundLocks_core.mono fun st' t hlocks => ?_
  obtain ⟨ht, hst⟩ := hlocks
  cases st' with
  | none => exact ensures_pure.mpr (ht ▸ h)
  | some st' =>
    rw [← ht, ← hst st' rfl] at h
    simp only [ensures_bind, ensures_clockTimestamp, ensures_ite]
    refine ⟨fun _ => discardFullBuckets_core.mono fun _ t' ht' => roundStarts_claims ?_, fun _ => roundStarts_claims h⟩
    rw [ht']
    exact h

theorem claimRounds_claims {fuel : Nat} {first : Bool}
    (h : Claims .full c st.claimed s.core) : Ensures (claimRounds call fuel first st) s fun st' s' =>
      Claims .full c st'.claimed s'.core := by
  induction fuel generalizing first st s with
  | zero => exact ensures_pure.mpr h
  | succ fuel ih =>
    simp only [claimRounds, ensures_bind, ensures_ite, ensures_pure]
    exact (claimRound_claims h).mono fun st' t ht => ⟨fun _ => ih ht, fun _ => ht⟩

theorem claimPolicyBatch_claims {mayWait : Bool} :
    Ensures (claimPolicyBatch queue worker limit leaseMs mayWait) s fun claimed s' =>
      Claims .full s.core claimed s'.core := by
  simp only [claimPolicyBatch, ensureWorker, ensureLease, ensures_bind, ensures_ensure,
    ensures_database, ensures_asking, ensures_ite, ensures_clockTimestamp, ensures_write, ensures_pure]
  have hnil (held : List Nat) : Claims .full s.core (ClaimState.mk [] held []).claimed s.core := .nil
  exact fun _ _ _ => ⟨fun _ => claimRounds_claims (hnil _), fun _ => claimRounds_claims (hnil _)⟩

theorem claimMany_claims : Ensures (claimMany queue worker limit leaseMs) s fun claimed s' =>
      ∃ tier, Claims tier s.core claimed s'.core := by
  simp only [claimMany, ensures_bind, ensures_ensure, ensures_database]
  refine fun _ => ?_
  split
  · simp only [ensureWorker, ensureLease, ensures_bind, ensures_ensure, ensures_ite, ensures_pure]
    exact fun _ _ => ⟨fun _ => ⟨.fast, .nil⟩, fun _ => fastClaim_claims.mono fun _ _ h => ⟨_, h⟩⟩
  · exact claimPolicyBatch_claims.mono fun _ _ h => ⟨_, h⟩

theorem pickOne_core {budgets : List String} : Ensures (pickOne queue budgets now) s fun _ s' => s'.core = s.core := by
  simp only [pickOne, ensures_bind, ensures_database, ensures_ite, ensures_pure]
  exact ⟨fun _ => lockRows_core, fun _ => lockRows_core⟩

theorem claimOne_claims {leaseMs : Nat} {mayWait : Bool} :
    Ensures (claimOne queue worker leaseMs mayWait) s fun claimed s' =>
      ∃ tier, Claims tier s.core claimed s'.core := by
  simp only [claimOne, ensureWorker, ensureLease, ensures_bind, ensures_ensure, ensures_database]
  refine fun _ _ => ?_
  split
  · simp only [ensures_ite, ensures_pure]
    exact ⟨fun _ => ⟨.fast, .nil⟩, fun _ => fastClaim_claims.mono fun _ _ h => ⟨_, h⟩⟩
  · simp only [ensures_ite, ensures_bind, ensures_clockTimestamp]
    refine ⟨fun _ => claimPolicyBatch_claims.mono fun _ _ h => ⟨_, h⟩, fun _ => ?_⟩
    refine lockBudgets_core.mono fun budgets t ht => pickOne_core.mono fun picked t' ht' => ?_
    have hcore : t'.core = s.core := ht'.trans ht
    cases picked with
    | none =>
      simp only [ensures_bind, ensures_nextFence, ensures_pure]
      exact ⟨.full, hcore ▸ Claims.nil.skip⟩
    | some id =>
      simp only [ensures_bind, ensures_database, ensures_write, ensures_pure]
      have hnil : Claims .full s.core [] t'.core := hcore ▸ .nil
      exact (activateAll_claims hnil).mono fun started t'' h => ⟨.full, h⟩

theorem completeManyAndClaim_claims {entries : List Completion}
    (hc : s.core.Sound) : Ensures (completeManyAndClaim worker entries queue limit leaseMs) s
      fun reply s' => ∃ c, Completes s.core entries reply.1 c ∧ Claims .fast c reply.2 s'.core := by
  simp only [completeManyAndClaim, ensureWorker, ensureLease, ensures_bind, ensures_ensure, ensures_database]
  refine fun _ _ _ _ => ?_
  split
  · exact ensures_raise.mpr trivial
  · simp only [ensures_bind, ensures_ite, ensures_pure]
    refine (fastCompleteMany_completes hc).mono fun accepted t ht => ⟨fun _ => ?_, fun _ => ?_⟩
    · exact fastClaim_claims.mono fun claimed s' h => ⟨_, ht, h⟩
    · exact ⟨_, ht, .nil⟩

end Workhorse
