import Workhorse.Admission.Lemmas.ClaimActs
import Workhorse.Task.Call
import Workhorse.Task.Lemmas.EnqueueMoves
import Workhorse.Task.Lemmas.Stale

/-!
# Calls of a run

Every call is a sequence of moves. An accepting reply closes the generation that the call names, and
a claim returns rows that are active under tokens it drew.
-/

namespace Workhorse

open Transaction Relation

variable {s s' : Session} {call : Call} {reply : Reply} {e : Exchange} {id : TaskId} {fence : Nat} {es : List Exchange}

/-! ## One call -/

def Call.acts : Call → Bool
  | .releaseOwned .. | .enqueueBatch .. | .purgeQueue .. => false
  | _ => true

theorem exec_acts (hc : s.core.Sound) (hcall : call.acts = true) :
    Ensures (exec call) s fun _ s' => Acts s.core s'.core := by
  cases call <;> simp only [exec, ensures_map, ensures_write]
  case heartbeat => exact heartbeat_acts
  case heartbeatMany => exact heartbeatMany_acts
  case heartbeatV2 => exact heartbeatV2_acts
  case heartbeatManyV2 => exact heartbeatManyV2_acts
  case complete => exact (complete_calls hc).mono fun _ _ h => h.acts
  case fail => exact fail_calls.mono fun _ _ h => h.acts
  case acknowledgeCancel => exact acknowledgeCancel_calls.mono fun _ _ h => h.acts
  case expireOwned => exact (expireOwned_calls rfl).mono fun _ _ h => h.acts
  case saveCheckpoint => exact saveCheckpoint_acts
  case updateProgress => exact updateProgress_core.mono fun _ _ h => h ▸ .refl
  case scheduleWait => exact scheduleWait_calls.mono fun _ _ h => h.acts
  case waitForSignal => exact waitForSignal_calls.mono fun _ _ h => h.acts
  case waitForHuman => exact waitForHuman_calls.mono fun _ _ h => h.acts
  case claim => exact claimMany_claims.mono fun _ _ h => h.elim fun _ h => h.acts
  case claimMany => exact claimMany_claims.mono fun _ _ h => h.elim fun _ h => h.acts
  case claimOne => exact claimOne_claims.mono fun _ _ h => h.elim fun _ h => h.acts
  case completeManyAndClaim =>
    refine (completeManyAndClaim_claims hc).mono fun _ _ hreply => ?_
    obtain ⟨_, h, h'⟩ := hreply
    exact h.acts.trans h'.acts
  case promote => exact promote_acts
  case runTaskNow => exact runTaskNow_acts
  case recoverExpired => exact recoverExpired_acts hc
  case cancel => exact cancel_acts
  case sendSignal => exact sendSignal_acts
  case completeHumanWait => exact completeHumanWait_acts
  case configure => exact .refl
  case releaseOwned | enqueueBatch | purgeQueue => cases hcall

theorem exec_writes (hc : s.core.Sound) : Ensures (exec call) s fun _ s' => Writes s.core s'.core ∨
    ∃ id worker fence accepted, call = .releaseOwned id worker fence ∧ Released s id worker fence accepted s'.core := by
  by_cases hcall : call.acts = true
  · exact (exec_acts hc hcall).mono fun _ _ h => .inl h.writes
  · cases call <;> simp only [Call.acts, not_true, Bool.false_eq_true, not_false_eq_true] at hcall
    case releaseOwned id worker fence =>
      simp only [exec, ensures_map]
      exact releaseOwned_calls.mono fun _ _ h => .inr ⟨id, worker, fence, _, rfl, h⟩
    case enqueueBatch =>
      simp only [exec, ensures_map]
      exact enqueueBatch_writes.mono fun _ _ => .inl
    case purgeQueue =>
      simp only [exec, ensures_map]
      exact purgeQueue_writes.mono fun _ _ => .inl

theorem exec_moves (hc : s.core.Sound) : Ensures (exec call) s fun _ s' => Moves s.core s'.core := by
  refine (exec_writes hc).mono fun _ s' h => ?_
  rcases h with h | ⟨id, worker, fence, accepted, -, h⟩
  · exact h.moves
  · exact h.moves

/-- An accepted batch entry: its row is gone when the batch is done, and the claims that follow draw
other tokens. -/
theorem Completes.closes {c c₁ c' : Core} (hc : c.Sound) {entries : List Completion}
    {accepted : List TaskId} (h : Completes c entries accepted c₁) (h' : Moves c₁ c')
    (hid : id ∈ accepted) (hentries : ∀ e ∈ entries, e.taskId = id → e.fenceToken = fence) :
    Closes c c' id fence := by
  obtain ⟨hnone, e, he, rfl, hheld⟩ := h.held id hid
  cases hentries e he rfl
  refine ⟨.fast, hheld, fun hafter => ?_⟩
  have hle := hc.drawn _ _ _ hheld
  rcases h'.holds hafter with ⟨r, hr, -⟩ | hlt
  · rw [hnone] at hr
    cases hr
  · rw [h.seq] at hlt
    omega

theorem exec_closes (hc : s.core.Sound) : Ensures (exec call) s fun reply s' =>
    ∀ id fence, Exchange.Accepts ⟨call, some reply⟩ id fence → Closes s.core s'.core id fence := by
  cases call <;> simp only [exec, ensures_map, ensures_write, Exchange.Accepts]
  case complete => exact (complete_calls hc).mono fun _ _ h _ _ => h.closes_of
  case fail => exact fail_calls.mono fun _ _ h _ _ => h.closes_of
  case releaseOwned =>
    refine releaseOwned_calls.mono fun _ _ h _ _ ha => ?_
    obtain ⟨hclosed, rfl, rfl⟩ := ha
    exact h.closes hclosed
  case acknowledgeCancel =>
    exact acknowledgeCancel_calls.mono fun _ _ h _ _ => h.closes_of
  case expireOwned =>
    exact (expireOwned_calls rfl).mono fun _ _ h _ _ => h.closes_of
  case scheduleWait =>
    exact scheduleWait_calls.mono fun _ _ h _ _ => h.closes_of
  case waitForSignal =>
    exact waitForSignal_calls.mono fun _ _ h _ _ => h.closes_of
  case waitForHuman =>
    exact waitForHuman_calls.mono fun _ _ h _ _ => h.closes_of
  case completeManyAndClaim =>
    refine (completeManyAndClaim_claims hc).mono fun _ _ hreply id fence haccepts => ?_
    obtain ⟨_, h, h'⟩ := hreply
    exact h.closes hc h'.acts.moves haccepts.1 haccepts.2
  case configure => exact fun _ _ h => False.elim h
  all_goals exact fun _ _ _ _ _ h => False.elim h

theorem exec_claims (hc : s.core.Sound) : Ensures (exec call) s fun reply s' =>
    ∃ tier, ∀ t ∈ Exchange.claims ⟨call, some reply⟩,
      s.core.fenceSeq < t.fenceToken ∧ s'.core.Holds tier t.taskId t.fenceToken := by
  cases call <;> simp only [exec, ensures_map, ensures_write, Exchange.claims]
  case claim => exact claimMany_claims.mono fun _ _ h => h.imp fun _ h => h.held
  case claimMany => exact claimMany_claims.mono fun _ _ h => h.imp fun _ h => h.held
  case claimOne => exact claimOne_claims.mono fun _ _ h => h.imp fun _ h => h.held
  case completeManyAndClaim =>
    refine (completeManyAndClaim_claims hc).mono fun _ _ hreply => ⟨.fast, fun t ht => ?_⟩
    obtain ⟨_, h, h'⟩ := hreply
    have := h'.held t ht
    rwa [h.seq] at this
  case configure => exact ⟨.full, by simp⟩
  all_goals exact fun _ _ _ => ⟨.full, by simp⟩

theorem exec_stale (hc : s.core.Sound) {worker : String}
    (hcall : call.generation = some (id, worker, fence)) (hstale : ¬s.Current id worker fence) :
    Ensures (exec call) s fun _ s' => s'.db = s.db := by
  cases call <;> simp only [Call.generation, reduceCtorEq, Option.some.injEq, Prod.mk.injEq] at hcall
  all_goals
    obtain ⟨rfl, rfl, rfl⟩ := hcall
    simp only [exec, ensures_map]
  case complete => exact complete_stale hc hstale
  case fail => exact fail_stale hc hstale
  case releaseOwned => exact releaseOwned_stale hc hstale
  case acknowledgeCancel => exact acknowledgeCancel_stale hc hstale
  case saveCheckpoint => exact saveCheckpoint_stale hc hstale
  case updateProgress => exact updateProgress_stale hc hstale
  case scheduleWait => exact scheduleWait_stale hc hstale
  case waitForSignal => exact waitForSignal_stale hc hstale
  case waitForHuman => exact waitForHuman_stale hc hstale

theorem completeMany_stale (hc : s.core.Sound) (hclock : s.host.Monotone) {worker queue : String}
    {entries : List Completion} {leaseMs : Nat}
    (hstale : ∀ e ∈ entries, ¬s.Current e.taskId worker e.fenceToken) :
    Ensures (exec (.completeManyAndClaim worker entries queue 0 leaseMs)) s fun _ s' =>
      s'.db = s.db := by
  simp only [exec, completeManyAndClaim, ensureWorker, ensureLease, ensures_map, ensures_bind,
    ensures_ensure, ensures_database]
  refine fun _ _ _ _ => ?_
  split
  · exact ensures_raise.mpr trivial
  · simp only [ensures_bind, ensures_ite, ensures_pure]
    refine (fastCompleteMany_stale hc hclock hstale).mono fun _ t ht => ⟨fun h => ?_, fun _ => ht⟩
    exact absurd h.1 (lt_irrefl 0)

theorem exec_renews (hc : s.core.Sound) (hclock : s.host.Monotone) {worker : String}
    {beats : List Beat} (hcall : call.beats = some (worker, beats)) {stale : TaskId → Prop}
    (hstale : ∀ b ∈ beats, stale b.taskId → ¬s.Current b.taskId worker b.fenceToken) :
    Ensures (exec call) s fun _ s' => Renews s stale s' := by
  cases call <;> simp only [Call.beats, reduceCtorEq, Option.some.injEq, Prod.mk.injEq] at hcall
  all_goals
    obtain ⟨rfl, rfl⟩ := hcall
    simp only [exec, ensures_map]
  case heartbeat => exact heartbeat_renews hc hclock .refl (hstale _ List.mem_cons_self)
  case heartbeatMany => exact heartbeatMany_renews hc hclock hstale
  case heartbeatV2 => exact heartbeatV2_renews hc hclock (hstale _ List.mem_cons_self)
  case heartbeatManyV2 => exact heartbeatManyV2_renews hc hclock hstale

/-! ## Runs -/

theorem initial_sound {host : Host} : (initial host).core.Sound where
  placed _ := rfl
  valid id r h := by cases h
  fastValid id r h := by cases h
  drawn tier id fence h := by cases tier <;> obtain ⟨r, hr, -⟩ := h <;> cases hr
  unique tier tier' id id' fence h := by cases tier <;> obtain ⟨r, hr, -⟩ := h <;> cases hr

theorem skips_moves {c : Core} (n : Nat) : Moves c { c with fenceSeq := c.fenceSeq + n } := by
  induction n with
  | zero => exact .refl
  | succ n ih => exact ih.tail (.write (.quiet (.skip _)))

theorem Step.moves (hc : s.core.Sound) (h : Step s e s') : Moves s.core s'.core := by
  cases h with
  | commit h => exact exec_moves hc _ _ h
  | abort h asked fences ready => exact skips_moves fences

theorem Run.sound {host : Host} (h : Run (initial host) es s) : s.core.Sound := by
  generalize hs₀ : initial host = s₀ at h
  induction h with
  | nil => exact hs₀ ▸ initial_sound
  | snoc _ h ih => exact ih.moves (h.moves ih)

theorem Run.trans {s₁ s₂ s₃ : Session} {es es' : List Exchange} (h : Run s₁ es s₂)
    (h' : Run s₂ es' s₃) : Run s₁ (es ++ es') s₃ := by
  induction h' with
  | nil => simpa using h
  | snoc _ hs ih =>
    rw [← List.append_assoc]
    exact ih.snoc hs

theorem Run.moves {s₀ : Session} (hc : s₀.core.Sound) (h : Run s₀ es s) : Moves s₀.core s.core := by
  induction h with
  | nil => exact .refl
  | snoc _ hs ih => exact ih.trans (hs.moves (hc.moves ih))

theorem runCalls_run (s : Session) (calls : List Call) : Run s (runCalls s calls).1 (runCalls s calls).2 := by
  induction calls generalizing s with
  | nil => exact .nil s
  | cons call calls ih =>
    unfold runCalls
    split
    · rename_i reply s' h
      exact ((Run.nil s).snoc (.commit h)).trans (ih s')
    · rename_i fault h
      exact ((Run.nil s).snoc (.abort h 0 0 0)).trans (ih s)

/-! ## Tokens along a run -/

structure Fenced (es : List Exchange) (s : Session) : Prop where
  claimed : ∀ e ∈ es, ∀ t ∈ e.claims, t.fenceToken ≤ s.core.fenceSeq
  increasing : es.Pairwise fun e e' => ∀ t ∈ e.claims, ∀ t' ∈ e'.claims, t.fenceToken < t'.fenceToken
  closed : ∀ e ∈ es, ∀ id fence, e.Accepts id fence → fence ≤ s.core.fenceSeq ∧ ∀ tier k, ¬s.core.Holds tier k fence
  once : es.Pairwise fun e e' => ∀ id id' fence, e.Accepts id fence → ¬e'.Accepts id' fence
  sameToken : ∀ e ∈ es, ∀ t ∈ e.claims, ∀ t' ∈ e.claims, t.taskId = t'.taskId → t.fenceToken = t'.fenceToken
  sameTask : ∀ e ∈ es, ∀ id id' fence, e.Accepts id fence → e.Accepts id' fence → id' = id

theorem Core.Holds.token {c : Core} {tier : Tier} {fence' : Nat} (h : c.Holds tier id fence)
    (h' : c.Holds tier id fence') : fence = fence' := by
  cases tier <;>
  · obtain ⟨r, hr, -, hf⟩ := h
    obtain ⟨r', hr', -, hf'⟩ := h'
    rw [hr] at hr'
    cases hr'
    exact hf.symm.trans hf'

theorem Closes.nobody {c c' : Core} (hc : c.Sound) (h : Moves c c') (hcl : Closes c c' id fence) :
    fence ≤ c'.fenceSeq ∧ ∀ tier k, ¬c'.Holds tier k fence := by
  obtain ⟨tier, hheld, hgone⟩ := hcl
  have hle := hc.drawn _ _ _ hheld
  refine ⟨hle.trans h.fenceSeq_le, fun tier' k hk => ?_⟩
  rcases h.holds hk with hk' | hlt
  · obtain ⟨rfl, rfl⟩ := hc.unique _ _ _ _ _ hheld hk'
    exact hgone hk
  · omega

theorem Fenced.step (h : Fenced es s) (hc : s.core.Sound) (hs : Step s e s') : Fenced (es ++ [e]) s' := by
  have hm := hs.moves hc
  have hclaims : ∃ tier, ∀ t ∈ e.claims, s.core.fenceSeq < t.fenceToken ∧ s'.core.Holds tier t.taskId t.fenceToken := by
    cases hs with
    | commit hx => exact exec_claims hc _ _ hx
    | abort => exact ⟨.full, fun t ht => by cases ht⟩
  obtain ⟨tier, hclaims⟩ := hclaims
  have hcloses : ∀ id fence, e.Accepts id fence → Closes s.core s'.core id fence := by
    intro id fence ha
    cases hs with
    | commit hx => exact exec_closes hc _ _ hx id fence ha
    | @abort call _ _ => cases call <;> exact False.elim ha
  refine ⟨?_, ?_, ?_, ?_, ?_, ?_⟩
  · intro e' he' t ht
    rcases List.mem_append.mp he' with he' | he'
    · exact (h.claimed e' he' t ht).trans hm.fenceSeq_le
    · cases List.mem_singleton.mp he'
      exact (hc.moves hm).drawn _ _ _ (hclaims t ht).2
  · refine List.pairwise_append.mpr ⟨h.increasing, List.pairwise_singleton _ _, ?_⟩
    intro e₁ he₁ e₂ he₂ t ht t' ht'
    cases List.mem_singleton.mp he₂
    exact (h.claimed e₁ he₁ t ht).trans_lt (hclaims t' ht').1
  · intro e' he' id fence ha
    rcases List.mem_append.mp he' with he' | he'
    · obtain ⟨hle, hno⟩ := h.closed e' he' id fence ha
      refine ⟨hle.trans hm.fenceSeq_le, fun tier k hk => ?_⟩
      rcases hm.holds hk with hk | hlt
      · exact hno tier k hk
      · omega
    · cases List.mem_singleton.mp he'
      exact (hcloses id fence ha).nobody hc hm
  · refine List.pairwise_append.mpr ⟨h.once, List.pairwise_singleton _ _, ?_⟩
    intro e₁ he₁ e₂ he₂ id id' fence ha ha'
    cases List.mem_singleton.mp he₂
    obtain ⟨tier, hheld, -⟩ := hcloses id' fence ha'
    exact (h.closed e₁ he₁ id fence ha).2 tier id' hheld
  · intro e' he' t ht t' ht' heq
    rcases List.mem_append.mp he' with he' | he'
    · exact h.sameToken e' he' t ht t' ht' heq
    · cases List.mem_singleton.mp he'
      have hheld := (hclaims t ht).2
      rw [heq] at hheld
      exact hheld.token (hclaims t' ht').2
  · intro e' he' id id' fence ha ha'
    rcases List.mem_append.mp he' with he' | he'
    · exact h.sameTask e' he' id id' fence ha ha'
    · cases List.mem_singleton.mp he'
      obtain ⟨_, hheld, -⟩ := hcloses id fence ha
      obtain ⟨_, hheld', -⟩ := hcloses id' fence ha'
      exact (hc.unique _ _ _ _ _ hheld' hheld).2

theorem Run.fenced {host : Host} (h : Run (initial host) es s) : Fenced es s := by
  have key : ∀ {s₀ : Session}, Run s₀ es s → s₀ = initial host → Fenced es s := by
    clear h
    intro s₀ h
    induction h with
    | nil => exact fun _ => ⟨by simp, .nil, by simp, .nil, by simp, by simp⟩
    | snoc hrun hs ih =>
      rintro rfl
      exact (ih rfl).step hrun.sound hs
  exact key h rfl

end Workhorse
