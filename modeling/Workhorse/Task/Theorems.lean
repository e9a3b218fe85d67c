import Workhorse.Task.Lemmas.Attempts
import Workhorse.Task.Lemmas.Boundaries
import Workhorse.Task.Lemmas.Execution

/-!
# The life of a task

Fencing of worker calls, the single place of a task with its final outcome, the history of its attempts,
the execution time that it keeps, and its durable boundaries, over every run.
-/

namespace Workhorse

open Transaction

variable {host : Host} {es : List Exchange} {s : Session}

theorem Run.clock (hclock : host.Monotone) (hrun : Run (initial host) es s) : s.host.Monotone := by
  have hhost : s.host = host := (hrun.moves initial_sound).host
  rwa [hhost]

/-! ## Fencing -/

/-- Fencing, in every state that a run reaches. A call that names a generation which is not active and
unexpired changes no row; a heartbeat changes no row of a task that it names under such generations
only, and nothing but live rows. The tokens that claims return increase from one claim to the next,
and a claim returns a task under one token. An attempt is closed at most once under a token, and no
row is active under the token afterwards. -/
theorem fencing (hclock : host.Monotone) (hrun : Run (initial host) es s) :
    (∀ call id worker fence, call.generation = some (id, worker, fence) →
      ¬s.Current id worker fence → ∀ reply s', exec call s = .ok (reply, s') → s'.db = s.db) ∧
    (∀ worker entries queue leaseMs, (∀ e ∈ entries, ¬s.Current e.taskId worker e.fenceToken) →
      ∀ reply s', exec (.completeManyAndClaim worker entries queue 0 leaseMs) s = .ok (reply, s') → s'.db = s.db) ∧
    (∀ call worker beats, call.beats = some (worker, beats) → ∀ reply s', exec call s = .ok (reply, s') →
        s'.db = { s.db with runtime := s'.db.runtime, fastRuntime := s'.db.fastRuntime } ∧
        ∀ id, (∀ b ∈ beats, b.taskId = id → ¬s.Current id worker b.fenceToken) →
          s'.db.runtime.get? id = s.db.runtime.get? id ∧ s'.db.fastRuntime.get? id = s.db.fastRuntime.get? id) ∧
    es.Pairwise (fun e e' => ∀ t ∈ e.claims, ∀ t' ∈ e'.claims, t.fenceToken < t'.fenceToken) ∧
    (∀ e ∈ es, ∀ t ∈ e.claims, ∀ t' ∈ e.claims, t.taskId = t'.taskId → t.fenceToken = t'.fenceToken) ∧
    es.Pairwise (fun e e' => ∀ id id' fence, e.Accepts id fence → ¬e'.Accepts id' fence) ∧
    (∀ e ∈ es, ∀ id fence, e.Accepts id fence → (∀ tier k, ¬s.core.Holds tier k fence) ∧
      ∀ id', e.Accepts id' fence → id' = id) := by
  have hc := hrun.sound
  have hclock := hrun.clock hclock
  have hf := hrun.fenced
  refine ⟨?_, ?_, ?_, hf.increasing, hf.sameToken, hf.once, fun e he id fence ha =>
    ⟨(hf.closed e he id fence ha).2, fun id' ha' => hf.sameTask e he id id' fence ha ha'⟩⟩
  · exact fun call id worker fence hcall hstale reply s' h => exec_stale hc hcall hstale reply s' h
  · exact fun worker entries queue leaseMs hstale reply s' h =>
      completeMany_stale hc hclock hstale reply s' h
  · intro call worker beats hcall reply s' h
    have hr : Renews s (fun id => ∀ b ∈ beats, b.taskId = id → ¬s.Current id worker b.fenceToken) s' :=
      exec_renews hc hclock hcall (fun b hb hid => hid b hb rfl) reply s' h
    exact ⟨hr.rest, fun id hid => ⟨hr.full id hid, hr.fast id hid⟩⟩

def plainRequest : Request where
  queue := "default"
  type := "report"
  payload := .null
  priority := none
  concurrencyKey := none
  budget := none
  contractVersion := none
  payloadMaxBytes := none
  resultMaxBytes := none
  sensitivePayloadKeys := []
  sensitiveResultKeys := []
  tags := []
  runAt := none
  deadline := none
  executionTimeoutMs := none
  maxAttempts := none
  retryPolicy := none
  prerequisiteTaskId := none
  dependencies := none
  idempotency := none

def lifecycle : List Exchange × Session :=
  runCalls (initial steadyHost) [.enqueueBatch [plainRequest], .claim "default" "a" 30000,
    .releaseOwned 1 "a" 1, .claim "default" "b" 30000, .complete 1 "b" 2 none]

theorem lifecycle_run : Run (initial steadyHost) lifecycle.1 lifecycle.2 := runCalls_run _ _

theorem fencing_lifecycle :
    (lifecycle.1.flatMap Exchange.claims).map (fun t => (t.taskId, t.fenceToken)) = [(1, 1), (1, 2)] ∧
    lifecycle.1.Pairwise
      (fun e e' => ∀ t ∈ e.claims, ∀ t' ∈ e'.claims, t.fenceToken < t'.fenceToken) :=
  ⟨by decide +kernel, (fencing steadyHost_monotone lifecycle_run).2.2.2.1⟩

/-- A generation that has ended, or whose token was drawn for another one, is never active again. -/
theorem ended_generation_stays_ended (hrun : Run (initial host) es s) {tier : Tier} {id : TaskId} {fence : Nat}
    (hdrawn : fence ≤ s.db.fenceSeq) (hended : ¬s.core.Holds tier id fence) {es' : List Exchange} {s' : Session}
    (hrun' : Run s es' s') : ¬s'.core.Holds tier id fence := by
  intro h
  rcases (hrun'.moves hrun.sound).holds h with hheld | hlater
  · exact hended hheld
  · exact hdrawn.not_gt hlater

def released : List Exchange × Session :=
  runCalls (initial steadyHost) [.enqueueBatch [plainRequest], .claim "default" "a" 30000, .releaseOwned 1 "a" 1]

/-- The generation of the first claim has ended with its release; the task runs again under another token. -/
theorem ended_generation_stays_ended_released : let claimed := runCalls released.2 [.claim "default" "b" 30000]
    claimed.2.db.runtime.any (fun _ r => r.state == .active && r.fenceToken = 2) = true ∧
      ¬claimed.2.core.Holds .full 1 1 := by
  have hready : (released.2.core.runtime.get? 1).all (·.state == .ready) = true := by decide +kernel
  refine ⟨by decide +kernel, ended_generation_stays_ended (runCalls_run _ _) (by decide +kernel) ?_ (runCalls_run _ _)⟩
  rintro ⟨r, hr, hactive, -⟩
  rw [released, hr] at hready
  simp [hactive] at hready

/-! ## Places and outcomes -/

/-- In every state that a run reaches, a full-tier task has either a runtime row or an outcome, every
runtime row keeps the constraints of its table, and an outcome stays as it is, without a runtime row,
in every continuation of the run. -/
theorem single_place (hrun : Run (initial host) es s) :
    (∀ id, s.db.tasks.contains id = true → s.db.fastRuntime.contains id = false →
      s.db.fastOutcomes.contains id = false → (s.db.runtime.contains id = true ↔ s.db.outcomes.contains id = false)) ∧
    (∀ id r, s.db.runtime.get? id = some r → r.shapeCheck = true ∧ r.cancelCheck = true ∧ r.counterCheck = true) ∧
    ∀ id o, s.db.outcomes.get? id = some o → ∀ es' s', Run s es' s' →
      s'.db.outcomes.get? id = some o ∧ s'.db.runtime.get? id = none := by
  have hc := hrun.sound
  refine ⟨fun id ht hf hfo => ?_, fun id r hr => ?_, fun id o ho es' s' hrun' => ?_⟩
  · have hplaced := hc.placed id
    simp only [Core.places, Session.runtime_core, Session.outcomes_core, Session.fastRuntime_core,
      Session.fastOutcomes_core, Session.tasks_core, ht, hf, hfo] at hplaced
    cases hr : s.db.runtime.contains id <;> cases ho : s.db.outcomes.contains id <;> simp_all
  · have hv := hc.valid id r hr
    exact ⟨hv.shape, hv.cancel, hv.counter⟩
  · have hm := hrun'.moves hc
    have ho' := hm.outcome hc ho
    refine ⟨ho', Table.not_contains_iff.mp ?_⟩
    by_contra hrt
    have hnone := (Core.alone ((hc.moves hm).placed id) (Bool.eq_true_of_not_eq_false hrt)).1
    rw [Table.contains_of_get? ho'] at hnone
    cases hnone

theorem single_place_lifecycle : lifecycle.2.db.tasks.contains 1 = true ∧
    (lifecycle.2.db.runtime.contains 1 = true ↔ lifecycle.2.db.outcomes.contains 1 = false) :=
  ⟨by decide +kernel, (single_place lifecycle_run).1 1 (by decide +kernel) (by decide +kernel)
    (by decide +kernel)⟩

/-! ## Attempts -/

/-- The number of rows of `attempt_history` for an attempt of a task. -/
def Db.attemptRows (db : Db) (id : TaskId) (n : Nat) : Nat :=
  db.attemptHistory.countP fun a => id = a.taskId ∧ n = a.attempt

/-- In every state that a run reaches, the attempt of a task is within its limit, the history has one row
for each attempt before it, none for an attempt after it, and at most one for the attempt itself, and
that only when the task has ended. A release or a wait keeps the attempt and the history. -/
theorem attempt_accounting (hrun : Run (initial host) es s) :
    (∀ id r t, s.db.runtime.get? id = some r → s.db.tasks.get? id = some t → r.currentAttempt ≤ t.maxAttempts ∧
      (∀ n, 1 ≤ n → n < r.currentAttempt → s.db.attemptRows id n = 1) ∧
      ∀ n, n = 0 ∨ r.currentAttempt ≤ n → s.db.attemptRows id n = 0) ∧
    (∀ id o t, s.db.outcomes.get? id = some o → s.db.tasks.get? id = some t → o.currentAttempt ≤ t.maxAttempts ∧
      (∀ n, 1 ≤ n → n < o.currentAttempt → s.db.attemptRows id n = 1) ∧ s.db.attemptRows id o.currentAttempt ≤ 1 ∧
      ∀ n, n = 0 ∨ o.currentAttempt < n → s.db.attemptRows id n = 0) ∧
    ∀ e s', Step s e s' → ∀ id, e.yields = some id → s.KeepsAttempt s' id := by
  have ha := (hrun.moves initial_sound).accounted initial_sound initial_accounted
  refine ⟨fun id r t hr ht => ?_, fun id o t ho ht => ?_, fun e s' hs id hyields => ?_⟩
  · obtain ⟨hone, hmost, hearlier, hnone⟩ := ha.live id r t hr ht
    refine ⟨hmost, fun n hpos hlt => (hearlier n hlt.ne).trans (if_pos ⟨hpos, hlt⟩), fun n hn => ?_⟩
    by_cases hcur : n = r.currentAttempt
    · exact hcur ▸ hnone
    · refine (hearlier n hcur).trans (if_neg ?_)
      omega
  · obtain ⟨hone, hmost, hearlier, hle⟩ := ha.ended id o t ho ht
    refine ⟨hmost, fun n hpos hlt => (hearlier n hlt.ne).trans (if_pos ⟨hpos, hlt⟩), hle, fun n hn => ?_⟩
    refine (hearlier n ?_).trans (if_neg ?_) <;> omega
  · cases hs with
    | commit hx => exact exec_keepsAttempt hrun.sound _ _ hx id hyields
    | @abort call fault h asked fences ready => cases call <;> simp [Exchange.yields] at hyields

def retried : List Exchange × Session :=
  runCalls (initial steadyHost) [.enqueueBatch [plainRequest], .claim "default" "a" 30000,
    .fail 1 "a" 1 none (some 0), .claim "default" "b" 30000, .complete 1 "b" 2 none]

theorem retried_run : Run (initial steadyHost) retried.1 retried.2 := runCalls_run _ _

theorem attempt_accounting_retried : ∃ o, retried.2.db.outcomes.get? 1 = some o ∧
    o.currentAttempt = 2 ∧ retried.2.db.attemptRows 1 1 = 1 ∧ retried.2.db.attemptRows 1 2 ≤ 1 := by
  have ho : (retried.2.db.outcomes.get? 1).any (·.currentAttempt = 2) = true := by decide +kernel
  have ht : (retried.2.db.tasks.get? 1).isSome = true := by decide +kernel
  obtain ⟨o, ho, hcur⟩ := (Option.any_eq_true _ _).mp ho
  obtain ⟨t, ht⟩ := Option.isSome_iff_exists.mp ht
  have hcur : o.currentAttempt = 2 := of_decide_eq_true hcur
  obtain ⟨-, hearlier, hle, -⟩ := (attempt_accounting retried_run).2.1 1 o t ho ht
  rw [hcur] at hearlier hle
  exact ⟨o, ho, hcur, hearlier 1 le_rfl (by decide), hle⟩

/-! ## Execution time -/

/-- When no attempt times out between the guard of a release and the reading that charges its time, every
row of a task with an execution timeout has execution time left, so the claim does not filter it. -/
theorem execution_time_left (h : Punctual host s) {id : TaskId} {r : Runtime} {t : Task}
    {timeoutMs : Nat} (hr : s.db.runtime.get? id = some r) (ht : s.db.tasks.get? id = some t)
    (htimeout : t.executionTimeoutMs = some timeoutMs) : r.executionUsedMs < timeoutMs :=
  (h.within id r t timeoutMs hr ht htimeout).left

def briefRequest : Request := { plainRequest with executionTimeoutMs := some 1 }

def jumpHost : Host := { steadyHost with clock := fun n => if n ≤ 10 then 0 else 2000 }

theorem jumpHost_monotone : jumpHost.Monotone := by
  intro m n hmn
  change (if m ≤ 10 then (0 : Int) else 2000) ≤ if n ≤ 10 then 0 else 2000
  split <;> split <;> omega

/-- The jump falls between the guard of the release and the reading that charges the time: the row is
ready with more time used than the timeout allows. -/
def usedUp : List Exchange × Session :=
  runCalls (initial jumpHost) [.enqueueBatch [briefRequest], .claim "default" "a" 30000, .releaseOwned 1 "a" 1]

theorem release_uses_up_time : jumpHost.Monotone ∧ Run (initial jumpHost) usedUp.1 usedUp.2 ∧
    ∃ r t, usedUp.2.db.runtime.get? 1 = some r ∧ r.state = .ready ∧
      usedUp.2.db.tasks.get? 1 = some t ∧ t.executionTimeoutMs = some 1 ∧ 1 ≤ r.executionUsedMs := by
  refine ⟨jumpHost_monotone, runCalls_run _ _, ?_⟩
  have hr : (usedUp.2.db.runtime.get? 1).any (fun r => r.state = .ready ∧ 1 ≤ r.executionUsedMs) =
      true := by decide +kernel
  have ht : (usedUp.2.db.tasks.get? 1).any (·.executionTimeoutMs = some 1) = true := by decide +kernel
  obtain ⟨r, hr, hready⟩ := (Option.any_eq_true _ _).mp hr
  obtain ⟨t, ht, htimeout⟩ := (Option.any_eq_true _ _).mp ht
  obtain ⟨hs, hused⟩ := of_decide_eq_true hready
  exact ⟨r, t, hr, hs, ht, of_decide_eq_true htimeout, hused⟩

theorem Punctual.call (h : Punctual host s) (call : Call) (htime : call.InTime s) :
    Punctual host (runCalls s [call]).2 := by
  unfold runCalls
  split
  · rename_i hx
    exact h.step htime (.commit hx)
  · exact h

def briefLife : Session := (runCalls (runCalls (initial steadyHost) [.enqueueBatch [briefRequest]]).2
    [.claim "default" "a" 30000]).2

theorem execution_time_left_released : ∃ r, (runCalls briefLife [.releaseOwned 1 "a" 1]).2.db.runtime.get? 1 = some r ∧
      r.state = .ready ∧ r.executionUsedMs < 1 := by
  have hlife : Punctual steadyHost briefLife :=
    (Punctual.initial.call (.enqueueBatch [briefRequest]) trivial).call (.claim "default" "a" 30000) trivial
  have htime : (Call.releaseOwned 1 "a" 1).InTime briefLife := by
    have h : (briefLife.db.runtime.get? 1).all (fun r => r.attemptTimeoutAt.all
        (briefLife.host.clock (briefLife.asked + 8) < ·)) = true := by decide +kernel
    intro r timeoutAt hr _ htimeout _
    rw [hr, Option.all_some, htimeout, Option.all_some] at h
    exact of_decide_eq_true h
  have hr : ((runCalls briefLife [.releaseOwned 1 "a" 1]).2.db.runtime.get? 1).any
      (fun r => r.state = .ready) = true := by decide +kernel
  have ht : ((runCalls briefLife [.releaseOwned 1 "a" 1]).2.db.tasks.get? 1).any
      (·.executionTimeoutMs = some 1) = true := by decide +kernel
  obtain ⟨r, hr, hs⟩ := (Option.any_eq_true _ _).mp hr
  obtain ⟨t, ht, htimeout⟩ := (Option.any_eq_true _ _).mp ht
  exact ⟨r, hr, of_decide_eq_true hs, execution_time_left (hlife.call _ htime) hr ht
    (of_decide_eq_true htimeout)⟩

/-! ## Durable boundaries -/

end Workhorse
