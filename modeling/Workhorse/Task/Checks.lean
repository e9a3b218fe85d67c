import Workhorse.Admission.Claim
import Workhorse.Task.Waits

/-!
# Table constraints of live rows

The `CHECK` constraints of `task_runtime` and `fast_task_runtime` that tie the columns of a row to its
state, and what they say about the rows that the transitions write.
-/

namespace Workhorse

namespace Runtime

variable {fence : Nat}

def unleased (r : Runtime) : Bool :=
  r.workerId.isNone && r.acquiredAt.isNone && r.heartbeatAt.isNone && r.expiresAt.isNone &&
    r.attemptTimeoutAt.isNone && r.fenceToken = 0

/-- `task_runtime_state_shape_check`. -/
def shapeCheck (r : Runtime) : Bool :=
  match r.state with
  | .blocked => r.readyAt.isNone && r.sequence.isNone && r.unleased && r.waitName.isNone &&
      r.attemptStartedAt.isNone
  | .scheduled => r.readyAt.isNone && r.sequence.isNone && r.unleased &&
      r.waitName.isSome == r.attemptStartedAt.isSome
  | .ready => r.readyAt.isSome && r.sequence.isSome && r.unleased && r.waitName.isNone
  | .active => r.readyAt.isNone && r.sequence.isNone && r.workerId.isSome && r.acquiredAt.isSome &&
      r.heartbeatAt.isSome && r.expiresAt.isSome && 0 < r.fenceToken && r.waitName.isNone &&
      r.attemptStartedAt.isSome

def cancelCheck (r : Runtime) : Bool :=
  (r.cancelRequestedAt.isNone && r.cancelRequestedBy.isNone && r.cancelReason.isNone) ||
    (r.state == .active && r.cancelRequestedAt.isSome)

/-- `task_runtime_dependency_counter_check`. -/
def counterCheck (r : Runtime) : Bool := r.state == .blocked || (r.pendingPrerequisites == 0 && !r.dependencyRejected)

/-- The constraints of `task_runtime` that involve the state. -/
structure Valid (r : Runtime) : Prop where
  shape : r.shapeCheck = true
  cancel : r.cancelCheck = true
  counter : r.counterCheck = true

/-- What a transition of a row that is not blocked may do: the row stays valid, and only an active row
is active after it, under the same token. -/
structure Becomes (r r' : Runtime) : Prop where
  before : r.state ≠ .blocked
  after : r'.state ≠ .blocked
  valid : r.Valid → r'.Valid
  held : r'.state = .active → r.state = .active ∧ r'.fenceToken = r.fenceToken ∧ r'.currentAttempt = r.currentAttempt

/-- The attempt has execution time left, and an active row times out when it is used up. -/
structure Within (r : Runtime) (timeoutMs : Nat) : Prop where
  left : r.executionUsedMs < timeoutMs
  timeout : r.state = .active → ∃ acquired, r.acquiredAt = some acquired ∧
    r.attemptTimeoutAt = some (acquired + milliseconds ((timeoutMs : Int) - r.executionUsedMs))

structure Revises (r r' : Runtime) : Prop extends Becomes r r' where
  within : ∀ timeoutMs, r.Within timeoutMs → r'.Within timeoutMs
  attempt : r'.currentAttempt = r.currentAttempt

structure Retries (r r' : Runtime) : Prop extends Becomes r r' where
  within : ∀ timeoutMs, r.Within timeoutMs → r'.Within timeoutMs
  attempt : r'.currentAttempt = r.currentAttempt + 1

variable {r : Runtime}

theorem Within.of_used {r' : Runtime} {timeoutMs : Nat} (h : r.Within timeoutMs)
    (hused : r'.executionUsedMs = r.executionUsedMs) (hs : r'.state ≠ .active) :
    r'.Within timeoutMs :=
  ⟨hused ▸ h.left, fun h' => absurd h' hs⟩

/-- Charging the time since the claim leaves some as long as the attempt has not timed out. -/
theorem Within.usedAt_lt {timeoutMs : Nat} {now : Time} (h : r.Within timeoutMs)
    (hs : r.state = .active) (hnow : ∀ t, r.attemptTimeoutAt = some t → now < t) :
    r.usedAt now < timeoutMs := by
  obtain ⟨acquired, hacquired, htimeout⟩ := h.timeout hs
  have hbefore := hnow _ htimeout
  have hleft := h.left
  have harith : ∀ (a n : Int) (u ms : Nat), n < a + ((ms : Int) - u) * 1000 → u < ms →
      u + ((n - a) / 1000).toNat < ms := by
    intro a n u ms hn hu
    omega
  refine lt_of_le_of_lt (Nat.min_le_right _ _) ?_
  rw [hacquired]
  exact harith acquired now _ _ hbefore hleft

theorem Valid.expires (h : r.Valid) (hs : r.state = .active) : ∃ t, r.expiresAt = some t := by
  have := h.shape
  simp only [shapeCheck, hs, Bool.and_eq_true, Option.isSome_iff_exists] at this
  exact this.1.1.1.2

theorem Valid.notCanceled (h : r.Valid) (hc : r.cancelRequestedAt = none) :
    r.cancelRequestedBy = none ∧ r.cancelReason = none := by
  have := h.cancel
  simpa [cancelCheck, hc] using this

theorem ownedBy_iff {worker : String} : r.ownedBy worker fence = true ↔
    r.state = .active ∧ r.workerId = some worker ∧ r.fenceToken = fence := by
  simp [ownedBy, and_assoc]

/-! ## The rows that transitions write -/

theorem Revises.renewed (hs : r.state = .active) (now : Time) (leaseMs : Nat) : r.Revises (r.renewed now leaseMs) := by
  unfold Runtime.renewed
  split
  · refine ⟨⟨by simp [hs], by simp [hs], fun h => ⟨?_, ?_, ?_⟩, fun _ => ⟨hs, rfl, rfl⟩⟩,
      fun _ h => ⟨h.left, h.timeout⟩, rfl⟩
    · have := h.shape
      simp_all [shapeCheck]
    · exact h.cancel
    · exact h.counter
  · exact ⟨⟨by simp [hs], by simp [hs], id, fun _ => ⟨hs, rfl, rfl⟩⟩, fun _ h => h, rfl⟩

theorem Valid.released (h : r.Valid) (hc : r.cancelRequestedAt = none) {r' : Runtime}
    (hcancel : (r'.cancelRequestedAt, r'.cancelRequestedBy, r'.cancelReason) =
      (r.cancelRequestedAt, r.cancelRequestedBy, r.cancelReason))
    (hs : r.state ≠ .blocked)
    (hcounter : (r'.pendingPrerequisites, r'.dependencyRejected) = (r.pendingPrerequisites, r.dependencyRejected))
    (hshape : r'.shapeCheck = true) : r'.Valid := by
  simp only [Prod.mk.injEq] at hcancel hcounter
  refine ⟨hshape, ?_, ?_⟩
  · simp [cancelCheck, hcancel, hc, h.notCanceled hc]
  · have := h.counter
    simp_all [counterCheck]

theorem Retries.retried (hs : r.state = .active) (hc : r.cancelRequestedAt = none)
    (runAt readyAt : Time) {sequence : Option Nat} {delay : RetryDelay}
    (hseq : sequence.isSome = true ↔ delay.delayMs = 0) (error : Option Envelope) :
    r.Retries (r.retried runAt readyAt sequence delay error) := by
  have hb : r.state ≠ .blocked := by simp [hs]
  have hs' : (r.retried runAt readyAt sequence delay error).state ≠ .active := by
    by_cases hd : delay.delayMs = 0 <;> simp [Runtime.retried, hd]
  refine ⟨⟨hb, ?_, fun h => h.released hc rfl hb rfl ?_, fun h => absurd h hs'⟩,
    fun _ h => ⟨Nat.zero_lt_of_lt h.left, fun h => absurd h hs'⟩, rfl⟩
  · by_cases hd : delay.delayMs = 0 <;> simp [Runtime.retried, hd]
  · by_cases hd : delay.delayMs = 0
    · simp [shapeCheck, unleased, Runtime.retried, hd, hseq]
    · simp [shapeCheck, unleased, Runtime.retried, hd, ← Option.not_isSome_iff_eq_none, hseq]

theorem Revises.suspended (hs : r.state = .active) (hc : r.cancelRequestedAt = none) (name : String)
    (runAt : Time) {now : Time} (hnow : ∀ t, r.attemptTimeoutAt = some t → now < t)
    (deadlineAt : Option Time) : r.Revises (r.suspended name runAt now deadlineAt) := by
  have hb : r.state ≠ .blocked := by simp [hs]
  refine ⟨⟨hb, by simp [Runtime.suspended], fun h => h.released hc rfl hb rfl ?_,
    by simp [Runtime.suspended]⟩, fun _ h => ⟨h.usedAt_lt hs hnow, by simp [Runtime.suspended]⟩, rfl⟩
  have := h.shape
  simp_all [shapeCheck, unleased, Runtime.suspended]

theorem Valid.scheduled (h : r.Valid) (hs : r.state = .scheduled) : r.cancelRequestedAt = none := by
  have := h.cancel
  simp_all [cancelCheck]

theorem Revises.ready (hs : r.state = .scheduled) (runAt readyAt : Time) (sequence : Nat)
    (deadlineAt : Option Time) : r.Revises { r with
      state := .ready, runAt, readyAt := some readyAt, sequence := some sequence, waitName := none
      deadlineAt } := by
  have hb : r.state ≠ .blocked := by simp [hs]
  refine ⟨⟨hb, by simp, fun h => h.released (h.scheduled hs) rfl hb rfl ?_, by simp⟩,
    fun _ h => h.of_used rfl (by simp), rfl⟩
  have := h.shape
  simp_all [shapeCheck, unleased]

theorem Revises.cancelRequested (hs : r.state = .active) (now : Time) (by_ reason : Option String) : r.Revises { r with
      cancelRequestedAt := some now, cancelRequestedBy := by_, cancelReason := reason } := by
  refine ⟨⟨by simp [hs], by simp [hs], fun h => ⟨?_, ?_, ?_⟩, fun _ => ⟨hs, rfl, rfl⟩⟩,
    fun _ h => ⟨h.left, h.timeout⟩, rfl⟩
  · have := h.shape
    simp_all [shapeCheck]
  · simp [cancelCheck, hs]
  · exact h.counter

theorem Becomes.released (hs : r.state = .active) (hc : r.cancelRequestedAt = none)
    (runAt readyAt : Time) (sequence used : Nat) : r.Becomes { r with
      state := .ready, fenceToken := 0, runAt, readyAt := some readyAt, sequence := some sequence
      workerId := none, acquiredAt := none, heartbeatAt := none, expiresAt := none, waitName := none
      executionUsedMs := used, attemptTimeoutAt := none, error := none } := by
  have hb : r.state ≠ .blocked := by simp [hs]
  refine ⟨hb, by simp, fun h => h.released hc rfl hb rfl ?_, by simp⟩
  simp [shapeCheck, unleased]

theorem Within.claimed {timeoutMs : Nat} (h : r.Within timeoutMs) (worker : String) (fence : Nat)
    (now expires : Time) (shard : Option Nat) :
    (r.claimed worker fence now expires (some timeoutMs) shard).Within timeoutMs :=
  ⟨h.left, fun _ => ⟨now, rfl, rfl⟩⟩

theorem Valid.claimed (h : r.Valid) (hs : r.state = .ready) (worker : String)
    (hf : 0 < fence) (now expires : Time) (timeoutMs shard : Option Nat) :
    (r.claimed worker fence now expires timeoutMs shard).Valid := by
  have hc : r.cancelRequestedAt = none := by
    have := h.cancel
    simp_all [cancelCheck]
  refine h.released hc rfl (by simp [hs]) rfl ?_
  simp [shapeCheck, Runtime.claimed, hf]

end Runtime

namespace FastRuntime

/-- `fast_task_runtime_state_shape_check`. -/
def shapeCheck (r : FastRuntime) : Bool :=
  match r.state with
  | .ready => r.workerId.isNone && r.claimedAt.isNone && r.expiresAt.isNone &&
      r.attemptTimeoutAt.isNone && r.cancelRequestedAt.isNone && r.cancelRequestedBy.isNone &&
      r.cancelReason.isNone
  | .active => r.workerId.isSome && r.claimedAt.isSome && r.expiresAt.isSome && 0 < r.fenceToken &&
      (r.cancelRequestedAt.isSome || (r.cancelRequestedBy.isNone && r.cancelReason.isNone))

structure Becomes (r r' : FastRuntime) : Prop where
  valid : r.shapeCheck = true → r'.shapeCheck = true
  held : r'.state = .active → r.state = .active ∧ r'.fenceToken = r.fenceToken ∧ r'.attempt = r.attempt

variable {r : FastRuntime}

theorem ownedBy_iff {worker : String} : r.ownedBy worker fence = true ↔
    r.state = .active ∧ r.workerId = some worker ∧ r.fenceToken = fence := by
  simp [ownedBy, and_assoc]

theorem expires_of_shapeCheck (h : r.shapeCheck = true) (hs : r.state = .active) : ∃ t, r.expiresAt = some t := by
  simp only [shapeCheck, hs, Bool.and_eq_true, Option.isSome_iff_exists] at h
  exact h.1.1.2

theorem Becomes.renewed (hs : r.state = .active) (now : Time) (leaseMs : Nat) : r.Becomes (r.renewed now leaseMs) := by
  unfold FastRuntime.renewed
  split
  · refine ⟨fun h => ?_, fun _ => ⟨hs, rfl, rfl⟩⟩
    simp_all [shapeCheck]
  · exact ⟨id, fun _ => ⟨hs, rfl, rfl⟩⟩

theorem Becomes.ready (hs : r.state = .active) (hc : r.cancelRequestedAt = none) {r' : FastRuntime}
    (hs' : r'.state = .ready) (hcancel : (r'.cancelRequestedAt, r'.cancelRequestedBy, r'.cancelReason) =
      (r.cancelRequestedAt, r.cancelRequestedBy, r.cancelReason))
    (hlease : (r'.workerId, r'.claimedAt, r'.expiresAt, r'.attemptTimeoutAt) =
      (none, none, none, none)) : r.Becomes r' := by
  refine ⟨fun h => ?_, fun h => by rw [hs'] at h; cases h⟩
  simp only [Prod.mk.injEq] at hcancel hlease
  simp_all [shapeCheck]

theorem Becomes.rescheduled (hs : r.state = .ready) (runAt : Time) (sequence : Nat) :
    r.Becomes { r with runAt, sequence } := ⟨fun h => by simp_all [shapeCheck], fun h => by simp [hs] at h⟩

theorem Becomes.cancelRequested (hs : r.state = .active) (now : Time) (by_ reason : Option String) : r.Becomes { r with
      cancelRequestedAt := some now, cancelRequestedBy := by_, cancelReason := reason } :=
  ⟨fun h => by simp_all [shapeCheck], fun _ => ⟨hs, rfl, rfl⟩⟩

theorem shapeCheck_claimed (h : r.shapeCheck = true) (hs : r.state = .ready) (worker : String)
    (hf : 0 < fence) (now : Time) (leaseMs : Nat) : (r.claimed worker fence now leaseMs).shapeCheck = true := by
  simp_all [shapeCheck, FastRuntime.claimed]

end FastRuntime

end Workhorse
