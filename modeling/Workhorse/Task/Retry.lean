import Mathlib.Algebra.Group.Nat.Defs
import Workhorse.Schema.Db

/-!
# Retry policies

`normalize_retry_policy_v1` and `retry_delay_v1`.
-/

namespace Workhorse

/-- The longest delay, interval and execution budget: one year in milliseconds. -/
def maxDelayMs : Nat := 31536000000

/-- `normalize_retry_policy_v1`, on a policy whose members have their types. -/
def normalizeRetryPolicy (policy : Option RetryPolicy) : Tx (Option RetryPolicy) := do
  match policy with
  | none => pure ()
  | some (.fixed delay) =>
    ensure (delay ≤ maxDelayMs) "fixed delayMs must be an integer between 0 and 31536000000"
  | some (.exponential initial multiplier maximum) =>
    ensure (initial ≤ maxDelayMs)
      "exponential initialDelayMs must be an integer between 0 and 31536000000"
    ensure (1 ≤ multiplier ∧ multiplier ≤ 100)
      "exponential multiplier must be an integer between 1 and 100"
    ensure (maximum ≤ maxDelayMs ∧ initial ≤ maximum)
      "exponential maxDelayMs must be an integer between initialDelayMs and 31536000000"
  | some (.decorrelatedJitter base maximum) =>
    ensure (base ≤ maxDelayMs)
      "decorrelated-jitter baseDelayMs must be an integer between 0 and 31536000000"
    ensure (maximum ≤ maxDelayMs ∧ base ≤ maximum)
      "decorrelated-jitter maxDelayMs must be an integer between baseDelayMs and 31536000000"
  pure policy

inductive OmittedSource
  | legacyHandler
  | leaseRecoveryImmediate
  | executionTimeoutImmediate
deriving DecidableEq

/-- The result of `retry_delay_v1`. -/
structure RetryDelay where
  delayMs : Nat
  nextPreviousRetryDelayMs : Option Nat

/-- The delay of `decorrelated-jitter`, from a 64-bit hash. -/
def jitterDelay (base maximum : Nat) (previous : Option Nat) (hash : Int) : Nat :=
  let upper := min maximum (max base (previous.getD base * 3))
  if upper = base then base
  else
    let width : Int := (upper - base + 1 : Nat)
    base + ((hash.tmod width + width).tmod width).toNat

/-- `retry_delay_v1`. -/
def retryDelay (id : TaskId) (attempt : Nat) (policy : Option RetryPolicy)
    (previous : Option Nat) (override : Option Int) (omitted : OmittedSource) (s : Session) :
    RetryDelay × Session :=
  let delay : Nat × Session :=
    match override, policy with
    | some ms, _ => (ms.toNat, s)
    | none, none =>
      match omitted with
      | .legacyHandler =>
        (((attempt - 1) ^ 4 + 15 + (s.host.random s.asked : Nat) * attempt) * 1000, s.ask)
      | .leaseRecoveryImmediate => (0, s)
      | .executionTimeoutImmediate => (0, s)
    | none, some (.fixed ms) => (ms, s)
    | none, some (.exponential initial multiplier maximum) =>
      (min maximum (initial * multiplier ^ (attempt - 1)), s)
    | none, some (.decorrelatedJitter base maximum) =>
      (jitterDelay base maximum previous (s.host.hash id attempt previous), s)
  let next := match policy with
    | some (.decorrelatedJitter _ _) => some delay.1
    | _ => none
  (⟨delay.1, next⟩, delay.2)

@[simp] theorem retryDelay_db {id : TaskId} {attempt : Nat} {policy : Option RetryPolicy}
    {previous : Option Nat} {override : Option Int} {omitted : OmittedSource} {s : Session} :
    (retryDelay id attempt policy previous override omitted s).2.db = s.db := by
  unfold retryDelay
  rcases override with _ | ms
  · rcases policy with _ | p
    · cases omitted <;> rfl
    · cases p <;> rfl
  · rfl

end Workhorse
