import Workhorse.Enqueue.Written

/-!
# The law of retry delays

Which delays the accepted policies give along a chain of attempts. A policy that is normalized once is its own
normal form.
-/

namespace Workhorse

variable {overrides : List (Option Int)}

/-- A policy as `normalize_retry_policy_v1` returns it. -/
def RetryPolicy.written : RetryPolicy → WrittenPolicy
  | .fixed delay => [("type", .text "fixed"), ("delayMs", .number delay)]
  | .exponential initial multiplier maximum =>
    [("type", .text "exponential"), ("initialDelayMs", .number initial), ("multiplier", .number multiplier),
      ("maxDelayMs", .number maximum)]
  | .decorrelatedJitter base maximum =>
    [("type", .text "decorrelated-jitter"), ("baseDelayMs", .number base), ("maxDelayMs", .number maximum)]

/-- `retry_delay_v1`, on the policy as it is stored. -/
def retryDelayV1 (id : TaskId) (attempt : Nat) (policy : Option WrittenPolicy) (previous : Option Nat)
    (override : Option Int) (omitted : OmittedSource) (s : Session) : Except String (RetryDelay × Session) := do
  let policy ← policy.mapM WrittenPolicy.normalize
  if attempt < 1 then throw "task identity and attempt are required"
  else pure (retryDelay id attempt policy previous override omitted s)

/-- The delays of successive attempts. Each attempt hands its `next_previous_retry_delay_ms` to the next. -/
def retryChain (id : TaskId) (policy : WrittenPolicy) (omitted : OmittedSource) (s : Session) :
    Nat → Option Nat → List (Option Int) → Except String (List RetryDelay)
  | _, _, [] => pure []
  | attempt, previous, override :: overrides => do
    let (delay, _) ← retryDelayV1 id attempt (some policy) previous override omitted s
    let delays ← retryChain id policy omitted s (attempt + 1) delay.nextPreviousRetryDelayMs overrides
    pure (delay :: delays)

def handedOver (previous : Option Nat) (delays : List RetryDelay) : Nat → Option Nat
  | 0 => previous
  | i + 1 => delays[i]?.map (·.delayMs)

/-! ## Normal forms -/

namespace WrittenPolicy

theorem whole_iff {q low high : ℚ} : whole q low high = true ↔ q = q.floor ∧ low ≤ q ∧ q ≤ high := by
  simp [whole, and_assoc]

theorem cast_toNat_floor {q low high : ℚ} (hlow : 0 ≤ low) (h : whole q low high = true) :
    ((q.floor.toNat : Nat) : ℚ) = q := by
  obtain ⟨hq, hle, -⟩ := whole_iff.mp h
  have hpos : 0 ≤ q.floor := Rat.le_floor_iff.mpr (by simpa using hlow.trans hle)
  have hcast : ((q.floor.toNat : Nat) : Int) = q.floor := Int.toNat_of_nonneg hpos
  calc ((q.floor.toNat : Nat) : ℚ) = (((q.floor.toNat : Nat) : Int) : ℚ) := by norm_cast
    _ = q := by rw [hcast, ← hq]

theorem toNat_floor_bounds {q : ℚ} (low high : Nat) (h : whole q low high = true) :
    low ≤ q.floor.toNat ∧ q.floor.toNat ≤ high := by
  obtain ⟨-, hle, hge⟩ := whole_iff.mp h
  rw [← cast_toNat_floor (Nat.cast_nonneg low) h] at hle hge
  exact ⟨by exact_mod_cast hle, by exact_mod_cast hge⟩

@[simp] theorem floor_cast (n : Nat) : (n : ℚ).floor = (n : Int) := by
  exact_mod_cast Rat.floor_intCast n

theorem whole_cast {n low high : Nat} (hlow : low ≤ n) (hhigh : n ≤ high) : whole n low high = true :=
  whole_iff.mpr ⟨by simp, by exact_mod_cast hlow, by exact_mod_cast hhigh⟩

end WrittenPolicy

open WrittenPolicy

def RetryPolicy.Bounded : RetryPolicy → Prop
  | .fixed delay => delay ≤ maxDelayMs
  | .exponential initial multiplier maximum =>
    1 ≤ multiplier ∧ multiplier ≤ 100 ∧ initial ≤ maximum ∧ maximum ≤ maxDelayMs
  | .decorrelatedJitter base maximum => base ≤ maximum ∧ maximum ≤ maxDelayMs

theorem WrittenPolicy.normalize_bounded {w : WrittenPolicy} {p : RetryPolicy} (h : w.normalize = .ok p) :
    p.Bounded := by
  unfold normalize at h
  split at h
  · split at h
    · split at h
      · cases h
      · rename_i hwhole
        cases h
        exact (toNat_floor_bounds 0 maxDelayMs (by simpa using hwhole)).2
    · cases h
  · split at h
    · rename_i initial multiplier maximum _ _ _ _
      split at h
      · cases h
      · split at h
        · cases h
        · split at h
          · cases h
          · rename_i hinitial hmultiplier hmaximum
            cases h
            simp only [Bool.or_eq_true, not_or, Bool.not_eq_true, Bool.not_eq_false', decide_eq_false_iff_not,
              not_lt] at hinitial hmultiplier hmaximum
            obtain ⟨hmaximum, hle⟩ := hmaximum
            have hinitial' := cast_toNat_floor le_rfl hinitial
            have hmaximum' := cast_toNat_floor le_rfl hmaximum
            obtain ⟨hone, hhundred⟩ := toNat_floor_bounds 1 100 (by simpa using hmultiplier)
            obtain ⟨-, hlimit⟩ := toNat_floor_bounds 0 maxDelayMs (by simpa using hmaximum)
            refine ⟨hone, hhundred, ?_, hlimit⟩
            rw [← hinitial', ← hmaximum'] at hle
            exact_mod_cast hle
    · cases h
  · split at h
    · split at h
      · cases h
      · split at h
        · cases h
        · rename_i hbase hmaximum
          cases h
          simp only [Bool.or_eq_true, not_or, Bool.not_eq_true, Bool.not_eq_false', decide_eq_false_iff_not,
            not_lt] at hbase hmaximum
          obtain ⟨hmaximum, hle⟩ := hmaximum
          have hbase' := cast_toNat_floor le_rfl hbase
          have hmaximum' := cast_toNat_floor le_rfl hmaximum
          obtain ⟨-, hlimit⟩ := toNat_floor_bounds 0 maxDelayMs (by simpa using hmaximum)
          refine ⟨?_, hlimit⟩
          rw [← hbase', ← hmaximum'] at hle
          exact_mod_cast hle
    · cases h
  · cases h

theorem RetryPolicy.Bounded.normalize_written {p : RetryPolicy} (h : p.Bounded) : p.written.normalize = .ok p := by
  cases p with
  | fixed delay =>
    have hwhole := whole_cast (Nat.zero_le delay) h
    simp only [Nat.cast_zero] at hwhole
    simp [written, WrittenPolicy.normalize, hasExactly, WrittenPolicy.number, List.lookup_cons, hwhole, pure,
      Except.pure]
  | exponential initial multiplier maximum =>
    obtain ⟨hone, hhundred, hle, hlimit⟩ := h
    have hinitial := whole_cast (Nat.zero_le initial) (hle.trans hlimit)
    have hmultiplier := whole_cast hone hhundred
    have hmaximum := whole_cast (Nat.zero_le maximum) hlimit
    have hnot : ¬((maximum : ℚ) < initial) := by simpa using hle
    simp only [Nat.cast_zero, Nat.cast_one, Nat.cast_ofNat] at hinitial hmultiplier hmaximum
    simp [written, WrittenPolicy.normalize, hasExactly, WrittenPolicy.number, List.lookup_cons, hinitial, hmultiplier,
      hmaximum, hnot, pure, Except.pure]
  | decorrelatedJitter base maximum =>
    obtain ⟨hle, hlimit⟩ := h
    have hbase := whole_cast (Nat.zero_le base) (hle.trans hlimit)
    have hmaximum := whole_cast (Nat.zero_le maximum) hlimit
    have hnot : ¬((maximum : ℚ) < base) := by simpa using hle
    simp only [Nat.cast_zero] at hbase hmaximum
    simp [written, WrittenPolicy.normalize, hasExactly, WrittenPolicy.number, List.lookup_cons, hbase, hmaximum, hnot,
      pure, Except.pure]

/-! ## The chain of attempts -/

/-- The two nested remainders of the source, which round towards zero, are one remainder that is never negative. -/
theorem tmod_add_tmod {hash width : Int} (h : 0 < width) : (hash.tmod width + width).tmod width = hash % width := by
  have hlower := Int.lt_tmod_of_pos hash h
  have hsplit := Int.tmod_add_mul_tdiv hash width
  rw [Int.tmod_eq_emod_of_nonneg (by omega), Int.add_emod_right, Int.emod_eq_emod_iff_emod_sub_eq_zero]
  exact Int.emod_eq_zero_of_dvd ⟨-hash.tdiv width, by linarith⟩

theorem jitterDelay_bounds {base maximum : Nat} (hle : base ≤ maximum) (previous : Option Nat) (hash : Int) :
    base ≤ jitterDelay base maximum previous hash ∧
      jitterDelay base maximum previous hash ≤ min maximum (max base (3 * previous.getD base)) := by
  have hbase : base ≤ min maximum (max base (previous.getD base * 3)) := le_min hle (le_max_left _ _)
  rw [mul_comm 3, jitterDelay]
  generalize min maximum (max base (previous.getD base * 3)) = upper at hbase
  split
  · exact ⟨le_rfl, hbase⟩
  · have hwidth : (0 : Int) < (upper - base + 1 : Nat) := by omega
    simp only [tmod_add_tmod hwidth]
    have hnonneg := Int.emod_nonneg hash hwidth.ne'
    have hlt := Int.emod_lt_of_pos hash hwidth
    omega

section Chain

variable {w : WrittenPolicy} {p : RetryPolicy} {id : TaskId} {omitted : OmittedSource} {s : Session}

theorem retryDelayV1_eq (hw : w.normalize = .ok p) (n : Nat) (previous : Option Nat) (override : Option Int) :
    retryDelayV1 id (n + 1) (some w) previous override omitted s =
      .ok (retryDelay id (n + 1) (some p) previous override omitted s) := by
  simp [retryDelayV1, hw, pure, Except.pure, bind, Except.bind, Functor.map, Except.map]

def delaysFrom (id : TaskId) (p : RetryPolicy) (omitted : OmittedSource) (s : Session) :
    Nat → Option Nat → List (Option Int) → List RetryDelay
  | _, _, [] => []
  | n, previous, override :: overrides =>
    let delay := (retryDelay id (n + 1) (some p) previous override omitted s).1
    delay :: delaysFrom id p omitted s (n + 1) delay.nextPreviousRetryDelayMs overrides

theorem retryChain_eq (hw : w.normalize = .ok p) (n : Nat) (previous : Option Nat) (overrides : List (Option Int)) :
    retryChain id w omitted s (n + 1) previous overrides = .ok (delaysFrom id p omitted s n previous overrides) := by
  induction overrides generalizing n previous with
  | nil => rfl
  | cons override overrides ih => simp [retryChain, delaysFrom, retryDelayV1_eq hw, ih, bind, Except.bind, pure,
      Except.pure]

theorem delaysFrom_getElem? (n : Nat) (previous : Option Nat) {i : Nat}
    {override : Option Int} (h : overrides[i]? = some override) :
    let delays := delaysFrom id p omitted s n previous overrides
    delays[i]? = some (retryDelay id (n + i + 1) (some p)
      (if i = 0 then previous else delays[i - 1]?.bind (·.nextPreviousRetryDelayMs)) override omitted s).1 := by
  induction overrides generalizing n previous i with
  | nil => simp at h
  | cons first overrides ih =>
    cases i with
    | zero =>
      simp only [List.getElem?_cons_zero, Option.some.injEq] at h
      simp [delaysFrom, h]
    | succ i =>
      simp only [List.getElem?_cons_succ] at h
      have hrest := ih (n + 1) (retryDelay id (n + 1) (some p) previous first omitted s).1.nextPreviousRetryDelayMs h
      simp only [delaysFrom, List.getElem?_cons_succ, hrest, Nat.add_right_comm n 1 i, Nat.add_assoc n i 1]
      cases i with
      | zero => simp
      | succ i => simp

theorem delaysFrom_exponential {initial multiplier maximum n : Nat} {previous : Option Nat}
    {i : Nat} (h : overrides[i]? = some none) :
    (delaysFrom id (.exponential initial multiplier maximum) omitted s n previous overrides)[i]?.map (·.delayMs) =
      some (min maximum (initial * multiplier ^ (n + i))) := by
  rw [delaysFrom_getElem? n previous h]
  simp [retryDelay]

theorem delaysFrom_jitter {base maximum n : Nat} (hle : base ≤ maximum) {previous : Option Nat}
    {i : Nat} (h : overrides[i]? = some none) :
    let delays := delaysFrom id (.decorrelatedJitter base maximum) omitted s n previous overrides
    ∃ delay, delays[i]?.map (·.delayMs) = some delay ∧ base ≤ delay ∧
      delay ≤ min maximum (max base (3 * (handedOver previous delays i).getD base)) := by
  intro delays
  have hi : delays[i]? = _ := delaysFrom_getElem? n previous h
  have hhanded : (if i = 0 then previous else delays[i - 1]?.bind (·.nextPreviousRetryDelayMs)) =
      handedOver previous delays i := by
    cases i with
    | zero => rfl
    | succ i =>
      have hlt : i < overrides.length := Nat.lt_of_succ_lt (List.getElem?_eq_some_iff.mp h).1
      have hbefore : delays[i]? = _ := delaysFrom_getElem? n previous (List.getElem?_eq_getElem hlt)
      simp [handedOver, hbefore, retryDelay]
  rw [hhanded] at hi
  simp only [hi, Option.map_some, Option.some.injEq, exists_eq_left']
  exact jitterDelay_bounds hle _ _

theorem min_pow_monotone {initial multiplier maximum : Nat} (h : 1 ≤ multiplier) :
    Monotone fun n => min maximum (initial * multiplier ^ n) := by
  intro m n hmn
  exact min_le_min_left _ (Nat.mul_le_mul_left _ (Nat.pow_le_pow_right h hmn))

end Chain

/-- **Retry delays.** The exponential delay grows with the attempt up to its maximum. Each delay of
`decorrelated-jitter` stays between the base and three times the delay before it. A normal form is its own normal
form and gives the same delays. -/
theorem retry_delay_law {w : WrittenPolicy} {p : RetryPolicy} (hw : w.normalize = .ok p) (id : TaskId)
    (omitted : OmittedSource) (s : Session) :
    (∀ initial multiplier maximum, p = .exponential initial multiplier maximum →
      ∃ delay : Nat → Nat, Monotone delay ∧ (∀ n, delay n ≤ maximum) ∧
        (∀ n, initial * multiplier ^ n ≤ maximum → delay n = initial * multiplier ^ n) ∧
        (∀ n, maximum ≤ initial * multiplier ^ n → delay n = maximum) ∧
        ∀ n previous overrides, ∃ delays, retryChain id w omitted s (n + 1) previous overrides = .ok delays ∧
          ∀ i, overrides[i]? = some none → delays[i]?.map (·.delayMs) = some (delay (n + i))) ∧
    (∀ base maximum, p = .decorrelatedJitter base maximum →
      ∀ n previous overrides, ∃ delays, retryChain id w omitted s (n + 1) previous overrides = .ok delays ∧
        ∀ i, overrides[i]? = some none → ∃ delay, delays[i]?.map (·.delayMs) = some delay ∧ base ≤ delay ∧
          delay ≤ min maximum (max base (3 * (handedOver previous delays i).getD base))) ∧
    p.written.normalize = .ok p ∧
    ∀ attempt previous override, retryDelayV1 id attempt (some p.written) previous override omitted s =
      retryDelayV1 id attempt (some w) previous override omitted s := by
  have hbounded := WrittenPolicy.normalize_bounded hw
  have hwritten := hbounded.normalize_written
  refine ⟨?_, ?_, hwritten, ?_⟩
  · rintro initial multiplier maximum rfl
    refine ⟨_, min_pow_monotone hbounded.1, fun n => min_le_left _ _, fun n => min_eq_right,
      fun n => min_eq_left, fun n previous overrides => ?_⟩
    exact ⟨_, retryChain_eq hw n previous overrides, fun i hi => delaysFrom_exponential hi⟩
  · rintro base maximum rfl n previous overrides
    exact ⟨_, retryChain_eq hw n previous overrides, fun i hi => delaysFrom_jitter hbounded.1 hi⟩
  · intro attempt previous override
    simp [retryDelayV1, hw, hwritten]

theorem retry_delay_law_exponential : let w : WrittenPolicy := (RetryPolicy.exponential 1000 2 60000).written
    (w.normalize = .ok (.exponential 1000 2 60000)) ∧
      ∀ (id : TaskId) (s : Session), ∃ delay : Nat → Nat, Monotone delay ∧ delay 3 = 8000 ∧ delay 6 = 60000 ∧
        ∃ delays, retryChain id w .legacyHandler s 1 none [none, some 5, none] = .ok delays ∧
          delays[2]?.map (·.delayMs) = some (delay 2) := by
  have hw : (RetryPolicy.exponential 1000 2 60000).written.normalize = .ok (.exponential 1000 2 60000) :=
    RetryPolicy.Bounded.normalize_written (by simp [RetryPolicy.Bounded, maxDelayMs])
  refine ⟨hw, fun id s => ?_⟩
  obtain ⟨delay, hmono, -, hbelow, habove, hchain⟩ := (retry_delay_law hw id .legacyHandler s).1 1000 2 60000 rfl
  obtain ⟨delays, hdelays, hat⟩ := hchain 0 none [none, some 5, none]
  exact ⟨delay, hmono, hbelow 3 (by norm_num), habove 6 (by norm_num), delays, hdelays, hat 2 rfl⟩

end Workhorse
