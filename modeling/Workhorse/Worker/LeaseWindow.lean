import Mathlib.Tactic.Linarith
import Workhorse.Worker.Attempt
import Workhorse.Task.Renewals

/-!
# The local lease window is conservative

A renewal counts from the moment its request left, and the database grants it later than that. So the local window ends
no later than the lease, as long as the worker has not ended the attempt: `stop` closes the window without aborting.
-/

namespace Workhorse

theorem Lease.renewed_of_accepted {l : Lease} {now : Time} {ms : Nat} (hexpiry : l.expiresAt.isSome)
    (h : (l.renewed now ms).beat now = .accepted) : (l.renewed now ms).expiresAt = some (now + milliseconds ms) := by
  by_cases hr : l.renewable now = true
  · simp [renewed, hr]
  · have hverdict : l.verdict now = .accepted := by simpa [renewed, verdict, hr] using h
    exact absurd ((verdict_eq_accepted hexpiry).mp hverdict) hr

namespace TaskAttempt

variable {a : TaskAttempt} {leaseMs : Nat} {status : Status} {sentAt now later : Time}

/-- The window that a renewal leaves open, if it leaves one. -/
theorem renewLease_window {w : Time} (h : (a.renewLease leaseMs sentAt now later).leaseWindowEndsAt = some w) :
    a.leaseWindowEndsAt = some w ∨ w = sentAt + milliseconds leaseMs := by
  simp only [renewLease] at h
  split at h
  · exact .inl h
  · split at h
    · cases h
    · split at h
      · cases h
      · cases h
        exact .inr rfl

theorem renewLease_closed (h : (a.renewLease leaseMs sentAt now later).leaseWindowEndsAt = none) :
    (a.renewLease leaseMs sentAt now later).aborted = true ∨ a.leaseWindowEndsAt = none ∧
      a.heartbeatStopped = true := by
  simp only [renewLease] at h ⊢
  split at h
  · rename_i hstopped
    exact .inr ⟨h, hstopped⟩
  · rename_i hrunning
    rw [if_neg hrunning]
    split at h
    · rename_i hover
      rw [if_pos hover]
      exact .inl rfl
    · rename_i hopen
      rw [if_neg hopen]
      split at h
      · rename_i hlate
        rw [if_pos hlate]
        exact .inl rfl
      · cases h

theorem renewLease_aborted (h : a.aborted = true) : (a.renewLease leaseMs sentAt now later).aborted = true := by
  simp only [renewLease]
  split
  · exact h
  · split
    · rfl
    · split
      · rfl
      · exact h

theorem renewLease_over (h : a.windowOver now = true) (hrunning : a.heartbeatStopped = false) :
    (a.renewLease leaseMs sentAt now later).aborted = true := by
  simp [renewLease, hrunning, h, endLeaseWindow, abort]

theorem refreshOwnership_window {w : Time}
    (h : (a.refreshOwnership leaseMs status sentAt now later).leaseWindowEndsAt = some w) :
    a.leaseWindowEndsAt = some w ∨ status = .accepted ∧ w = sentAt + milliseconds leaseMs := by
  cases status with
  | accepted => exact (renewLease_window h).imp_right fun hw => ⟨rfl, hw⟩
  | cancelRequested | deadlineExceeded | timeoutExceeded => cases h
  | stale =>
    simp only [refreshOwnership] at h
    split at h
    · exact .inl h
    · cases h
  | notDue | busy | ready | scheduled | failed | released => exact .inl h

theorem refreshOwnership_closed
    (h : (a.refreshOwnership leaseMs status sentAt now later).leaseWindowEndsAt = none) :
    (a.refreshOwnership leaseMs status sentAt now later).aborted = true ∨ a.leaseWindowEndsAt = none := by
  cases status with
  | accepted => exact (renewLease_closed h).imp_right And.left
  | cancelRequested | deadlineExceeded | timeoutExceeded => exact .inl rfl
  | stale =>
    simp only [refreshOwnership] at h ⊢
    split at h
    · exact .inr h
    · rename_i hexpiring
      rw [if_neg hexpiring]
      exact .inl rfl
  | notDue | busy | ready | scheduled | failed | released => exact .inr h

theorem refreshOwnership_aborted (h : a.aborted = true) :
    (a.refreshOwnership leaseMs status sentAt now later).aborted = true := by
  cases status with
  | accepted => exact renewLease_aborted h
  | cancelRequested | deadlineExceeded | timeoutExceeded => rfl
  | stale =>
    simp only [refreshOwnership]
    split
    · exact h
    · rfl
  | notDue | busy | ready | scheduled | failed | released => exact h

def Over (a : TaskAttempt) (now : Time) : Prop := a.aborted = true ∨ a.windowOver now = true

theorem windowOver_mono (h : a.windowOver now = true) (hle : now ≤ later) : a.windowOver later = true := by
  simp only [windowOver, Option.any_eq_true, decide_eq_true_eq] at h ⊢
  obtain ⟨w, hw, hle'⟩ := h
  exact ⟨w, hw, hle'.trans hle⟩

theorem Over.mono (h : a.Over now) (hle : now ≤ later) : a.Over later := h.imp_right fun h => windowOver_mono h hle

/-- No reply reopens a window that has ended. -/
theorem Over.refreshOwnership (h : a.Over now) (hrunning : a.heartbeatStopped = false) (hle : now ≤ later) :
    (a.refreshOwnership leaseMs status sentAt now later).Over later := by
  cases status with
  | accepted =>
    cases h with
    | inl haborted => exact .inl (renewLease_aborted haborted)
    | inr hover => exact .inl (renewLease_over hover hrunning)
  | cancelRequested | deadlineExceeded | timeoutExceeded => exact .inl rfl
  | stale =>
    simp only [TaskAttempt.refreshOwnership]
    split
    · exact h.mono hle
    · exact .inl rfl
  | notDue | busy | ready | scheduled | failed | released => exact h.mono hle

theorem Over.requireLease (h : a.Over now) : (a.requireLease now).2 = false := by
  by_cases hover : a.windowOver now = true
  · simp [TaskAttempt.requireLease, hover, endLeaseWindow, abort]
  · have haborted := h.resolve_right hover
    simp [TaskAttempt.requireLease, hover, haborted]

theorem requireLease_passes (h : (a.requireLease now).2 = true) :
    a.aborted = false ∧ ∀ w, a.leaseWindowEndsAt = some w → now < w := by
  by_cases hover : a.windowOver now = true
  · rw [(show a.Over now from .inr hover).requireLease] at h
    cases h
  · refine ⟨?_, fun w hw => ?_⟩
    · by_contra haborted
      rw [(show a.Over now from .inl (by simpa using haborted)).requireLease] at h
      cases h
    · simpa [windowOver, hw] using hover

end TaskAttempt

namespace LeaseState

variable {skew : Int} {leaseMs : Nat} {s s' : LeaseState} {e : LeaseEvent}

structure Sound (skew : Int) (leaseMs : Nat) (s : LeaseState) : Prop where
  /-- The lease of the row covers what the accepted replies have granted. -/
  expiry : ∃ expiresAt, s.lease.expiresAt = some expiresAt ∧ s.granted ≤ expiresAt ∧
    expiresAt ≤ s.databaseNow skew + milliseconds leaseMs
  sent : ∀ id r, s.rounds.get? id = some r → r.sentAt ≤ s.now
  answer : ∀ id sentAt until_, s.rounds.get? id = some ⟨sentAt, some (.accepted, until_)⟩ →
    ∃ expiresAt, until_ = some expiresAt ∧ sentAt + skew + milliseconds leaseMs ≤ expiresAt ∧
      s.lease.expiresAt.any (expiresAt ≤ ·)
  window : ∀ w, s.attempt.leaseWindowEndsAt = some w → w + skew ≤ s.granted
  closed : s.attempt.leaseWindowEndsAt = none → s.attempt.aborted = true ∨ s.settled = true

theorem Sound.close (h : s.Sound skew leaseMs) {a : TaskAttempt} {settled : Bool}
    (hclosed : a.leaseWindowEndsAt = none) (ha : a.aborted = true ∨ settled = true) :
    ({ s with attempt := a, settled } : LeaseState).Sound skew leaseMs := by
  refine ⟨h.expiry, h.sent, h.answer, fun w hw => ?_, fun _ => ha⟩
  rw [hclosed] at hw
  cases hw

theorem Sound.keep (h : s.Sound skew leaseMs) {a : TaskAttempt} (hw : a.leaseWindowEndsAt = s.attempt.leaseWindowEndsAt)
    (ha : s.attempt.aborted = true → a.aborted = true) :
    ({ s with attempt := a } : LeaseState).Sound skew leaseMs :=
  ⟨h.expiry, h.sent, h.answer, fun w hw' => h.window w (hw ▸ hw'), fun hc => (h.closed (hw ▸ hc)).imp_left ha⟩

theorem Sound.tick (h : s.Sound skew leaseMs) (elapsed : Nat) :
    ({ s with now := s.now + elapsed } : LeaseState).Sound skew leaseMs := by
  obtain ⟨expiresAt, hexpiry, hgranted, hle⟩ := h.expiry
  refine ⟨⟨expiresAt, hexpiry, hgranted, ?_⟩, fun id r hr => ?_, h.answer, h.window, h.closed⟩
  · simp only [databaseNow] at hle ⊢
    linarith
  · have := h.sent id r hr
    simp only
    linarith

theorem Sound.send (h : s.Sound skew leaseMs) (id : Nat) :
    ({ s with rounds := s.rounds.put id ⟨s.now, none⟩ } : LeaseState).Sound skew leaseMs := by
  refine ⟨h.expiry, fun k r hr => ?_, fun k sentAt t hr => ?_, h.window, h.closed⟩
  · rcases Table.get?_put_cases hr with ⟨-, rfl⟩ | ⟨-, hr⟩
    · exact le_rfl
    · exact h.sent k r hr
  · simp only [Table.get?_put] at hr
    split at hr
    · cases hr
    · exact h.answer k sentAt t hr

theorem beat_cases (h : s.Sound skew leaseMs) (locked : Bool) :
    (s.beat skew leaseMs locked).1.expiresAt = s.lease.expiresAt ∧ (s.beat skew leaseMs locked).2 ≠ .accepted ∨
    (s.beat skew leaseMs locked).1.expiresAt = some (s.databaseNow skew + milliseconds leaseMs) := by
  obtain ⟨expiresAt, hexpiry, -, -⟩ := h.expiry
  simp only [beat]
  split
  · exact .inl ⟨rfl, by simp⟩
  · split
    · exact .inl ⟨rfl, by simp⟩
    · by_cases haccepted : (s.lease.renewed (s.databaseNow skew) leaseMs).beat (s.databaseNow skew) = .accepted
      · exact .inr (Lease.renewed_of_accepted (by simp [hexpiry]) haccepted)
      · by_cases hr : s.lease.renewable (s.databaseNow skew) = true
        · exact .inr (by simp [Lease.renewed, hr])
        · exact .inl ⟨by simp [Lease.renewed, hr], haccepted⟩

theorem Sound.execute (h : s.Sound skew leaseMs) {id : Nat} {locked : Bool}
    (hs : s.execute skew leaseMs id locked = some s') : s'.Sound skew leaseMs := by
  simp only [LeaseState.execute] at hs
  split at hs
  swap
  · cases hs
  rename_i sentAt hround
  have hsent := h.sent id _ hround
  obtain ⟨expiresAt, hexpiry, hgranted, hle⟩ := h.expiry
  have hcases := beat_cases h locked
  generalize s.beat skew leaseMs locked = answer at hs hcases
  obtain ⟨lease, status⟩ := answer
  cases hs
  -- The row's expiry does not move back.
  obtain ⟨later, hlater, hforward, hahead⟩ : ∃ later, lease.expiresAt = some later ∧ expiresAt ≤ later ∧
      later ≤ s.databaseNow skew + milliseconds leaseMs := by
    obtain ⟨hsame, -⟩ | hnew := hcases
    · exact ⟨expiresAt, by rw [hsame, hexpiry], le_rfl, hle⟩
    · exact ⟨_, hnew, hle, le_rfl⟩
  refine ⟨⟨later, hlater, hgranted.trans hforward, hahead⟩, fun k r hr => ?_, fun k sentAt' t hr => ?_, h.window,
    h.closed⟩
  · rcases Table.get?_put_cases hr with ⟨-, rfl⟩ | ⟨-, hr⟩
    · exact hsent
    · exact h.sent k r hr
  · simp only [Table.get?_put] at hr
    split at hr
    · cases hr
      obtain ⟨-, hrefused⟩ | hnew := hcases
      · exact absurd rfl hrefused
      · have hnew : lease.expiresAt = _ := hnew
        refine ⟨_, hnew, ?_, by simp [hnew]⟩
        simp only [databaseNow] at hsent ⊢
        linarith
    · obtain ⟨t', ht, hle', hany⟩ := h.answer k sentAt' t hr
      refine ⟨t', ht, hle', ?_⟩
      simp only [hexpiry, hlater, Option.any_some, decide_eq_true_eq] at hany ⊢
      exact hany.trans hforward

theorem Sound.erase (h : s.Sound skew leaseMs) (id : Nat) :
    ({ s with rounds := s.rounds.erase id } : LeaseState).Sound skew leaseMs := by
  refine ⟨h.expiry, fun k r hr => ?_, fun k sentAt t hr => ?_, h.window, h.closed⟩
  · obtain ⟨-, hr⟩ := Table.get?_erase_eq_some hr
    exact h.sent k r hr
  · obtain ⟨-, hr⟩ := Table.get?_erase_eq_some hr
    exact h.answer k sentAt t hr

theorem Sound.reply (h : s.Sound skew leaseMs) {id pause : Nat} (hs : s.reply leaseMs id pause = some s') :
    s'.Sound skew leaseMs := by
  simp only [LeaseState.reply] at hs
  split at hs
  swap
  · cases hs
  rename_i sentAt status answered hround
  have herased := h.erase id
  split at hs
  · cases hs
    exact herased
  · rename_i hrunning
    have hrunning : s.attempt.heartbeatStopped = false := by simpa using hrunning
    have htick := herased.tick pause
    obtain ⟨expiresAt, hexpiry, hgranted, hle⟩ := htick.expiry
    cases hs
    refine ⟨⟨expiresAt, hexpiry, ?_, hle⟩, htick.sent, htick.answer, fun w hw => ?_, fun hclosed => ?_⟩
    · split
      · rename_i haccepted
        subst haccepted
        obtain ⟨t, rfl, -, hany⟩ := h.answer id sentAt answered hround
        have hle : t ≤ expiresAt := by simpa [show s.lease.expiresAt = some expiresAt from hexpiry] using hany
        exact max_le hgranted hle
      · exact hgranted
    · obtain hold | ⟨rfl, rfl⟩ := TaskAttempt.refreshOwnership_window hw
      · have := h.window w hold
        split
        · exact this.trans (le_max_left _ _)
        · exact this
      · obtain ⟨t, rfl, ht, -⟩ := h.answer id sentAt answered hround
        rw [if_pos rfl]
        refine le_trans ?_ (le_max_right _ _)
        simp only [Option.getD_some]
        linarith
    · obtain haborted | hnone := TaskAttempt.refreshOwnership_closed hclosed
      · exact .inl haborted
      · exact (h.closed hnone).imp_left TaskAttempt.refreshOwnership_aborted

theorem Sound.step (h : s.Sound skew leaseMs) (hs : s.step skew leaseMs e = some s') : s'.Sound skew leaseMs := by
  cases e with
  | tick elapsed =>
    cases hs
    exact h.tick elapsed
  | send id =>
    simp only [LeaseState.step] at hs
    split at hs
    · cases hs
    · cases hs
      exact h.send id
  | execute id locked => exact h.execute hs
  | reply id pause => exact h.reply hs
  | cancel | take =>
    cases hs
    exact ⟨h.expiry, h.sent, h.answer, h.window, h.closed⟩
  | watchdog | lose =>
    simp only [LeaseState.step] at hs
    split at hs
    · cases hs
      exact h.close rfl (.inl rfl)
    · cases hs
  | expire | expireFailed =>
    cases hs
    exact h.keep rfl fun ha => ha
  | expired =>
    cases hs
    exact h.close rfl (.inl rfl)
  | interrupt =>
    cases hs
    exact h.keep rfl fun _ => rfl
  | require =>
    cases hs
    by_cases hover : s.attempt.windowOver s.now = true
    · rw [TaskAttempt.requireLease, if_pos hover]
      exact h.close rfl (.inl rfl)
    · rw [TaskAttempt.requireLease, if_neg hover]
      exact h.keep rfl fun ha => ha
  | settle =>
    cases hs
    exact h.close rfl (.inr rfl)

theorem claimed_sound {sentAt executedAt now : Time} {pause : Nat} {deadlineAt attemptTimeoutAt : Option Time}
    (hsent : sentAt ≤ executedAt) (hexecuted : executedAt ≤ now) :
    (claimed skew leaseMs sentAt executedAt now pause deadlineAt attemptTimeoutAt).Sound skew leaseMs := by
  refine ⟨⟨_, rfl, le_rfl, ?_⟩, fun id r hr => ?_, fun id sentAt t hr => ?_, fun w hw => ?_, fun hclosed => ?_⟩
  · simp only [claimed, databaseNow]
    have := Int.natCast_nonneg pause
    linarith
  · cases hr
  · cases hr
  · obtain hold | rfl := TaskAttempt.renewLease_window hw
    · cases hold
    · simp only [claimed]
      linarith
  · obtain haborted | ⟨-, hstopped⟩ := TaskAttempt.renewLease_closed hclosed
    · exact .inl haborted
    · cases hstopped

/-- Only the end of the attempt closes a window without aborting. -/
theorem step_over (hs : s.step skew leaseMs e = some s') (hopen : s'.settled = false) :
    s.settled = false ∧ (s.attempt.Over s.now → s'.attempt.Over s'.now) := by
  cases e with
  | tick elapsed =>
    cases hs
    exact ⟨hopen, fun h => h.mono (Int.le_add_of_nonneg_right (Int.natCast_nonneg elapsed))⟩
  | send id =>
    simp only [LeaseState.step] at hs
    split at hs
    · cases hs
    · cases hs
      exact ⟨hopen, fun h => h⟩
  | execute id locked =>
    simp only [LeaseState.step, LeaseState.execute] at hs
    split at hs
    · cases hs
      exact ⟨hopen, fun h => h⟩
    · cases hs
  | reply id pause =>
    simp only [LeaseState.step, LeaseState.reply] at hs
    split at hs
    swap
    · cases hs
    split at hs
    · cases hs
      exact ⟨hopen, fun h => h⟩
    · rename_i hrunning
      cases hs
      exact ⟨hopen, fun h => h.refreshOwnership (by simpa using hrunning)
        (Int.le_add_of_nonneg_right (Int.natCast_nonneg pause))⟩
  | cancel | take | expire | expireFailed =>
    cases hs
    exact ⟨hopen, fun h => h⟩
  | watchdog | lose =>
    simp only [LeaseState.step] at hs
    split at hs
    · cases hs
      exact ⟨hopen, fun _ => .inl rfl⟩
    · cases hs
  | expired | interrupt =>
    cases hs
    exact ⟨hopen, fun _ => .inl rfl⟩
  | require =>
    cases hs
    refine ⟨hopen, fun h => ?_⟩
    have hfails := h.requireLease
    exact .inl (by simpa [TaskAttempt.requireLease] using hfails)
  | settle =>
    cases hs
    cases hopen

theorem run_over {events : List LeaseEvent} (hs : run skew leaseMs events s = some s') (hopen : s'.settled = false) :
    s.settled = false ∧ (s.attempt.Over s.now → s'.attempt.Over s'.now) := by
  induction events generalizing s with
  | nil =>
    cases hs
    exact ⟨hopen, fun h => h⟩
  | cons e events ih =>
    obtain ⟨s₁, h₁, hs⟩ := Option.bind_eq_some_iff.mp hs
    obtain ⟨hopen₁, hover₁⟩ := ih hs
    obtain ⟨hopen₀, hover₀⟩ := step_over h₁ hopen₁
    exact ⟨hopen₀, fun h => hover₁ (hover₀ h)⟩

end LeaseState

theorem Leasing.sound {skew : Int} {leaseMs : Nat} {s : LeaseState} (h : Leasing skew leaseMs s) :
    s.Sound skew leaseMs := by
  induction h with
  | claim hsent hexecuted => exact LeaseState.claimed_sound hsent hexecuted
  | event h hs ih => exact ih.step hs

/-- Until the worker ends the attempt, `requireLease` passes only while the lease runs, and never again after the window
has ended. -/
theorem requireLease_conservative {skew : Int} {leaseMs : Nat} {s : LeaseState} (h : Leasing skew leaseMs s)
    (hopen : s.settled = false) :
    ((s.attempt.requireLease s.now).2 = true → s.databaseNow skew < s.granted ∧ s.lease.expiresAt.any (s.granted ≤ ·)) ∧
    ∀ events s₀, s₀.attempt.Over s₀.now → LeaseState.run skew leaseMs events s₀ = some s →
      (s.attempt.requireLease s.now).2 = false := by
  have hsound := h.sound
  refine ⟨fun hpass => ?_, fun events s₀ hover hs => ((LeaseState.run_over hs hopen).2 hover).requireLease⟩
  obtain ⟨hrunning, hwindow⟩ := TaskAttempt.requireLease_passes hpass
  obtain ⟨expiresAt, hexpiry, hgranted, -⟩ := hsound.expiry
  refine ⟨?_, by simpa [hexpiry] using hgranted⟩
  cases hw : s.attempt.leaseWindowEndsAt with
  | none =>
    obtain haborted | hsettled := hsound.closed hw
    · rw [hrunning] at haborted
      cases haborted
    · rw [hopen] at hsettled
      cases hsettled
  | some w =>
    have hbefore := hwindow w hw
    have hle := hsound.window w hw
    simp only [LeaseState.databaseNow]
    linarith

namespace LeaseState

theorem leasing_of_run {skew : Int} {leaseMs : Nat} {s s' : LeaseState} {events : List LeaseEvent}
    (h : Leasing skew leaseMs s) (hs : run skew leaseMs events s = some s') : Leasing skew leaseMs s' := by
  induction events generalizing s with
  | nil =>
    cases hs
    exact h
  | cons e events ih =>
    obtain ⟨s₁, h₁, hs⟩ := Option.bind_eq_some_iff.mp hs
    exact ih (h.event h₁) hs

def claimedAtOnce : LeaseState := claimed 7 100 0 1 2 0 none none

theorem claimedAtOnce_leasing : Leasing 7 100 claimedAtOnce := .claim (by decide) (by decide)

def reordered : List LeaseEvent :=
  [.tick 40000, .send 1, .execute 1 false, .tick 40000, .send 2, .execute 2 false, .reply 2 0, .reply 1 3, .tick 30000]

theorem reordered_run : (run 7 100 reordered claimedAtOnce).any (fun s =>
    (s.attempt.requireLease s.now).2 && !s.settled && decide (s.now = 110005)) = true := by
  decide +kernel

def leftBehind : List LeaseEvent := [.settle, .tick 1000000]

theorem leftBehind_run : (run 7 100 leftBehind claimedAtOnce).any (fun s =>
    (s.attempt.requireLease s.now).2 && s.lease.expiresAt.any (· ≤ s.databaseNow 7)) = true := by
  decide +kernel

end LeaseState

open LeaseState in
theorem requireLease_conservative_reordered : ∃ s, Leasing 7 100 s ∧ s.now = 110005 ∧
    (s.attempt.requireLease s.now).2 = true ∧ s.databaseNow 7 < s.granted := by
  obtain ⟨s, hs, h⟩ := (Option.any_eq_true _ _).mp reordered_run
  simp only [Bool.and_eq_true, Bool.not_eq_true', decide_eq_true_eq] at h
  obtain ⟨⟨hpass, hopen⟩, hnow⟩ := h
  have hreach := leasing_of_run claimedAtOnce_leasing hs
  exact ⟨s, hreach, hnow, hpass, ((requireLease_conservative hreach hopen).1 hpass).1⟩

/-- After the worker has ended the attempt, the check passes long after the lease. -/
theorem requireLease_passes_after_stop : ∃ s, Leasing 7 100 s ∧ (s.attempt.requireLease s.now).2 = true ∧
    s.lease.expiresAt.any (· ≤ s.databaseNow 7) := by
  obtain ⟨s, hs, h⟩ := (Option.any_eq_true _ _).mp LeaseState.leftBehind_run
  obtain ⟨hpass, hexpired⟩ := (Bool.and_eq_true _ _).mp h
  exact ⟨s, LeaseState.leasing_of_run LeaseState.claimedAtOnce_leasing hs, hpass, hexpired⟩

end Workhorse
