import Workhorse.Admission.Lemmas.Caps

/-!
# Results on admission
-/

namespace Workhorse

/-! ## Picks -/

/-- `p` tells the candidates of one key, or of one budget, whose ranks end at `m`. -/
theorem countP_fitting {p : Candidate → Bool} {m : Int} (window before : List Candidate)
    (h : ∀ c ∈ window, p c → ∀ before : List Candidate,
      c.fits (before.countP (fun b => b.row.concurrencyKey = c.row.concurrencyKey) + 1)
        (before.countP (fun b => b.row.budgetName = c.row.budgetName) + 1) → before.countP p + 1 ≤ m) :
    (fitting before window).countP p ≤ max (m - before.countP p) 0 := by
  induction window generalizing before with
  | nil => simp [fitting]
  | cons c rest ih =>
    have hrest := ih (before ++ [c]) fun c hc => h c (List.mem_cons_of_mem _ hc)
    simp only [List.countP_append, List.countP_singleton, fitting] at hrest ⊢
    cases hp : p c
    · split <;> simpa [hp] using hrest
    · split
      · rename_i hfits
        have hm := h c List.mem_cons_self hp before hfits
        simp only [hp, if_true, List.countP_cons] at hrest ⊢
        omega
      · simp only [hp, if_true] at hrest
        omega

/-- A round picks at most as many rows of a key as the key has room for, and the same of a budget. -/
theorem picks_within_rooms (db : Db) (queue : String) (budgets : List String) (now : Time) :
    let picks := fitting [] ((windowCandidates db queue budgets now).filter (·.fits 1 1))
    (∀ key m, db.keyRoom queue now (some key) = some m → picks.countP (·.row.concurrencyKey = some key) ≤ max m 0) ∧
    ∀ name m, db.budgetRoom budgets now (some name) = some m →
      picks.countP (·.row.budgetName = some name) ≤ max m 0 := by
  have hpicks {p m} := @countP_fitting p m ((windowCandidates db queue budgets now).filter (·.fits 1 1)) []
  simp only [List.countP_nil, Nat.cast_zero, sub_zero] at hpicks
  refine ⟨fun key m hm => hpicks fun c hc hp before hfits => ?_, fun name m hm => hpicks fun c hc hp before hfits => ?_⟩
  all_goals
    obtain ⟨e, -, rfl⟩ := List.mem_map.mp (List.mem_filter.mp hc).1
    simp_all [Candidate.fits]

section Caps

open Admissions

/-- A queue's claims admit within `max_active`, whatever shards they hold and however the number of
shards changes between them. Heartbeats are single steps here. -/
theorem queue_within_max_active {maxActive : Nat} {name : String} {σ₀ σ : Admissions} (h₀ : σ₀.Fresh)
    (hcap : (σ₀.runtime.having ((Gate.queue maxActive name).leases σ₀.clock)).card ≤ maxActive)
    (hr : Relation.ReflTransGen (fun σ σ' => Step (.queue maxActive name) σ none σ') σ₀ σ) :
    (σ.runtime.having ((Gate.queue maxActive name).leases σ.clock)).card ≤ maxActive :=
  ((Reaches.of_atomic hr).invariants (h₀.capped hcap) h₀.settled).1.card_le

/-- When heartbeats commit before the leases that they extend run out, a lease that a committed claim
counted as expired stays expired, and the cap holds. -/
theorem counted_lease_stays_expired (gate : Gate) {σ₀ σ : Admissions} (h₀ : σ₀.Fresh)
    (hcap : (σ₀.runtime.having (gate.leases σ₀.clock)).card ≤ gate.cap) (hr : Reaches gate σ₀ σ) :
    (∀ e ∈ σ.expired, ∀ r, σ.runtime.get? e.taskId = some r → r.state = .active →
      r.fenceToken = e.fenceToken → r.expiresAt.any (e.now < ·) = false) ∧
    (σ.runtime.having (gate.leases σ.clock)).card ≤ gate.cap := by
  obtain ⟨hcapped, hsettled⟩ := hr.invariants (h₀.capped hcap) h₀.settled
  exact ⟨fun e he r => hsettled.stale e r (.inl he), hcapped.card_le⟩

def readyRow (queue : String) (fence : Nat) : Runtime where
  queueName := queue
  concurrencyKey := none
  state := .ready
  currentAttempt := 1
  fenceToken := fence
  runAt := 0
  readyAt := some 0
  sequence := some 1
  workerId := none
  acquiredAt := none
  heartbeatAt := none
  expiresAt := none
  deadlineAt := none
  executionUsedMs := 0
  attemptTimeoutAt := none
  waitName := none
  attemptStartedAt := none
  cancelRequestedAt := none
  cancelRequestedBy := none
  cancelReason := none
  error := none
  previousRetryDelayMs := none
  priority := 0
  budgetName := none
  pendingPrerequisites := 0
  dependencyRejected := false
  admissionShard := none

def beforeExpiry : Admissions where
  clock := 99999
  fenceSeq := 1
  shards := 1
  runtime := (Table.empty.put 1 ((readyRow "q" 0).claimed "w" 1 0 100000 none (some 0))).put 2 (readyRow "q" 0)
  beats := .empty
  claims := .empty
  expired := []

theorem beforeExpiry_fresh : beforeExpiry.Fresh := by
  refine ⟨fun _ => rfl, fun _ => rfl, rfl, by decide, fun id r hr => ?_⟩
  rw [beforeExpiry, Table.get?_put, Table.get?_put] at hr
  split at hr
  · cases hr
    decide
  · split at hr
    · cases hr
      decide
    · cases hr

/-- A claim counts just after the lease of task 1 ran out, with heartbeats of task 1 open. It finds no lease, and starts
task 2. -/
def afterClaim (beats : Table Nat OpenBeat) : Admissions :=
  { beforeExpiry with
    clock := 100001
    fenceSeq := 2
    runtime := beforeExpiry.runtime.overlay
      (Table.empty.overlay ⟨[(2, (readyRow "q" 0).claimed "w" 2 100001 200001 none (some 0))], by decide⟩)
    beats
    claims := ((Table.empty.put 1 ⟨[0], .empty, []⟩).put 1 ⟨[0], Table.empty.overlay
      ⟨[(2, (readyRow "q" 0).claimed "w" 2 100001 200001 none (some 0))], by decide⟩, [⟨1, 1, 100001⟩]⟩).erase 1
    expired := [⟨1, 1, 100001⟩] }

theorem afterClaim_reached {beats : Table Nat OpenBeat}
    (hbeats : ∀ conn b, beats.get? conn = some b → b.taskId = 1) :
    Relation.ReflTransGen (fun σ σ' => Step (.queue 1 "q") σ none σ')
      { beforeExpiry with clock := 100001, beats } (afterClaim beats) := by
  let row : TaskId × Runtime := (2, (readyRow "q" 0).claimed "w" 2 100001 200001 none (some 0))
  have hfences : ∀ e ∈ [row], 1 < e.2.fenceToken ∧ e.2.fenceToken ≤ 2 := by decide
  have hroom : 1 ≤ concRoom 1 [0] (beforeExpiry.rooms (.queue 1 "q") ⟨[0], .empty, []⟩ 100001) := by decide
  have hslots : [row].map (fun e => e.2.admissionShard.getD 0 % 1) =
      slots (some (beforeExpiry.rooms (.queue 1 "q") ⟨[0], .empty, []⟩ 100001)) [0] 1 := by decide
  have hround := @Step.round (.queue 1 "q")
    { beforeExpiry with clock := 100001, beats, claims := Table.empty.put 1 ⟨[0], .empty, []⟩ }
    1 ⟨[0], .empty, []⟩ 100001 [row] 2 rfl le_rfl (by decide) 100 (by decide) (fun e he => ?_)
    hfences one_le_two hroom hslots
  · refine .head (@Step.claim (.queue 1 "q") { beforeExpiry with clock := 100001, beats } 1 [0] rfl (by decide)
      fun _ _ h => ?_) (.head hround (.single ?_))
    · cases h
    · exact @Step.claimCommit (.queue 1 "q") _ 1 ⟨[0], _, _⟩ rfl
  · cases List.mem_singleton.mp he
    refine ⟨⟨fun conn b hb => ?_, fun conn c hc => ?_⟩, readyRow "q" 0, rfl, rfl, "w", none, some 0, rfl⟩
    · rw [hbeats conn b hb]
      decide
    · rcases Table.get?_put_cases hc with ⟨-, rfl⟩ | ⟨-, hc⟩
      · rfl
      · cases hc

theorem atomic_claim_reached : Relation.ReflTransGen (fun σ σ' => Step (.queue 1 "q") σ none σ')
    beforeExpiry (afterClaim .empty) :=
  .head (@Step.tick (.queue 1 "q") beforeExpiry 100001 (by decide))
    (afterClaim_reached fun _ _ h => by cases h)

theorem queue_within_max_active_afterClaim : beforeExpiry.Fresh ∧
    ((afterClaim .empty).runtime.having ((Gate.queue 1 "q").leases (afterClaim .empty).clock)).card ≤ 1 :=
  ⟨beforeExpiry_fresh, queue_within_max_active beforeExpiry_fresh (by decide) atomic_claim_reached⟩

theorem counted_lease_stays_expired_afterClaim :
    (∀ e ∈ (afterClaim .empty).expired, ∀ r, (afterClaim .empty).runtime.get? e.taskId = some r →
      r.state = .active → r.fenceToken = e.fenceToken → r.expiresAt.any (e.now < ·) = false) ∧
    ((afterClaim .empty).runtime.having ((Gate.queue 1 "q").leases (afterClaim .empty).clock)).card ≤ 1 :=
  counted_lease_stays_expired (.queue 1 "q") beforeExpiry_fresh (by decide)
    (.of_atomic atomic_claim_reached)

/-- A heartbeat reads the clock just before the lease of task 1 runs out and commits after the claim: the lease that
the claim counted as expired lives again, and the queue has two leases. -/
theorem slow_heartbeat_revives_lease : ∃ σ,
    Relation.ReflTransGen (fun σ σ' => ∃ label, Step (.queue 1 "q") σ label σ') beforeExpiry σ ∧
    (∃ e ∈ σ.expired, ∃ r, σ.runtime.get? e.taskId = some r ∧ r.state = .active ∧
      r.fenceToken = e.fenceToken ∧ r.expiresAt.any (e.now < ·) = true) ∧
    (σ.runtime.having ((Gate.queue 1 "q").leases σ.clock)).card = 2 := by
  let beat : OpenBeat := ⟨1, 100, some 99999, true⟩
  let beats : Table Nat OpenBeat :=
    ((Table.empty.put 7 ⟨1, 100, none, false⟩).put 7 ⟨1, 100, some 99999, false⟩).put 7 beat
  have hbeats (conn : Nat) (b : OpenBeat) (h : beats.get? conn = some b) : b.taskId = 1 := by
    simp only [beats, Table.get?_put] at h
    split at h
    · cases h
      rfl
    · cases h
  have hopen : Relation.ReflTransGen (fun σ σ' => Step (.queue 1 "q") σ none σ') beforeExpiry
      { beforeExpiry with clock := 100001, beats } := by
    refine .head (@Step.beat (.queue 1 "q") beforeExpiry 7 1 "w" 1 _ rfl rfl (by decide) ?_ 100 (by decide))
      (.head (@Step.read (.queue 1 "q") _ 7 ⟨1, 100, none, false⟩ rfl rfl)
      (.head (@Step.update (.queue 1 "q") _ 7 ⟨1, 100, some 99999, false⟩ rfl rfl)
      (.single (@Step.tick (.queue 1 "q") _ 100001 (by decide)))))
    refine ⟨fun _ _ h => ?_, fun _ _ h => ?_⟩
    · cases h
    · cases h
  have hcommit := @Step.commit (.queue 1 "q") (afterClaim beats) 7 beat 99999 _ rfl rfl rfl rfl
  have hrun : Relation.ReflTransGen (fun σ σ' => ∃ label, Step (.queue 1 "q") σ label σ') beforeExpiry
      (afterClaim beats) :=
    Relation.ReflTransGen.mono (fun _ _ h => ⟨none, h⟩) _ _ (hopen.trans (afterClaim_reached hbeats))
  refine ⟨_, hrun.tail ⟨some 7, hcommit⟩, ⟨⟨1, 1, 100001⟩, List.mem_singleton.mpr rfl, _, rfl, rfl, rfl, by decide⟩,
    by decide⟩

end Caps

end Workhorse
