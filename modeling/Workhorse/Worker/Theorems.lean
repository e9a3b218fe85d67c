import Workhorse.Worker.Lemmas.Slots

/-!
# Results on dispatch
-/

namespace Workhorse

open Finset

variable {n : Nat} {step : Dispatcher n → DispatchEvent → Option (Dispatcher n)} {e : DispatchEvent}

theorem Slots.fill_fits {s : Slots n} {noClaims fastTierOnly tiersKnown : Bool} {p : PlainClaim n}
    (hp : s.fill noClaims fastTierOnly tiersKnown = some p) (hroom : ∀ c, 0 ≤ (s.cohorts c).free) :
    p.Fits s := by
  have hroomiest := hroom s.roomiest
  let cohortLimit := max (min s.free (s.cohorts s.roomiest).free) 0
  have hcohort {limit : Int} (hpos : 0 < limit) (hle : cohortLimit ≤ limit) (hfree : limit ≤ s.free) :
      (⟨limit, some s.roomiest, cohortLimit⟩ : PlainClaim n).Fits s := by
    refine ⟨hpos, le_max_right _ _, hle, hfree, fun c hc => ?_⟩
    cases hc
    exact max_le (min_le_right _ _) hroomiest
  simp only [fill] at hp
  split at hp
  · split at hp
    · rename_i hfree
      simp only [Bool.and_eq_true, decide_eq_true_eq] at hfree
      have hle : cohortLimit ≤ s.free := max_le (min_le_left _ _) hfree.2.le
      cases tiersKnown with
      | true =>
        rw [if_pos rfl] at hp
        split at hp
        · rename_i hpos
          cases hp
          exact hcohort hpos le_rfl hle
        · cases hp
      | false =>
        rw [if_neg Bool.false_ne_true, if_pos hfree.2] at hp
        cases hp
        exact hcohort hfree.2 hle le_rfl
    · cases hp
  · split at hp
    · cases hp
    · rename_i hfree
      simp only [Bool.or_eq_true, decide_eq_true_eq, not_or, not_le] at hfree
      cases hp
      exact ⟨hfree.1, le_rfl, hfree.1.le, le_rfl, fun c hc => by cases hc⟩

theorem Slots.nextClaim_fits {s : Slots n} {noClaims fullTier allFast : Bool} {p : PlainClaim n}
    (hp : s.nextClaim noClaims fullTier allFast = some p) (hroom : ∀ c, 0 ≤ (s.cohorts c).free) :
    p.Fits s := by
  have hroomiest := hroom s.roomiest
  simp only [nextClaim] at hp
  split at hp
  · cases hp
  · rename_i hfree
    have hwhole : (⟨s.free, none, s.free⟩ : PlainClaim n).Fits s :=
      ⟨not_le.mp hfree, le_rfl, (not_le.mp hfree).le, le_rfl, fun c hc => by cases hc⟩
    split at hp
    · split at hp
      · cases hp
      · cases hp
        exact hwhole
    · split at hp
      · cases hp
      · split at hp
        · split at hp
          · rename_i hlimit
            cases hp
            refine ⟨hlimit, hlimit.le, le_rfl, min_le_left _ _, fun c hc => ?_⟩
            cases hc
            exact min_le_right _ _
          · cases hp
        · cases hp
          refine ⟨not_le.mp hfree, le_max_left _ _, ?_, le_rfl, fun c hc => ?_⟩
          · simp only [PlainClaim.inCohort, Option.isSome_some, if_true]
            omega
          · cases hc
            dsimp only
            omega

namespace Dispatcher

variable {d d' : Dispatcher n}

theorem Inv.rust (h : d.Inv) (hcalm : Calm d e) (hs : Rust.step d e = some d') : d'.Inv := by
  cases e with
  | fill fastTierOnly tiersKnown =>
    simp only [Rust.step] at hs
    split at hs
    · obtain ⟨p, hp, rfl⟩ := Option.map_eq_some_iff.mp hs
      exact h.planned (Slots.fill_fits hp h.sound.room)
    · cases hs
  | startClaim id => exact h.startClaim hs
  | settle id tasks =>
    simp only [Rust.step] at hs
    split at hs
    · rename_i p hphase hp
      split at hs
      · rename_i hlen
        cases hs
        have hidle : d.Sound 0 := by simpa [spokenFor, hphase] using h.sound
        refine ⟨(hidle.returnPlain _ hp).mono ?_, fun q hq => by cases hq⟩
        simpa [spokenFor] using hlen
      · cases hs
    · cases hs
  | launch =>
    simp only [Rust.step] at hs
    split at hs
    · rename_i cohort task tasks hphase
      obtain ⟨d₁, h₁, rfl⟩ := Option.map_eq_some_iff.mp hs
      have hsound : d.Sound (tasks.length + 1) := by simpa [spokenFor, hphase] using h.sound
      have hnext := hsound.admitTask (Int.natCast_nonneg _) h₁
      exact ⟨hnext.elsewhere _ _, fun q hq => by cases hq⟩
    · rename_i hphase
      cases hs
      have hsound : d.Sound 0 := by simpa [spokenFor, hphase] using h.sound
      exact .idle (hsound.elsewhere _ _) rfl
    · cases hs
  | reserve ticket =>
    refine h.reserve hcalm hs fun c hfree hroom => ?_
    simp only [Rust.reserveLimit]
    omega
  | finish ticket tasks => exact h.finish hs
  | drop ticket => exact h.drop hs
  | refuse refusing =>
    cases hs
    exact h.refuse

theorem Inv.python (h : d.Inv) (hcalm : Calm d e) (hs : Python.step d e = some d') : d'.Inv := by
  cases e with
  | fill fullTier allFast =>
    simp only [Python.step] at hs
    split at hs
    · obtain ⟨p, hp, rfl⟩ := Option.map_eq_some_iff.mp hs
      exact h.planned (Slots.nextClaim_fits hp h.sound.room)
    · cases hs
  | startClaim id => exact h.startClaim hs
  | settle id tasks =>
    simp only [Python.step] at hs
    split at hs
    · rename_i p hphase hp
      split at hs
      · rename_i hlen
        have hidle : d.Sound 0 := by simpa [spokenFor, hphase] using h.sound
        have hback := hidle.returnPlain d.phase hp
        have hall := hback.admitAll (by omega) hs
        exact .idle (hall.mono (by omega)) ((admitAll_phase hs).trans hphase)
      · cases hs
    · cases hs
  | launch => cases hs
  | reserve ticket => exact h.reserve hcalm hs fun _ _ _ => rfl
  | finish ticket tasks =>
    simp only [Python.step] at hs
    split at hs
    · rename_i limit hr
      split at hs
      · rename_i hzero
        have hlimit := (h.sound.fused ticket limit hr).1
        omega
      · exact h.finish hs
    · cases hs
  | drop ticket => exact h.drop hs
  | refuse refusing =>
    cases hs
    exact h.refuse

theorem new_inv (n concurrency : Nat) : (new n concurrency).Inv := by
  refine .idle ⟨?_, ?_, ?_, rfl, ?_, fun _ _ hp => ?_, fun _ _ hr => ?_, fun c => ?_, ?_⟩ rfl
  · have hsum := @sum_admissionShare concurrency (n + 1) (Nat.succ_pos n)
    rw [← Fin.sum_univ_eq_sum_range] at hsum
    exact_mod_cast hsum.symm
  · simp [new]
  · simp [new]
  · simp [new]
  · cases hp
  · cases hr
  · simp only [new, Cohort.free, sub_zero, add_zero]
    exact Int.natCast_nonneg _
  · simp [new, Slots.free, Slots.active, Slots.handedOver]

theorem Dispatches.inv {d₀ : Dispatcher n}
    (hstep : ∀ d d' e, d.Inv → Calm d e → step d e = some d' → d'.Inv) (h₀ : d₀.Inv)
    (h : Dispatches step d₀ d) : d.Inv := by
  induction h with
  | refl => exact h₀
  | tail _ hcalm hs ih => exact hstep _ _ _ ih hcalm hs

theorem admitAll_concurrency {preferred : Option (Fin (n + 1))} {tasks : List Nat}
    (hs : admitAll preferred tasks d = some d') : d'.slots.concurrency = d.slots.concurrency := by
  induction tasks generalizing d with
  | nil =>
    cases hs
    rfl
  | cons task tasks ih =>
    obtain ⟨d₁, h₁, hs⟩ := Option.bind_eq_some_iff.mp hs
    obtain ⟨-, rfl⟩ := admitTask_cases h₁
    have hsame := ih hs
    exact hsame

theorem startClaim_concurrency {id : Nat} (hs : d.startClaim id = some d') :
    d'.slots.concurrency = d.slots.concurrency := by
  simp only [startClaim] at hs
  split at hs
  · split at hs
    · cases hs
    · cases hs
      exact (d.slots.reservePlain_changes _).concurrency
  · cases hs

theorem reserveWith_concurrency {limit : Slots n → Fin (n + 1) → Int} {ticket : Nat}
    (hs : d.reserveWith limit ticket = some d') : d'.slots.concurrency = d.slots.concurrency := by
  simp only [reserveWith] at hs
  split at hs
  · split at hs
    · cases hs
    · cases hs
      rfl
  · cases hs

theorem finish_concurrency {ticket : Nat} {tasks : List Nat} (hs : d.finish ticket tasks = some d') :
    d'.slots.concurrency = d.slots.concurrency := by
  simp only [finish] at hs
  split at hs
  · split at hs
    · have hsame := admitAll_concurrency hs
      exact hsame
    · cases hs
  · cases hs

theorem drop_concurrency {ticket : Nat} (hs : d.drop ticket = some d') :
    d'.slots.concurrency = d.slots.concurrency := by
  simp only [drop] at hs
  split at hs
  · cases hs
    rfl
  · cases hs

theorem rust_concurrency (hs : Rust.step d e = some d') : d'.slots.concurrency = d.slots.concurrency := by
  cases e with
  | fill fastTierOnly tiersKnown =>
    simp only [Rust.step] at hs
    split at hs
    · obtain ⟨p, -, rfl⟩ := Option.map_eq_some_iff.mp hs
      rfl
    · cases hs
  | startClaim id => exact startClaim_concurrency hs
  | settle id tasks =>
    simp only [Rust.step] at hs
    split at hs
    · split at hs
      · cases hs
        exact (d.slots.returnPlain_changes _).concurrency
      · cases hs
    · cases hs
  | launch =>
    simp only [Rust.step] at hs
    split at hs
    · obtain ⟨d₁, h₁, rfl⟩ := Option.map_eq_some_iff.mp hs
      obtain ⟨-, rfl⟩ := admitTask_cases h₁
      rfl
    · cases hs
      rfl
    · cases hs
  | reserve ticket => exact reserveWith_concurrency hs
  | finish ticket tasks => exact finish_concurrency hs
  | drop ticket => exact drop_concurrency hs
  | refuse refusing =>
    cases hs
    rfl

theorem python_concurrency (hs : Python.step d e = some d') : d'.slots.concurrency = d.slots.concurrency := by
  cases e with
  | fill fullTier allFast =>
    simp only [Python.step] at hs
    split at hs
    · obtain ⟨p, -, rfl⟩ := Option.map_eq_some_iff.mp hs
      rfl
    · cases hs
  | startClaim id => exact startClaim_concurrency hs
  | settle id tasks =>
    simp only [Python.step] at hs
    split at hs
    · split at hs
      · exact (admitAll_concurrency hs).trans (d.slots.returnPlain_changes _).concurrency
      · cases hs
    · cases hs
  | launch => cases hs
  | reserve ticket => exact reserveWith_concurrency hs
  | finish ticket tasks =>
    simp only [Python.step] at hs
    split at hs
    · split at hs
      · split at hs
        · cases hs
          rfl
        · cases hs
      · exact finish_concurrency hs
    · cases hs
  | drop ticket => exact drop_concurrency hs
  | refuse refusing =>
    cases hs
    rfl

theorem Dispatches.concurrency {d₀ : Dispatcher n}
    (hstep : ∀ d d' e, step d e = some d' → d'.slots.concurrency = d.slots.concurrency)
    (h : Dispatches step d₀ d) : d.slots.concurrency = d₀.slots.concurrency := by
  induction h with
  | refl => rfl
  | tail _ _ hs ih => exact (hstep _ _ _ hs).trans ih

theorem Inv.within (h : d.Inv) : d.slots.active - d.slots.handedOver + d.slots.reserved ≤ d.slots.concurrency ∧
    d.leased ≤ d.slots.concurrency := by
  have hfree := h.sound.free
  have hneed := h.spokenFor_nonneg
  have hact := h.sound.active
  have hho := h.sound.handedOver
  have hr := h.sound.reserved
  have hsplit : (d.tickets.sum fun t => if t.handedOver then (0 : Int) else 1) +
      (d.tickets.sum fun t => if t.handedOver then 1 else 0) = d.tickets.sum fun _ => 1 := by
    rw [← Table.sum_add]
    congr 1
    funext t
    cases t.handedOver <;> rfl
  have hplace : d.phase.unplaced ≤ d.spokenFor := by
    unfold spokenFor at hneed ⊢
    cases hphase : d.phase with
    | idle => exact le_rfl
    | planned p =>
      rw [hphase] at hneed
      exact hneed
    | launching cohort tasks => exact le_rfl
  simp only [Slots.free, Slots.active, Slots.handedOver] at hfree ⊢
  refine ⟨by omega, ?_⟩
  simp only [leased]
  omega

end Dispatcher

section Concurrency

open Dispatcher

/-- In a run in which completions leave the loop's pairs of critical sections alone, the slots and the
leased tasks stay within the concurrency. -/
theorem rust_within_concurrency {n concurrency : Nat} {d : Dispatcher n}
    (h : Dispatches Rust.step (new n concurrency) d) :
    d.slots.active - d.slots.handedOver + d.slots.reserved ≤ concurrency ∧ d.leased ≤ concurrency := by
  have hinv := Dispatches.inv (fun _ _ _ => Inv.rust) (new_inv n concurrency) h
  have hsame := Dispatches.concurrency (fun _ _ _ => rust_concurrency) h
  have hwithin := hinv.within
  rwa [hsame] at hwithin

/-- The same of the handler threads, and no claim reserves less than one slot. -/
theorem python_within_concurrency {n concurrency : Nat} {d : Dispatcher n}
    (h : Dispatches Python.step (new n concurrency) d) :
    d.slots.active - d.slots.handedOver + d.slots.reserved ≤ concurrency ∧ d.leased ≤ concurrency ∧
    (∀ ticket limit, d.reservations.get? ticket = some limit → 1 ≤ limit) ∧
    ∀ id p, d.plain.get? id = some p → 1 ≤ p.limit := by
  have hinv := Dispatches.inv (fun _ _ _ => Inv.python) (new_inv n concurrency) h
  have hsame := Dispatches.concurrency (fun _ _ _ => python_concurrency) h
  have hwithin := hinv.within
  rw [hsame] at hwithin
  exact ⟨hwithin.1, hwithin.2, fun ticket limit hr => (hinv.sound.fused ticket limit hr).1,
    fun id p hp => (hinv.sound.plain id p hp).1⟩

theorem Dispatches.run {d₀ d d' : Dispatcher n} {es : List DispatchEvent} (h : Dispatches step d₀ d)
    (hr : d.run (fun d e => if Calm d e then step d e else none) es = some d') : Dispatches step d₀ d' := by
  induction es generalizing d with
  | nil =>
    cases hr
    exact h
  | cons e es ih =>
    obtain ⟨d₁, h₁, hr⟩ := Option.bind_eq_some_iff.mp hr
    simp only [Option.ite_none_right_eq_some] at h₁
    exact ih (h.tail h₁.1 h₁.2) hr

def firstTask : List DispatchEvent := [.fill false false, .startClaim 1, .settle 1 [10]]

theorem rust_firstTask_run : ((new 0 2).run (fun d e => if Calm d e then Rust.step d e else none) (firstTask ++
    [.launch, .launch, .reserve 10, .finish 10 [11], .drop 10])).any (fun d => d.slots.active == 1) = true := by
  decide +kernel

/-- The first task completes with a claim for the next one. -/
theorem rust_within_concurrency_firstTask : ∃ d, Dispatches Rust.step (new 0 2) d ∧ d.slots.active = 1 ∧
    d.slots.active - d.slots.handedOver + d.slots.reserved ≤ 2 ∧ d.leased ≤ 2 := by
  obtain ⟨d, hd, hactive⟩ := (Option.any_eq_true _ _).mp rust_firstTask_run
  have hreach := Dispatches.refl.run hd
  exact ⟨d, hreach, beq_iff_eq.mp hactive, rust_within_concurrency hreach⟩

theorem python_firstTask_run : ((new 0 2).run (fun d e => if Calm d e then Python.step d e else none)
    (firstTask ++ [.reserve 10, .finish 10 [11], .drop 10])).any (fun d => d.slots.active == 1) = true := by
  decide +kernel

theorem python_within_concurrency_firstTask : ∃ d, Dispatches Python.step (new 0 2) d ∧ d.slots.active = 1 ∧
    d.slots.active - d.slots.handedOver + d.slots.reserved ≤ 2 ∧ d.leased ≤ 2 := by
  obtain ⟨d, hd, hactive⟩ := (Option.any_eq_true _ _).mp python_firstTask_run
  have hreach := Dispatches.refl.run hd
  have hwithin := python_within_concurrency hreach
  exact ⟨d, hreach, beq_iff_eq.mp hactive, hwithin.1, hwithin.2.1⟩

/-- The loop reads a free slot, a completion reserves it with its own, and the loop reserves it again. -/
def doubleReservation : List DispatchEvent :=
  firstTask ++ [.launch, .launch, .fill false false, .reserve 10, .startClaim 2]

theorem doubleReservation_run : ((new 0 2).run Rust.step doubleReservation).any (fun d => decide
    (2 < d.slots.active - d.slots.handedOver + d.slots.reserved ∧ 2 < d.leased)) = true := by
  decide +kernel

/-- Three slots of two. -/
theorem rust_overcommits : ∃ d, (new 0 2).run Rust.step doubleReservation = some d ∧
    2 < d.slots.active - d.slots.handedOver + d.slots.reserved ∧ 2 < d.leased := by
  obtain ⟨d, hd, hover⟩ := (Option.any_eq_true _ _).mp doubleReservation_run
  exact ⟨d, hd, of_decide_eq_true hover⟩

/-- The same between `next_claim` and `start_claim`, with two cohorts. -/
def doublePlan : List DispatchEvent :=
  [.fill false false, .startClaim 1, .settle 1 [10, 11, 12], .fill false true, .reserve 12, .startClaim 2]

theorem doublePlan_run : ((new 1 4).run Python.step doublePlan).any (fun d =>
    decide (4 < d.slots.active - d.slots.handedOver + d.slots.reserved) &&
      (Python.step d (.reserve 10)).any fun d => d.reservations.get? 10 == some 0) = true := by
  decide +kernel

/-- Five slots of four. A completion of the other cohort then reserves nothing, and hands its slot over
all the same. -/
theorem python_overcommits : ∃ d, (new 1 4).run Python.step doublePlan = some d ∧
    4 < d.slots.active - d.slots.handedOver + d.slots.reserved ∧
    ∃ d', Python.step d (.reserve 10) = some d' ∧ d'.reservations.get? 10 = some 0 := by
  obtain ⟨d, hd, hover⟩ := (Option.any_eq_true _ _).mp doublePlan_run
  obtain ⟨hover, hzero⟩ := (Bool.and_eq_true _ _).mp hover
  obtain ⟨d', hd', hzero⟩ := (Option.any_eq_true _ _).mp hzero
  exact ⟨d, hd, of_decide_eq_true hover, d', hd', beq_iff_eq.mp hzero⟩

end Concurrency

end Workhorse
