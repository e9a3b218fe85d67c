import Workhorse.Admission.Lemmas.Shares
import Workhorse.Worker.Dispatch

/-!
# Slot accounting

The counters are the numbers of tickets and the limits of the claims in flight, no cohort is overdrawn,
and a number of free slots is spoken for (`Sound`). What the loop has planned or has to place is spoken
for; a completion that reserves slots counts all free ones, so it may only do so when none are.
-/

namespace Workhorse

open Finset

variable {n : Nat} {t : Ticket n}

/-! ## Critical sections -/

namespace Slots

/-- What a critical section does: it changes the counts of one cohort, and the slots reserved in all. -/
structure Changes (s : Slots n) (c : Fin (n + 1)) (active handedOver inCohort reserved : Int)
    (s' : Slots n) : Prop where
  concurrency : s'.concurrency = s.concurrency
  cohorts : ∀ i, i ≠ c → s'.cohorts i = s.cohorts i
  capacity : (s'.cohorts c).capacity = (s.cohorts c).capacity
  active : (s'.cohorts c).active = (s.cohorts c).active + active
  handedOver : (s'.cohorts c).handedOver = (s.cohorts c).handedOver + handedOver
  inCohort : (s'.cohorts c).reserved = (s.cohorts c).reserved + inCohort
  reserved : s'.reserved = s.reserved + reserved

theorem changes_updateCohort {s : Slots n} {c : Fin (n + 1)} {f : Cohort → Cohort} {a h k r : Int}
    {reserved : Int} (hcap : (f (s.cohorts c)).capacity = (s.cohorts c).capacity)
    (ha : (f (s.cohorts c)).active = (s.cohorts c).active + a)
    (hh : (f (s.cohorts c)).handedOver = (s.cohorts c).handedOver + h)
    (hk : (f (s.cohorts c)).reserved = (s.cohorts c).reserved + k) (hr : reserved = s.reserved + r) :
    s.Changes c a h k r ({ s with reserved }.updateCohort c f) := by
  refine ⟨rfl, fun i hi => ?_, ?_, ?_, ?_, ?_, hr⟩
  · exact Function.update_of_ne hi _ _
  all_goals simpa [updateCohort] using by assumption

theorem assign_changes (s : Slots n) (c : Fin (n + 1)) : s.Changes c 1 0 0 0 (s.assign c) :=
  changes_updateCohort rfl rfl (add_zero _).symm (add_zero _).symm (add_zero _).symm

theorem reserveFused_changes (s : Slots n) (c : Fin (n + 1)) (limit : Int) :
    s.Changes c 0 1 limit limit (s.reserveFused c limit) := changes_updateCohort rfl (add_zero _).symm rfl rfl rfl

theorem returnFused_changes (s : Slots n) (c : Fin (n + 1)) (limit : Int) (claimed : Bool) :
    s.Changes c 0 (if claimed then 0 else -1) (-limit) (-limit) (s.returnFused c limit claimed) := by
  refine changes_updateCohort rfl (add_zero _).symm ?_ rfl rfl
  cases claimed
  · rfl
  · exact (add_zero _).symm

theorem release_changes (s : Slots n) (c : Fin (n + 1)) (handedOver : Bool) :
    s.Changes c (-1) (if handedOver then -1 else 0) 0 0 (s.release c handedOver) := by
  refine changes_updateCohort rfl rfl ?_ (add_zero _).symm (add_zero _).symm
  cases handedOver
  · exact (add_zero _).symm
  · rfl

section Changes

variable {s s' : Slots n} {c : Fin (n + 1)} {a h k r : Int} (hc : s.Changes c a h k r s')

include hc

theorem Changes.sum {g : Cohort → Int} {x : Int} (hg : g (s'.cohorts c) = g (s.cohorts c) + x) :
    ∑ i, g (s'.cohorts i) = ∑ i, g (s.cohorts i) + x := by
  have hrest : ∑ i ∈ univ.erase c, g (s'.cohorts i) = ∑ i ∈ univ.erase c, g (s.cohorts i) :=
    sum_congr rfl fun i hi => congrArg g (hc.cohorts i (ne_of_mem_erase hi))
  rw [← add_sum_erase univ _ (mem_univ c), hrest, hg, ← add_sum_erase univ (fun i => g (s.cohorts i)) (mem_univ c)]
  ring

theorem Changes.free : s'.free = s.free - a + h - r := by
  have hact := hc.sum (g := fun x => x.active) hc.active
  have hho := hc.sum (g := fun x => x.handedOver) hc.handedOver
  simp only [Slots.free, Slots.active, Slots.handedOver, hact, hho, hc.concurrency, hc.reserved]
  ring

theorem Changes.cohort_free : (s'.cohorts c).free = (s.cohorts c).free - a + h - k := by
  simp only [Cohort.free, hc.capacity, hc.active, hc.handedOver, hc.inCohort]
  ring

end Changes

variable {s : Slots n}

theorem foldl_roomiest (cs : List (Fin (n + 1))) (best : Fin (n + 1)) : (s.cohorts best).free ≤ (s.cohorts (cs.foldl
      (fun best c => if (s.cohorts best).free < (s.cohorts c).free then c else best) best)).free ∧
    ∀ c ∈ cs, (s.cohorts c).free ≤ (s.cohorts (cs.foldl
      (fun best c => if (s.cohorts best).free < (s.cohorts c).free then c else best) best)).free := by
  induction cs generalizing best with
  | nil => exact ⟨le_rfl, fun c hc => by cases hc⟩
  | cons c cs ih =>
    simp only [List.foldl_cons]
    split
    · rename_i hlt
      obtain ⟨hbest, hall⟩ := ih c
      refine ⟨hlt.le.trans hbest, fun c' hc' => ?_⟩
      rcases List.mem_cons.mp hc' with rfl | hc'
      · exact hbest
      · exact hall c' hc'
    · rename_i hle
      obtain ⟨hbest, hall⟩ := ih best
      refine ⟨hbest, fun c' hc' => ?_⟩
      rcases List.mem_cons.mp hc' with rfl | hc'
      · exact (not_lt.mp hle).trans hbest
      · exact hall c' hc'

theorem le_roomiest (c : Fin (n + 1)) : (s.cohorts c).free ≤ (s.cohorts s.roomiest).free :=
  (foldl_roomiest (List.finRange (n + 1)) 0).2 c (List.mem_finRange c)

theorem assigned_room (preferred : Option (Fin (n + 1))) (h : 0 < ∑ i, (s.cohorts i).free) :
    0 < (s.cohorts (s.assigned preferred)).free := by
  have hroom : 0 < (s.cohorts s.roomiest).free := by
    by_contra hle
    refine absurd h (not_lt.mpr (sum_nonpos fun i _ => ?_))
    exact (le_roomiest i).trans (not_lt.mp hle)
  cases preferred with
  | none => exact hroom
  | some c =>
    simp only [assigned]
    split
    · assumption
    · exact hroom

end Slots

def PlainClaim.inCohort (p : PlainClaim n) : Int := if p.cohort.isSome then p.cohortLimit else 0

namespace Slots

variable (s : Slots n) (p : PlainClaim n)

theorem reservePlain_changes : s.Changes (p.cohort.getD 0) 0 0 p.inCohort p.limit (s.reservePlain p) := by
  obtain ⟨limit, cohort, cohortLimit⟩ := p
  cases cohort with
  | some c =>
    change s.Changes c 0 0 cohortLimit limit ({ s with reserved := s.reserved + limit }.updateCohort c
      fun x => { x with claims := x.claims + 1, reserved := x.reserved + cohortLimit })
    exact changes_updateCohort rfl (add_zero _).symm (add_zero _).symm rfl rfl
  | none =>
    exact ⟨rfl, fun _ _ => rfl, rfl, (add_zero _).symm, (add_zero _).symm, (add_zero _).symm, rfl⟩

theorem returnPlain_changes : s.Changes (p.cohort.getD 0) 0 0 (-p.inCohort) (-p.limit) (s.returnPlain p) := by
  obtain ⟨limit, cohort, cohortLimit⟩ := p
  cases cohort with
  | some c =>
    change s.Changes c 0 0 (-cohortLimit) (-limit) ({ s with reserved := s.reserved - limit }.updateCohort
      c fun x => { x with claims := x.claims - 1, reserved := x.reserved - cohortLimit })
    exact changes_updateCohort rfl (add_zero _).symm (add_zero _).symm rfl rfl
  | none =>
    exact ⟨rfl, fun _ _ => rfl, rfl, (add_zero _).symm, (add_zero _).symm, (add_zero _).symm, rfl⟩

end Slots

structure PlainClaim.Fits (p : PlainClaim n) (s : Slots n) : Prop where
  limit : 1 ≤ p.limit
  nonneg : 0 ≤ p.inCohort
  inCohort : p.inCohort ≤ p.limit
  free : p.limit ≤ s.free
  cohort : ∀ c, p.cohort = some c → p.cohortLimit ≤ (s.cohorts c).free

namespace Dispatcher

variable {d d' : Dispatcher n} {need need' : Int}

/-- The counters agree with the tickets and the claims in flight, no cohort is overdrawn, and `need` free
slots are spoken for. -/
structure Sound (need : Int) (d : Dispatcher n) : Prop where
  capacity : (d.slots.concurrency : Int) = ∑ c, ((d.slots.cohorts c).capacity : Int)
  active : ∑ c, (d.slots.cohorts c).active = d.tickets.sum fun _ => 1
  handedOver : ∑ c, (d.slots.cohorts c).handedOver = d.tickets.sum fun t => if t.handedOver then 1 else 0
  reserved : d.slots.reserved = d.plain.sum (·.limit) + d.reservations.sum fun limit => limit
  inCohort : ∑ c, (d.slots.cohorts c).reserved = d.plain.sum (·.inCohort) + d.reservations.sum fun limit => limit
  plain : ∀ id p, d.plain.get? id = some p → 1 ≤ p.limit ∧ 0 ≤ p.inCohort ∧ p.inCohort ≤ p.limit
  fused : ∀ ticket limit, d.reservations.get? ticket = some limit →
    1 ≤ limit ∧ ∃ t, d.tickets.get? ticket = some t ∧ t.handedOver = true
  room : ∀ c, 0 ≤ (d.slots.cohorts c).free
  free : need ≤ d.slots.free

namespace Sound

variable (h : d.Sound need)

include h

theorem mono (hle : need' ≤ need) : d.Sound need' :=
  ⟨h.capacity, h.active, h.handedOver, h.reserved, h.inCohort, h.plain, h.fused, h.room, hle.trans h.free⟩

theorem elsewhere (phase : Phase n) (refusing : Bool) : ({ d with phase, refusing }).Sound need :=
  ⟨h.capacity, h.active, h.handedOver, h.reserved, h.inCohort, h.plain, h.fused, h.room, h.free⟩

theorem free_le_sum : d.slots.free ≤ ∑ c, (d.slots.cohorts c).free := by
  have hsum : ∑ c, (d.slots.cohorts c).free = ∑ c, ((d.slots.cohorts c).capacity : Int) -
      ∑ c, (d.slots.cohorts c).active + ∑ c, (d.slots.cohorts c).handedOver - ∑ c, (d.slots.cohorts c).reserved := by
    simp only [Cohort.free, sum_sub_distrib, sum_add_distrib]
  have hle : d.plain.sum (·.inCohort) ≤ d.plain.sum (·.limit) := Table.sum_le_sum fun id p hp => (h.plain id p hp).2.2
  have hc := h.capacity
  have hr := h.reserved
  have hk := h.inCohort
  simp only [Slots.free, Slots.active, Slots.handedOver]
  omega

theorem change {c : Fin (n + 1)} {a o k r : Int} (hc : d.slots.Changes c a o k r d'.slots)
    (ha : (d'.tickets.sum fun _ => (1 : Int)) = (d.tickets.sum fun _ => 1) + a)
    (ho : (d'.tickets.sum fun t => if t.handedOver then (1 : Int) else 0) =
      (d.tickets.sum fun t => if t.handedOver then 1 else 0) + o)
    (hr : d'.plain.sum (·.limit) + (d'.reservations.sum fun limit => limit) =
      d.plain.sum (·.limit) + (d.reservations.sum fun limit => limit) + r)
    (hk : d'.plain.sum (·.inCohort) + (d'.reservations.sum fun limit => limit) =
      d.plain.sum (·.inCohort) + (d.reservations.sum fun limit => limit) + k)
    (hplain : ∀ id p, d'.plain.get? id = some p → 1 ≤ p.limit ∧ 0 ≤ p.inCohort ∧ p.inCohort ≤ p.limit)
    (hfused : ∀ ticket limit, d'.reservations.get? ticket = some limit →
      1 ≤ limit ∧ ∃ t, d'.tickets.get? ticket = some t ∧ t.handedOver = true)
    (hroom : 0 ≤ (d.slots.cohorts c).free - a + o - k) (hneed : need' ≤ d.slots.free - a + o - r) :
    d'.Sound need' := by
  refine ⟨?_, ?_, ?_, ?_, ?_, hplain, hfused, fun i => ?_, ?_⟩
  · have hcap : ((d'.slots.cohorts c).capacity : Int) = (d.slots.cohorts c).capacity + 0 := by
      rw [hc.capacity, add_zero]
    rw [hc.sum (g := fun x => (x.capacity : Int)) hcap, hc.concurrency, h.capacity, add_zero]
  · rw [hc.sum (g := fun x => x.active) hc.active, h.active, ha]
  · rw [hc.sum (g := fun x => x.handedOver) hc.handedOver, h.handedOver, ho]
  · rw [hc.reserved, h.reserved, hr]
  · rw [hc.sum (g := fun x => x.reserved) hc.inCohort, h.inCohort, hk]
  · by_cases hi : i = c
    · rw [hi, hc.cohort_free]
      exact hroom
    · rw [hc.cohorts i hi]
      exact h.room i
  · rw [hc.free]
    exact hneed

end Sound

/-! ## Steps -/

section Steps

variable {ticket id task : Nat} {tasks : List Nat} {limit : Int} {preferred : Option (Fin (n + 1))}

theorem admitTask_cases (hs : d.admitTask preferred task = some d') : d.tickets.get? task = none ∧ d' = { d with
      slots := d.slots.assign (d.slots.assigned preferred)
      tickets := d.tickets.put task ⟨d.slots.assigned preferred, false⟩ } := by
  simp only [admitTask] at hs
  split at hs
  · cases hs
  · rename_i hnew
    cases hs
    exact ⟨Table.not_contains_iff.mp (by simpa using hnew), rfl⟩

theorem Sound.fused_put (h : d.Sound need) (hnone : d.tickets.get? task = none) :
    ∀ ticket limit, d.reservations.get? ticket = some limit →
      1 ≤ limit ∧ ∃ t', (d.tickets.put task t).get? ticket = some t' ∧ t'.handedOver = true := by
  intro ticket limit hr
  obtain ⟨hlimit, t', ht', hho⟩ := h.fused ticket limit hr
  refine ⟨hlimit, t', ?_, hho⟩
  have hne : ticket ≠ task := by
    rintro rfl
    rw [hnone] at ht'
    cases ht'
  simp [hne, ht']

theorem Sound.admitTask (h : d.Sound (need + 1)) (hneed : 0 ≤ need)
    (hs : d.admitTask preferred task = some d') : d'.Sound need := by
  obtain ⟨hnone, rfl⟩ := admitTask_cases hs
  have hfree := h.free
  have hroom := Slots.assigned_room preferred (lt_of_lt_of_le (by omega) h.free_le_sum)
  refine h.change (Slots.assign_changes _ _) (Table.sum_put_of_none _ hnone) ?_ (add_zero _).symm
    (add_zero _).symm h.plain (h.fused_put hnone) (by omega) (by omega)
  rw [Table.sum_put_of_none _ hnone]
  rfl

theorem Sound.admitAll (h : d.Sound need) (hneed : tasks.length ≤ need)
    (hs : admitAll preferred tasks d = some d') : d'.Sound (need - tasks.length) := by
  induction tasks generalizing d need with
  | nil =>
    cases hs
    simpa using h
  | cons task tasks ih =>
    obtain ⟨d₁, h₁, hs⟩ := Option.bind_eq_some_iff.mp hs
    simp only [List.length_cons, Nat.cast_add, Nat.cast_one] at hneed ⊢
    have hsplit : d.Sound (need - 1 + 1) := h.mono (by omega)
    have hnext := hsplit.admitTask (by omega) h₁
    have hall := ih hnext (by omega) hs
    exact hall.mono (by omega)

theorem Sound.reservePlain (h : d.Sound need) {p : PlainClaim n} (hp : p.Fits d.slots)
    (hid : d.plain.get? id = none) : ({ d with
      slots := d.slots.reservePlain p, plain := d.plain.put id p, phase := .idle }).Sound 0 := by
  refine h.change (d.slots.reservePlain_changes p) (add_zero _).symm (add_zero _).symm ?_ ?_
    (fun k q hq => ?_) h.fused ?_ ?_
  · rw [Table.sum_put_of_none _ hid]
    ring
  · rw [Table.sum_put_of_none _ hid]
    ring
  · rcases Table.get?_put_cases hq with ⟨-, rfl⟩ | ⟨-, hq⟩
    · exact ⟨hp.limit, hp.nonneg, hp.inCohort⟩
    · exact h.plain k q hq
  · cases hc : p.cohort with
    | none =>
      have := h.room 0
      simpa [PlainClaim.inCohort, hc] using this
    | some c =>
      have := hp.cohort c hc
      simp only [PlainClaim.inCohort, hc, Option.isSome_some, if_true, Option.getD_some]
      omega
  · have := hp.free
    omega

theorem Sound.returnPlain (h : d.Sound need) {p : PlainClaim n} (phase : Phase n)
    (hp : d.plain.get? id = some p) : ({ d with
      slots := d.slots.returnPlain p, plain := d.plain.erase id, phase }).Sound (need + p.limit) := by
  have hfree := h.free
  have hroom := h.room (p.cohort.getD 0)
  have hnonneg := (h.plain id p hp).2.1
  refine h.change (d.slots.returnPlain_changes p) (add_zero _).symm (add_zero _).symm ?_ ?_
    (fun k q hq => ?_) h.fused (by omega) (by omega)
  · rw [Table.sum_erase _ hp]
    ring
  · rw [Table.sum_erase _ hp]
    ring
  · obtain ⟨-, hq⟩ := Table.get?_erase_eq_some hq
    exact h.plain k q hq

/-- A completion reserves the free slots of its cohort and its own, when none is spoken for. -/
theorem Sound.reserveFused (h : d.Sound 0) (ht : d.tickets.get? ticket = some t)
    (hho : t.handedOver = false) (hlimit : limit = min d.slots.free (d.slots.cohorts t.cohort).free + 1) : ({ d with
      slots := d.slots.reserveFused t.cohort limit
      tickets := d.tickets.put ticket { t with handedOver := true }
      reservations := d.reservations.put ticket limit }).Sound 0 := by
  have hfree := h.free
  have hroom := h.room t.cohort
  have hnone : d.reservations.get? ticket = none := by
    cases hr : d.reservations.get? ticket with
    | none => rfl
    | some l =>
      obtain ⟨-, t', ht', hho'⟩ := h.fused ticket l hr
      cases ht.symm.trans ht'
      rw [hho] at hho'
      cases hho'
  refine h.change (d.slots.reserveFused_changes t.cohort limit) ?_ ?_ ?_ ?_ h.plain (fun k l hl => ?_)
    (by omega) (by omega)
  · rw [Table.sum_put_of_some _ ht]
    ring
  · rw [Table.sum_put_of_some _ ht, hho]
    simp
  · rw [Table.sum_put_of_none _ hnone]
    ring
  · rw [Table.sum_put_of_none _ hnone]
    ring
  · rcases Table.get?_put_cases hl with ⟨hk, rfl⟩ | ⟨hk, hl⟩
    · exact ⟨by omega, { t with handedOver := true }, by simp [hk], rfl⟩
    · obtain ⟨hl, t', ht', hho'⟩ := h.fused k l hl
      exact ⟨hl, t', by simp [hk, ht'], hho'⟩

theorem Sound.returnFused (h : d.Sound need) (claimed : Bool)
    (ht : d.tickets.get? ticket = some t) (hr : d.reservations.get? ticket = some limit) : ({ d with
      slots := d.slots.returnFused t.cohort limit claimed
      tickets := d.tickets.put ticket { t with handedOver := claimed }
      reservations := d.reservations.erase ticket }).Sound
        (need + limit - if claimed then 0 else 1) := by
  obtain ⟨hlimit, t', ht', hho⟩ := h.fused ticket limit hr
  cases ht.symm.trans ht'
  have hfree := h.free
  have hroom := h.room t.cohort
  refine h.change (d.slots.returnFused_changes t.cohort limit claimed) ?_ ?_ ?_ ?_ h.plain
    (fun k l hl => ?_) ?_ ?_
  · rw [Table.sum_put_of_some _ ht]
    ring
  · rw [Table.sum_put_of_some _ ht, hho]
    cases claimed
    · simp only [if_true, Bool.false_eq_true, if_false]
      ring
    · simp
  · rw [Table.sum_erase _ hr]
    ring
  · rw [Table.sum_erase _ hr]
    ring
  · obtain ⟨hk, hl⟩ := Table.get?_erase_eq_some hl
    obtain ⟨hl, t', ht', hho'⟩ := h.fused k l hl
    exact ⟨hl, t', by simp [hk, ht'], hho'⟩
  · split <;> omega
  · split <;> omega

theorem Sound.release (h : d.Sound need) (ht : d.tickets.get? ticket = some t)
    (hr : d.reservations.get? ticket = none) : ({ d with
      slots := d.slots.release t.cohort t.handedOver
      tickets := d.tickets.erase ticket }).Sound need := by
  have hfree := h.free
  have hroom := h.room t.cohort
  refine h.change (d.slots.release_changes t.cohort t.handedOver) ?_ ?_ (add_zero _).symm (add_zero _).symm
    h.plain (fun k l hl => ?_) ?_ ?_
  · rw [Table.sum_erase _ ht]
    rfl
  · rw [Table.sum_erase _ ht]
    cases t.handedOver
    · simp
    · rfl
  · obtain ⟨hl', t', ht', hho⟩ := h.fused k l hl
    refine ⟨hl', t', ?_, hho⟩
    have hk : k ≠ ticket := by
      rintro rfl
      rw [hr] at hl
      cases hl
    simp [hk, ht']
  · split <;> omega
  · split <;> omega

/-! ## Plans -/

theorem admitAll_phase (hs : Dispatcher.admitAll preferred tasks d = some d') : d'.phase = d.phase := by
  induction tasks generalizing d with
  | nil =>
    cases hs
    rfl
  | cons task tasks ih =>
    obtain ⟨d₁, h₁, hs⟩ := Option.bind_eq_some_iff.mp hs
    obtain ⟨-, rfl⟩ := admitTask_cases h₁
    have hphase := ih hs
    exact hphase

theorem admitAll_free {c : Fin (n + 1)} (hroom : tasks.length ≤ (d.slots.cohorts c).free)
    (hs : Dispatcher.admitAll (some c) tasks d = some d') :
    (∀ i, i ≠ c → d'.slots.cohorts i = d.slots.cohorts i) ∧
    (d'.slots.cohorts c).free = (d.slots.cohorts c).free - tasks.length := by
  induction tasks generalizing d with
  | nil =>
    cases hs
    exact ⟨fun _ _ => rfl, by simp⟩
  | cons task tasks ih =>
    obtain ⟨d₁, h₁, hs⟩ := Option.bind_eq_some_iff.mp hs
    obtain ⟨-, rfl⟩ := admitTask_cases h₁
    simp only [List.length_cons, Nat.cast_add, Nat.cast_one] at hroom ⊢
    have hassigned : d.slots.assigned (some c) = c := if_pos (by omega)
    rw [hassigned] at hs
    have hchanges := d.slots.assign_changes c
    have hfree := hchanges.cohort_free
    obtain ⟨hothers, hc⟩ := ih (by change _ ≤ ((d.slots.assign c).cohorts c).free; omega) hs
    refine ⟨fun i hi => (hothers i hi).trans (hchanges.cohorts i hi), ?_⟩
    rw [hc]
    change ((d.slots.assign c).cohorts c).free - _ = _
    omega

/-- A settled fused claim leaves every cohort at least the room it had. -/
theorem finish_spec (h : d.Sound need) (hneed : 0 ≤ need) (hs : d.finish ticket tasks = some d') :
    d'.Sound need ∧ d'.phase = d.phase ∧ ∀ c, (d.slots.cohorts c).free ≤ (d'.slots.cohorts c).free := by
  simp only [finish] at hs
  split at hs
  · rename_i t limit ht hr
    split at hs
    · rename_i hlen
      have hlimit := (h.fused ticket limit hr).1
      have hroom := h.room t.cohort
      have hback := h.returnFused (decide (tasks ≠ [])) ht hr
      have hchanges := d.slots.returnFused_changes t.cohort limit (decide (tasks ≠ []))
      have hfree := hchanges.cohort_free
      have hall := hback.admitAll (by cases tasks <;> simp at hlen ⊢ <;> omega) hs
      obtain ⟨hothers, hc⟩ := admitAll_free
        (by change _ ≤ ((d.slots.returnFused t.cohort limit _).cohorts t.cohort).free
            rw [hfree]
            cases tasks <;> simp at hlen ⊢ <;> omega) hs
      have hphase := admitAll_phase hs
      refine ⟨hall.mono (by cases tasks <;> simp at hlen ⊢ <;> omega), hphase, fun c => ?_⟩
      by_cases hc' : c = t.cohort
      · rw [hc', hc]
        change _ ≤ ((d.slots.returnFused t.cohort limit _).cohorts t.cohort).free - _
        rw [hfree]
        cases tasks <;> simp at hlen ⊢ <;> omega
      · rw [hothers c hc']
        exact (congrArg Cohort.free (hchanges.cohorts c hc')).ge
    · cases hs
  · cases hs

theorem drop_spec (h : d.Sound need) (hs : d.drop ticket = some d') : d'.Sound need ∧ d'.phase = d.phase ∧
      ∀ c, (d.slots.cohorts c).free ≤ (d'.slots.cohorts c).free := by
  simp only [drop] at hs
  split at hs
  · rename_i t ht hr
    cases hs
    refine ⟨h.release ht hr, rfl, fun c => ?_⟩
    have hchanges := d.slots.release_changes t.cohort t.handedOver
    by_cases hc : c = t.cohort
    · subst hc
      rw [hchanges.cohort_free]
      split <;> omega
    · exact (congrArg Cohort.free (hchanges.cohorts c hc)).ge
  · cases hs

end Steps

/-! ## The loop -/

/-- The free slots that the loop has planned with, or needs for tasks that it has to place. -/
def spokenFor (d : Dispatcher n) : Int :=
  match d.phase with
  | .idle => 0
  | .planned p => p.limit
  | .launching _ tasks => tasks.length

structure Inv (d : Dispatcher n) : Prop where
  sound : d.Sound d.spokenFor
  plan : ∀ p, d.phase = .planned p → p.Fits d.slots

theorem Inv.spokenFor_nonneg (h : d.Inv) : 0 ≤ d.spokenFor := by
  unfold spokenFor
  split
  · exact le_rfl
  · rename_i p hp
    exact (Int.zero_lt_one.le).trans (h.plan p hp).limit
  · exact Int.natCast_nonneg _

theorem Inv.keep (h : d.Inv) (hphase : d'.phase = d.phase) (hsound : d'.Sound d.spokenFor)
    (hroom : ∀ c, (d.slots.cohorts c).free ≤ (d'.slots.cohorts c).free) : d'.Inv := by
  have hneed : d'.spokenFor = d.spokenFor := by
    unfold spokenFor
    rw [hphase]
  refine ⟨hneed ▸ hsound, fun p hp => ?_⟩
  rw [hphase] at hp
  have hfits := h.plan p hp
  refine ⟨hfits.limit, hfits.nonneg, hfits.inCohort, ?_, fun c hc => (hfits.cohort c hc).trans (hroom c)⟩
  have hfree := hsound.free
  simpa [spokenFor, hp] using hfree

theorem Inv.idle (hsound : d.Sound 0) (hphase : d.phase = .idle) : d.Inv := by
  refine ⟨?_, fun p hp => ?_⟩
  · simpa [spokenFor, hphase] using hsound
  · rw [hphase] at hp
    cases hp

theorem Inv.planned (h : d.Inv) {p : PlainClaim n} (hp : p.Fits d.slots) : ({ d with phase := .planned p }).Inv := by
  refine ⟨?_, fun q hq => ?_⟩
  · have hsound := h.sound.elsewhere (.planned p) d.refusing
    exact ⟨hsound.capacity, hsound.active, hsound.handedOver, hsound.reserved, hsound.inCohort,
      hsound.plain, hsound.fused, hsound.room, hp.free⟩
  · cases hq
    exact hp

theorem Inv.startClaim {id : Nat} (h : d.Inv) (hs : d.startClaim id = some d') : d'.Inv := by
  simp only [Dispatcher.startClaim] at hs
  split at hs
  · rename_i p hp
    split at hs
    · cases hs
    · rename_i hid
      cases hs
      have hnone := Table.not_contains_iff.mp (by simpa using hid)
      exact .idle (h.sound.reservePlain (h.plan p hp) hnone) rfl
  · cases hs

theorem Inv.finish {ticket : Nat} {tasks : List Nat} (h : d.Inv) (hs : d.finish ticket tasks = some d') : d'.Inv := by
  obtain ⟨hsound, hphase, hroom⟩ := finish_spec h.sound h.spokenFor_nonneg hs
  exact h.keep hphase hsound hroom

theorem Inv.drop {ticket : Nat} (h : d.Inv) (hs : d.drop ticket = some d') : d'.Inv := by
  obtain ⟨hsound, hphase, hroom⟩ := drop_spec h.sound hs
  exact h.keep hphase hsound hroom

theorem Inv.reserve {ticket : Nat} {limit : Slots n → Fin (n + 1) → Int} (h : d.Inv)
    (hcalm : d.phase = .idle) (hs : d.reserveWith limit ticket = some d')
    (hlimit : ∀ c, 0 ≤ d.slots.free → 0 ≤ (d.slots.cohorts c).free →
      limit d.slots c = min d.slots.free (d.slots.cohorts c).free + 1) : d'.Inv := by
  have hsound : d.Sound 0 := by simpa [spokenFor, hcalm] using h.sound
  simp only [reserveWith] at hs
  split at hs
  · rename_i t ht
    split at hs
    · cases hs
    · rename_i hopen
      cases hs
      simp only [Bool.or_eq_true, not_or, Bool.not_eq_true] at hopen
      exact .idle (hsound.reserveFused ht hopen.1.2 (hlimit _ hsound.free (hsound.room _))) hcalm
  · cases hs

theorem Inv.refuse {refusing : Bool} (h : d.Inv) : ({ d with refusing }).Inv :=
  h.keep rfl (h.sound.elsewhere _ _) fun _ => le_rfl


end Dispatcher

end Workhorse
