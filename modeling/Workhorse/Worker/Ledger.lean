import Workhorse.Worker.EventLoop
import Workhorse.Worker.Theorems

/-!
# Slot accounting of the TypeScript worker

Each counter is a sum over the executions and the claims in flight, cohort by cohort (`Ledger`). With that, no cohort
and no slot is overdrawn after any turn, and a worker at rest has all its counters at zero.
-/

namespace Workhorse

open Finset

variable {n : Nat} {p : PlainClaim n}

def Execution.within (c : Fin (n + 1)) (f : Execution n → Int) (e : Execution n) : Int :=
  if e.cohort = c then f e else 0

def PlainClaim.within (c : Fin (n + 1)) (p : PlainClaim n) : Int := if p.cohort = some c then p.cohortLimit else 0

theorem sum_executions_within (t : Table Nat (Execution n)) (f : Execution n → Int) :
    ∑ c, t.sum (Execution.within c f) = t.sum f := by
  rw [Table.sum_comm]
  simp [Execution.within]

theorem sum_claims_within (t : Table Nat (PlainClaim n)) : ∑ c, t.sum (PlainClaim.within c) = t.sum (·.inCohort) := by
  rw [Table.sum_comm]
  congr 1
  funext p
  cases hc : p.cohort <;> simp [PlainClaim.within, PlainClaim.inCohort, hc]

section Within

variable {t : Table Nat (Execution n)} {task : Nat} {e e' : Execution n} (f : Execution n → Int) (i : Fin (n + 1))

theorem sum_within_of_none (h : t.get? task = none) : (t.put task e).sum (Execution.within i f) =
    t.sum (Execution.within i f) + if e.cohort = i then f e else 0 := Table.sum_put_of_none _ h

theorem sum_within_of_some (h : t.get? task = some e) (hc : e'.cohort = e.cohort) :
    (t.put task e').sum (Execution.within i f) =
      t.sum (Execution.within i f) + if e.cohort = i then f e' - f e else 0 := by
  rw [Table.sum_put_of_some _ h, Execution.within, Execution.within, hc]
  split <;> ring

theorem sum_within_erase (h : t.get? task = some e) : (t.erase task).sum (Execution.within i f) =
    t.sum (Execution.within i f) + if e.cohort = i then -f e else 0 := by
  rw [Table.sum_erase _ h, Execution.within]
  split <;> ring

end Within

section Claims

/-! Only plain claims move the numbers of claims in flight. -/

variable (s : Slots n) (c i : Fin (n + 1))

theorem Slots.claims_updateCohort {f : Cohort → Cohort} (hf : ∀ x, (f x).claims = x.claims) :
    ((s.updateCohort c f).cohorts i).claims = (s.cohorts i).claims := by
  by_cases hi : i = c
  · subst hi
    simp [updateCohort, hf]
  · simp [updateCohort, hi]

theorem Slots.claims_assign : ((s.assign c).cohorts i).claims = (s.cohorts i).claims := by
  simp [assign, claims_updateCohort]

theorem Slots.claims_reserveFused (limit : Int) :
    ((s.reserveFused c limit).cohorts i).claims = (s.cohorts i).claims := by
  simp [reserveFused, claims_updateCohort]

theorem Slots.claims_returnFused (limit : Int) (claimed : Bool) :
    ((s.returnFused c limit claimed).cohorts i).claims = (s.cohorts i).claims := by
  simp [returnFused, claims_updateCohort]

theorem Slots.claims_release (handedOver : Bool) :
    ((s.release c handedOver).cohorts i).claims = (s.cohorts i).claims := by
  simp [release, claims_updateCohort]

theorem Slots.claims_reservePlain (p : PlainClaim n) :
    ((s.reservePlain p).cohorts i).claims = (s.cohorts i).claims + if p.cohort = some i then 1 else 0 := by
  cases hc : p.cohort with
  | none => simp [reservePlain, hc]
  | some c =>
    by_cases hi : c = i
    · subst hi
      simp [reservePlain, hc, updateCohort]
    · simp [reservePlain, hc, updateCohort, hi, Ne.symm hi]

theorem Slots.claims_returnPlain (p : PlainClaim n) :
    ((s.returnPlain p).cohorts i).claims = (s.cohorts i).claims - if p.cohort = some i then 1 else 0 := by
  cases hc : p.cohort with
  | none => simp [returnPlain, hc]
  | some c =>
    by_cases hi : c = i
    · subst hi
      simp [returnPlain, hc, updateCohort]
    · simp [returnPlain, hc, updateCohort, hi, Ne.symm hi]

theorem Slots.wholeClaims_reservePlain (p : PlainClaim n) :
    (s.reservePlain p).wholeClaims = s.wholeClaims + if p.cohort = none then 1 else 0 := by
  cases hc : p.cohort <;> simp [reservePlain, hc, updateCohort]

theorem Slots.wholeClaims_returnPlain (p : PlainClaim n) :
    (s.returnPlain p).wholeClaims = s.wholeClaims - if p.cohort = none then 1 else 0 := by
  cases hc : p.cohort <;> simp [returnPlain, hc, updateCohort]

end Claims

namespace EventLoop

variable {w w' : EventLoop n} {need need' : Int}

/-- The counters agree with the executions and the claims in flight, no cohort is overdrawn, `need` slots are free. -/
structure Ledger (need : Int) (w : EventLoop n) : Prop where
  capacity : (w.slots.concurrency : Int) = ∑ c, ((w.slots.cohorts c).capacity : Int)
  active : ∀ c, (w.slots.cohorts c).active = w.executions.sum (Execution.within c fun _ => 1)
  handedOver : ∀ c, (w.slots.cohorts c).handedOver =
    w.executions.sum (Execution.within c fun e => if e.handedOver then 1 else 0)
  inCohort : ∀ c, (w.slots.cohorts c).reserved =
    w.claims.sum (PlainClaim.within c) + w.executions.sum (Execution.within c fun e => e.fused.getD 0)
  claims : ∀ c, (w.slots.cohorts c).claims = w.claims.sum fun p => if p.cohort = some c then 1 else 0
  wholeClaims : w.slots.wholeClaims = w.claims.sum fun p => if p.cohort = none then 1 else 0
  reserved : w.slots.reserved = w.claims.sum (·.limit) + w.executions.sum fun e => e.fused.getD 0
  activeSlots : w.activeSlots = w.executions.sum fun e => if e.ended || e.slotHandedOver then 0 else 1
  claim : ∀ id p, w.claims.get? id = some p → 1 ≤ p.limit ∧ 0 ≤ p.inCohort ∧ p.inCohort ≤ p.limit
  /-- A fused claim in flight belongs to an execution that has handed its slot over and still runs, and only an
  execution that has handed its slot over has given it away. -/
  fused : ∀ task e, w.executions.get? task = some e →
    (∀ limit, e.fused = some limit → 1 ≤ limit ∧ e.handedOver = true ∧ e.ended = false ∧ e.slotHandedOver = false) ∧
      (e.slotHandedOver = true → e.handedOver = true)
  room : ∀ c, 0 ≤ (w.slots.cohorts c).free
  free : need ≤ w.slots.free

namespace Ledger

variable (h : w.Ledger need)

include h

theorem mono (hle : need' ≤ need) : w.Ledger need' :=
  ⟨h.capacity, h.active, h.handedOver, h.inCohort, h.claims, h.wholeClaims, h.reserved, h.activeSlots, h.claim, h.fused,
    h.room, hle.trans h.free⟩

theorem sum_active : ∑ c, (w.slots.cohorts c).active = w.executions.size := by
  rw [sum_congr rfl fun c _ => h.active c, sum_executions_within, Table.sum_one]

theorem sum_handedOver : ∑ c, (w.slots.cohorts c).handedOver = w.handedOver := by
  rw [sum_congr rfl fun c _ => h.handedOver c, sum_executions_within, Table.sum_indicator, EventLoop.handedOver]

/-- The sets of the loop and the counters of its cohorts give the same free slots. -/
theorem freeSlots_eq : w.freeSlots = w.slots.free := by
  rw [freeSlots, Slots.free, Slots.active, Slots.handedOver, h.sum_active, h.sum_handedOver]

theorem sum_reserved_le : ∑ c, (w.slots.cohorts c).reserved ≤ w.slots.reserved := by
  have hle : w.claims.sum (·.inCohort) ≤ w.claims.sum (·.limit) := Table.sum_le_sum fun id p hp => (h.claim id p hp).2.2
  rw [sum_congr rfl fun c _ => h.inCohort c, sum_add_distrib, sum_executions_within, sum_claims_within, h.reserved]
  omega

theorem free_le_sum : w.slots.free ≤ ∑ c, (w.slots.cohorts c).free := by
  have hle := h.sum_reserved_le
  have hcap := h.capacity
  simp only [Cohort.free, sum_sub_distrib, sum_add_distrib, Slots.free, Slots.active, Slots.handedOver]
  omega

theorem change {c : Fin (n + 1)} {a o k r : Int} (hc : w.slots.Changes c a o k r w'.slots)
    (hactive : ∀ i, w'.executions.sum (Execution.within i fun _ => 1) =
      w.executions.sum (Execution.within i fun _ => 1) + if c = i then a else 0)
    (hho : ∀ i, w'.executions.sum (Execution.within i fun e => if e.handedOver then 1 else 0) =
      w.executions.sum (Execution.within i fun e => if e.handedOver then 1 else 0) + if c = i then o else 0)
    (hin : ∀ i, w'.claims.sum (PlainClaim.within i) + w'.executions.sum (Execution.within i fun e => e.fused.getD 0) =
      w.claims.sum (PlainClaim.within i) + w.executions.sum (Execution.within i fun e => e.fused.getD 0) +
        if c = i then k else 0)
    (hclaims : ∀ i, (w'.slots.cohorts i).claims = w'.claims.sum fun p => if p.cohort = some i then 1 else 0)
    (hwhole : w'.slots.wholeClaims = w'.claims.sum fun p => if p.cohort = none then 1 else 0)
    (hreserved : w'.claims.sum (·.limit) + (w'.executions.sum fun e => e.fused.getD 0) =
      w.claims.sum (·.limit) + (w.executions.sum fun e => e.fused.getD 0) + r)
    (hslots : w'.activeSlots = w'.executions.sum fun e => if e.ended || e.slotHandedOver then 0 else 1)
    (hclaim : ∀ id p, w'.claims.get? id = some p → 1 ≤ p.limit ∧ 0 ≤ p.inCohort ∧ p.inCohort ≤ p.limit)
    (hfused : ∀ task e, w'.executions.get? task = some e →
      (∀ limit, e.fused = some limit → 1 ≤ limit ∧ e.handedOver = true ∧ e.ended = false ∧ e.slotHandedOver = false) ∧
        (e.slotHandedOver = true → e.handedOver = true))
    (hroom : 0 ≤ (w.slots.cohorts c).free - a + o - k) (hneed : need' ≤ w.slots.free - a + o - r) :
    w'.Ledger need' := by
  -- The counters of a cohort change by what `Changes` says, for the cohort of the turn.
  have hcount : ∀ {g : Cohort → Int} {x : Int}, g (w'.slots.cohorts c) = g (w.slots.cohorts c) + x →
      ∀ i, g (w'.slots.cohorts i) = g (w.slots.cohorts i) + if c = i then x else 0 := by
    intro g x hx i
    by_cases hi : c = i
    · subst hi
      rw [if_pos rfl, hx]
    · rw [hc.cohorts i (Ne.symm hi), if_neg hi, add_zero]
  refine ⟨?_, fun i => ?_, fun i => ?_, fun i => ?_, hclaims, hwhole, ?_, hslots, hclaim, hfused, fun i => ?_, ?_⟩
  · have hcap : ((w'.slots.cohorts c).capacity : Int) = (w.slots.cohorts c).capacity + 0 := by
      rw [hc.capacity, add_zero]
    rw [hc.sum (g := fun x => (x.capacity : Int)) hcap, hc.concurrency, h.capacity, add_zero]
  · rw [hcount (g := fun x => x.active) hc.active i, h.active, hactive]
  · rw [hcount (g := fun x => x.handedOver) hc.handedOver i, h.handedOver, hho]
  · rw [hcount (g := fun x => x.reserved) hc.inCohort i, h.inCohort, hin]
  · rw [hc.reserved, h.reserved, hreserved]
  · by_cases hi : i = c
    · rw [hi, hc.cohort_free]
      exact hroom
    · rw [hc.cohorts i hi]
      exact h.room i
  · rw [hc.free]
    exact hneed

end Ledger

/-! ## Turns -/

variable {task id : Nat} {tasks : List Nat} {preferred : Option (Fin (n + 1))} {e : Execution n}

theorem launch_cases (hs : w.launch preferred task = some w') : w.executions.get? task = none ∧ w' = { w with
      slots := w.slots.assign (w.slots.assigned preferred)
      executions := w.executions.put task ⟨w.slots.assigned preferred, false, none, false, false⟩
      activeSlots := w.activeSlots + 1 } := by
  simp only [launch] at hs
  split at hs
  · cases hs
  · rename_i hnew
    cases hs
    exact ⟨Table.not_contains_iff.mp (by simpa using hnew), rfl⟩

theorem Ledger.fused_put (h : w.Ledger need) {e' : Execution n}
    (he : (∀ limit, e'.fused = some limit →
      1 ≤ limit ∧ e'.handedOver = true ∧ e'.ended = false ∧ e'.slotHandedOver = false) ∧
        (e'.slotHandedOver = true → e'.handedOver = true)) :
    ∀ k e, (w.executions.put task e').get? k = some e →
      (∀ limit, e.fused = some limit → 1 ≤ limit ∧ e.handedOver = true ∧ e.ended = false ∧ e.slotHandedOver = false) ∧
        (e.slotHandedOver = true → e.handedOver = true) := by
  intro k e hk
  rcases Table.get?_put_cases hk with ⟨-, rfl⟩ | ⟨-, hk⟩
  · exact he
  · exact h.fused k e hk

theorem Ledger.launch (h : w.Ledger (need + 1)) (hneed : 0 ≤ need) (hs : w.launch preferred task = some w') :
    w'.Ledger need := by
  obtain ⟨hnone, rfl⟩ := launch_cases hs
  have hfree := h.free
  have hroom := Slots.assigned_room preferred (lt_of_lt_of_le (by omega) h.free_le_sum)
  refine h.change (Slots.assign_changes _ _) (fun i => sum_within_of_none _ i hnone) (fun i => ?_) (fun i => ?_)
    (fun i => ?_) h.wholeClaims ?_ ?_ h.claim (h.fused_put ⟨by simp, by simp⟩) (by omega) (by omega)
  · rw [sum_within_of_none _ i hnone]
    simp
  · rw [sum_within_of_none _ i hnone]
    simp
  · rw [← h.claims i]
    exact w.slots.claims_assign _ i
  · rw [Table.sum_put_of_none _ hnone]
    simp
  · rw [Table.sum_put_of_none _ hnone, h.activeSlots]
    simp

theorem Ledger.launchAll (h : w.Ledger need) (hneed : tasks.length ≤ need)
    (hs : launchAll preferred tasks w = some w') : w'.Ledger (need - tasks.length) := by
  induction tasks generalizing w need with
  | nil =>
    cases hs
    simpa using h
  | cons task tasks ih =>
    obtain ⟨w₁, h₁, hs⟩ := Option.bind_eq_some_iff.mp hs
    simp only [List.length_cons, Nat.cast_add, Nat.cast_one] at hneed ⊢
    have hsplit : w.Ledger (need - 1 + 1) := h.mono (by omega)
    have hnext := hsplit.launch (by omega) h₁
    have hall := ih hnext (by omega) hs
    exact hall.mono (by omega)

theorem plan_fits (h : w.Ledger 0) {fastTierOnly tierKnown : Bool}
    (hp : w.plan fastTierOnly tierKnown = some p) : p.Fits w.slots := by
  simp only [plan, h.freeSlots_eq] at hp
  split at hp
  · split at hp
    · rename_i hfree
      simp only [Bool.and_eq_true, decide_eq_true_eq] at hfree
      cases hp
      exact ⟨hfree.1, le_rfl, hfree.1.le, le_rfl, fun c hc => by cases hc⟩
    · cases hp
  · split at hp
    · rename_i hfree
      simp only [Bool.and_eq_true, decide_eq_true_eq] at hfree
      -- Some slot is free, so the roomiest cohort has one.
      have hroom : 0 < (w.slots.cohorts w.slots.roomiest).free :=
        Slots.assigned_room none (lt_of_lt_of_le hfree.2 h.free_le_sum)
      cases hp
      refine ⟨?_, ?_, ?_, ?_, fun c hc => ?_⟩
      · cases tierKnown
        · exact hfree.2
        · exact Int.add_one_le_iff.mpr (lt_min hfree.2 hroom)
      · exact le_min hfree.2.le hroom.le
      · cases tierKnown
        · exact min_le_left _ _
        · exact le_rfl
      · cases tierKnown
        · exact le_rfl
        · exact min_le_left _ _
      · cases hc
        exact min_le_right _ _
    · cases hp

theorem within_getD (p : PlainClaim n) (i : Fin (n + 1)) :
    p.within i = if p.cohort.getD 0 = i then p.inCohort else 0 := by
  cases hc : p.cohort with
  | none => simp [PlainClaim.within, PlainClaim.inCohort, hc]
  | some c => simp [PlainClaim.within, PlainClaim.inCohort, hc]

theorem Ledger.startClaim (h : w.Ledger 0) (hp : p.Fits w.slots) (hs : w.startClaim id p = some w') : w'.Ledger 0 := by
  simp only [EventLoop.startClaim] at hs
  split at hs
  · cases hs
  rename_i hid
  have hnone : w.claims.get? id = none := Table.not_contains_iff.mp (by simpa using hid)
  cases hs
  refine h.change (w.slots.reservePlain_changes p) (fun i => by simp) (fun i => by simp) (fun i => ?_) (fun i => ?_)
    ?_ ?_ h.activeSlots (fun k q hq => ?_) h.fused ?_ ?_
  · rw [Table.sum_put_of_none _ hnone, within_getD]
    ring
  · rw [Table.sum_put_of_none _ hnone, ← h.claims i]
    exact w.slots.claims_reservePlain i p
  · rw [Table.sum_put_of_none _ hnone, ← h.wholeClaims]
    exact w.slots.wholeClaims_reservePlain p
  · rw [Table.sum_put_of_none _ hnone]
    ring
  · rcases Table.get?_put_cases hq with ⟨-, rfl⟩ | ⟨-, hq⟩
    · exact ⟨hp.limit, hp.nonneg, hp.inCohort⟩
    · exact h.claim k q hq
  · cases hc : p.cohort with
    | none =>
      have := h.room 0
      simpa [PlainClaim.inCohort, hc] using this
    | some c =>
      have := hp.cohort c hc
      simp only [PlainClaim.inCohort, hc, Option.isSome_some, if_true, Option.getD_some]
      omega
  · have := hp.free
    omega

theorem Ledger.returnPlain (h : w.Ledger need) (hp : w.claims.get? id = some p) :
    ({ w with slots := w.slots.returnPlain p, claims := w.claims.erase id }).Ledger (need + p.limit) := by
  have hfree := h.free
  have hroom := h.room (p.cohort.getD 0)
  have hnonneg := (h.claim id p hp).2.1
  refine h.change (w.slots.returnPlain_changes p) (fun i => by simp) (fun i => by simp) (fun i => ?_) (fun i => ?_)
    ?_ ?_ h.activeSlots (fun k q hq => ?_) h.fused (by omega) (by omega)
  · rw [Table.sum_erase _ hp, within_getD]
    split <;> ring
  · rw [Table.sum_erase _ hp, ← h.claims i]
    exact w.slots.claims_returnPlain i p
  · rw [Table.sum_erase _ hp, ← h.wholeClaims]
    exact w.slots.wholeClaims_returnPlain p
  · rw [Table.sum_erase _ hp]
    ring
  · obtain ⟨-, hq⟩ := Table.get?_erase_eq_some hq
    exact h.claim k q hq

theorem Ledger.settleClaim (h : w.Ledger 0) {attempt : Option (List Nat)} (hs : w.settleClaim id attempt = some w') :
    w'.Ledger 0 := by
  simp only [EventLoop.settleClaim] at hs
  split at hs
  · rename_i p hp
    split at hs
    · rename_i hlen
      exact ((h.returnPlain hp).launchAll (by omega) hs).mono (by omega)
    · cases hs
  · cases hs

theorem Ledger.reserveCompletionClaim (h : w.Ledger 0) (hs : w.reserveCompletionClaim task = some w') :
    w'.Ledger 0 := by
  simp only [EventLoop.reserveCompletionClaim, h.freeSlots_eq] at hs
  split at hs
  swap
  · cases hs
  rename_i e he
  split at hs
  · cases hs
  rename_i hopen
  simp only [Bool.or_eq_true, not_or, Bool.not_eq_true] at hopen
  obtain ⟨⟨hended, hho⟩, -⟩ := hopen
  have hfree := h.free
  have hroom := h.room e.cohort
  -- A slot that is not handed over has no fused claim in flight, and was not given away.
  have hnone : e.fused = none := by
    cases hf : e.fused with
    | none => rfl
    | some limit =>
      have := ((h.fused task e he).1 limit hf).2.1
      rw [hho] at this
      cases this
  have hgiven : e.slotHandedOver = false := by
    by_contra hgiven
    have := (h.fused task e he).2 (by simpa using hgiven)
    rw [hho] at this
    cases this
  cases hs
  refine h.change (w.slots.reserveFused_changes e.cohort _) (fun i => ?_) (fun i => ?_) (fun i => ?_) (fun i => ?_)
    h.wholeClaims ?_ ?_ h.claim (h.fused_put ⟨fun limit hlimit => ?_, by simp [hgiven]⟩) (by omega) (by omega)
  · simp [sum_within_of_some _ i he]
  · simp [sum_within_of_some _ i he, hho]
  · simp [sum_within_of_some _ i he, hnone, add_assoc]
  · rw [← h.claims i]
    exact w.slots.claims_reserveFused _ i _
  · simp [Table.sum_put_of_some _ he, hnone, add_assoc]
  · simp [Table.sum_put_of_some _ he, h.activeSlots]
  · cases hlimit
    exact ⟨by omega, rfl, hended, hgiven⟩

theorem Ledger.returnFused (h : w.Ledger 0) (he : w.executions.get? task = some e) {limit : Int}
    (hlimit : e.fused = some limit) (claimed : Bool) :
    ({ w with
      slots := w.slots.returnFused e.cohort limit claimed
      executions := w.executions.put task { e with fused := none, handedOver := claimed, slotHandedOver := claimed }
      activeSlots := if claimed then w.activeSlots - 1 else w.activeSlots }).Ledger
        (limit - if claimed then 0 else 1) := by
  obtain ⟨hpos, hho, hended, hgiven⟩ := (h.fused task e he).1 limit hlimit
  have hfree := h.free
  have hroom := h.room e.cohort
  refine h.change (w.slots.returnFused_changes e.cohort limit claimed) (fun i => ?_) (fun i => ?_) (fun i => ?_)
    (fun i => ?_) h.wholeClaims ?_ ?_ h.claim (h.fused_put ⟨by simp, by simp⟩) (by split <;> omega) (by split <;> omega)
  · simp [sum_within_of_some _ i he]
  · cases claimed <;> simp [sum_within_of_some _ i he, hho]
  · simp [sum_within_of_some _ i he, hlimit, add_assoc]
  · rw [← h.claims i]
    exact w.slots.claims_returnFused _ i _ _
  · simp [Table.sum_put_of_some _ he, hlimit]
    ring
  · cases claimed <;> simp [Table.sum_put_of_some _ he, h.activeSlots, hended, hgiven]

theorem Ledger.settleFused (h : w.Ledger 0) {claimed : Option (List Nat)} (hs : w.settleFused task claimed = some w') :
    w'.Ledger 0 := by
  simp only [EventLoop.settleFused] at hs
  split at hs
  swap
  · cases hs
  rename_i e he
  split at hs
  swap
  · cases hs
  rename_i limit hlimit
  split at hs
  swap
  · cases hs
  rename_i hlen
  have hpos := ((h.fused task e he).1 limit hlimit).1
  have hback := h.returnFused he hlimit (claimed.getD [] ≠ [])
  simp only [decide_eq_true_eq] at hback
  -- A claim that returned no task gives the slot of its execution back to the execution.
  have hneed : ((claimed.getD []).length : Int) ≤ limit - if claimed.getD [] ≠ [] then 0 else 1 := by
    split
    · omega
    · rename_i hnil
      rw [not_not.mp hnil, List.length_nil]
      omega
  exact (hback.launchAll hneed hs).mono (by omega)

theorem Ledger.finish (h : w.Ledger 0) (hs : w.finish task = some w') : w'.Ledger 0 := by
  simp only [EventLoop.finish] at hs
  split at hs
  swap
  · cases hs
  rename_i e he
  split at hs
  · cases hs
  rename_i hopen
  simp only [Bool.or_eq_true, not_or, Bool.not_eq_true, Option.isSome_eq_false_iff, Option.isNone_iff_eq_none] at hopen
  obtain ⟨hended, hnone⟩ := hopen
  have hwithin : ∀ (f : Execution n → Int), f { e with slotHandedOver := false, ended := true } = f e → ∀ i,
      (w.executions.put task { e with slotHandedOver := false, ended := true }).sum (Execution.within i f) =
        w.executions.sum (Execution.within i f) := by
    intro f hf i
    simp [sum_within_of_some _ i he, hf]
  cases hs
  refine ⟨h.capacity, fun c => ?_, fun c => ?_, fun c => ?_, h.claims, h.wholeClaims, ?_, ?_, h.claim,
    h.fused_put ⟨by simp [hnone], by simp⟩, h.room, h.free⟩
  · rw [hwithin _ rfl, h.active]
  · rw [hwithin _ rfl, h.handedOver]
  · rw [hwithin _ rfl, h.inCohort]
  · simp [Table.sum_put_of_some _ he, h.reserved]
  · cases hgiven : e.slotHandedOver <;> simp [Table.sum_put_of_some _ he, h.activeSlots, hended, hgiven]

theorem Ledger.observe (h : w.Ledger 0) (hs : w.observe task = some w') : w'.Ledger 0 := by
  simp only [EventLoop.observe] at hs
  split at hs
  swap
  · cases hs
  rename_i e he
  split at hs
  swap
  · cases hs
  rename_i hended
  have hnone : e.fused = none := by
    cases hf : e.fused with
    | none => rfl
    | some limit =>
      have := ((h.fused task e he).1 limit hf).2.2.1
      rw [hended] at this
      cases this
  have hfree := h.free
  have hroom := h.room e.cohort
  cases hs
  refine h.change (w.slots.release_changes e.cohort e.handedOver) (fun i => sum_within_erase _ i he) (fun i => ?_)
    (fun i => ?_) (fun i => ?_) h.wholeClaims ?_ ?_ h.claim (fun k e' hk => ?_) ?_ ?_
  · rw [sum_within_erase _ i he]
    cases e.handedOver <;> simp
  · simp [sum_within_erase _ i he, hnone]
  · rw [← h.claims i]
    exact w.slots.claims_release _ i _
  · simp [Table.sum_erase _ he, hnone]
  · simp [Table.sum_erase _ he, h.activeSlots, hended]
  · obtain ⟨-, hk⟩ := Table.get?_erase_eq_some hk
    exact h.fused k e' hk
  · split <;> omega
  · split <;> omega

theorem Ledger.step (h : w.Ledger 0) {t : Turn} (hs : w.step t = some w') : w'.Ledger 0 := by
  cases t with
  | claim id fastTierOnly tierKnown =>
    obtain ⟨p, hp, hs⟩ := Option.bind_eq_some_iff.mp hs
    exact h.startClaim (plan_fits h hp) hs
  | settleClaim id attempt => exact h.settleClaim hs
  | reserve task => exact h.reserveCompletionClaim hs
  | settleFused task claimed => exact h.settleFused hs
  | finish task => exact h.finish hs
  | observe task => exact h.observe hs

theorem new_ledger (n concurrency : Nat) : (new n concurrency).Ledger 0 := by
  refine ⟨?_, fun _ => rfl, fun _ => rfl, fun _ => rfl, fun _ => rfl, rfl, rfl, rfl, fun _ _ hp => ?_, fun _ _ he => ?_,
    fun c => ?_, ?_⟩
  · have hsum := @sum_admissionShare concurrency (n + 1) (Nat.succ_pos n)
    rw [← Fin.sum_univ_eq_sum_range] at hsum
    exact_mod_cast hsum.symm
  · cases hp
  · cases he
  · simp only [new, Cohort.free, sub_zero, add_zero]
    exact Int.natCast_nonneg _
  · simp [new, Slots.free, Slots.active, Slots.handedOver]

theorem launchAll_concurrency (hs : launchAll preferred tasks w = some w') :
    w'.slots.concurrency = w.slots.concurrency := by
  induction tasks generalizing w with
  | nil =>
    cases hs
    rfl
  | cons task tasks ih =>
    obtain ⟨w₁, h₁, hs⟩ := Option.bind_eq_some_iff.mp hs
    obtain ⟨-, rfl⟩ := launch_cases h₁
    exact (ih hs).trans (Slots.assign_changes _ _).concurrency

theorem step_concurrency {t : Turn} (hs : w.step t = some w') : w'.slots.concurrency = w.slots.concurrency := by
  cases t with
  | claim id fastTierOnly tierKnown =>
    obtain ⟨p, -, hs⟩ := Option.bind_eq_some_iff.mp hs
    simp only [startClaim] at hs
    split at hs <;> cases hs
    exact (w.slots.reservePlain_changes p).concurrency
  | settleClaim id attempt =>
    simp only [EventLoop.step, settleClaim] at hs
    split at hs
    · rename_i p hp
      split at hs
      · exact (launchAll_concurrency hs).trans (w.slots.returnPlain_changes p).concurrency
      · cases hs
    · cases hs
  | reserve task =>
    simp only [EventLoop.step, reserveCompletionClaim] at hs
    split at hs
    · split at hs <;> cases hs
      exact (w.slots.reserveFused_changes _ _).concurrency
    · cases hs
  | settleFused task claimed =>
    simp only [EventLoop.step, settleFused] at hs
    split at hs
    · split at hs
      · split at hs
        · exact (launchAll_concurrency hs).trans (w.slots.returnFused_changes _ _ _).concurrency
        · cases hs
      · cases hs
    · cases hs
  | finish task =>
    simp only [EventLoop.step, finish] at hs
    split at hs
    · split at hs <;> cases hs
      rfl
    · cases hs
  | observe task =>
    simp only [EventLoop.step, observe] at hs
    split at hs
    · split at hs <;> cases hs
      exact (w.slots.release_changes _ _).concurrency
    · cases hs

end EventLoop

theorem Turns.ledger {concurrency : Nat} {w : EventLoop n} (h : Turns n concurrency w) :
    w.Ledger 0 ∧ w.slots.concurrency = concurrency := by
  induction h with
  | start => exact ⟨EventLoop.new_ledger n concurrency, rfl⟩
  | turn h hs ih => exact ⟨ih.1.step hs, (EventLoop.step_concurrency hs).trans ih.2⟩

/-- Free slots never become negative, the slots in use stay within the concurrency, and a worker at rest has every
counter at zero. -/
theorem typescript_slots_accounted {concurrency : Nat} {w : EventLoop n} (h : Turns n concurrency w) :
    0 ≤ w.freeSlots ∧ (∀ c, 0 ≤ (w.slots.cohorts c).free) ∧
    w.executions.size - w.handedOver + w.slots.reserved ≤ (concurrency : Int) ∧
    (w.executions.size = 0 → w.claims.size = 0 →
      w.slots.reserved = 0 ∧ w.slots.wholeClaims = 0 ∧ w.activeSlots = 0 ∧ w.handedOver = 0 ∧
      ∀ c, (w.slots.cohorts c).active = 0 ∧ (w.slots.cohorts c).handedOver = 0 ∧
        (w.slots.cohorts c).reserved = 0 ∧ (w.slots.cohorts c).claims = 0) := by
  obtain ⟨hl, hsame⟩ := h.ledger
  have hfree : 0 ≤ w.freeSlots := hl.freeSlots_eq ▸ hl.free
  refine ⟨hfree, hl.room, ?_, fun he hc => ?_⟩
  · rw [EventLoop.freeSlots, hsame] at hfree
    omega
  · have hho : (w.handedOver : Int) = 0 := by
      rw [EventLoop.handedOver, ← Table.sum_indicator, Table.sum_eq_zero he]
    refine ⟨?_, ?_, ?_, by exact_mod_cast hho, fun c => ⟨?_, ?_, ?_, ?_⟩⟩
    · rw [hl.reserved, Table.sum_eq_zero he, Table.sum_eq_zero hc, add_zero]
    · rw [hl.wholeClaims, Table.sum_eq_zero hc]
    · rw [hl.activeSlots, Table.sum_eq_zero he]
    · rw [hl.active, Table.sum_eq_zero he]
    · rw [hl.handedOver, Table.sum_eq_zero he]
    · rw [hl.inCohort, Table.sum_eq_zero he, Table.sum_eq_zero hc, add_zero]
    · rw [hl.claims, Table.sum_eq_zero hc]

namespace EventLoop

def run : List Turn → EventLoop n → Option (EventLoop n)
  | [], w => some w
  | t :: turns, w => (w.step t).bind (run turns)

theorem turns_of_run {concurrency : Nat} {w w' : EventLoop n} {turns : List Turn} (h : Turns n concurrency w)
    (hr : run turns w = some w') : Turns n concurrency w' := by
  induction turns generalizing w with
  | nil =>
    cases hr
    exact h
  | cons t turns ih =>
    obtain ⟨w₁, h₁, hr⟩ := Option.bind_eq_some_iff.mp hr
    exact ih (h.turn h₁) hr

/-- Two claims return a task each, and the completion of the first claims a third task into its slot. -/
def handover : List Turn :=
  [.claim 1 true true, .settleClaim 1 (some [10]), .claim 2 true false, .settleClaim 2 (some [11]),
    .reserve 10, .settleFused 10 (some [12])]

def rest : List Turn :=
  [.finish 10, .reserve 11, .observe 10, .finish 12, .settleFused 11 none, .finish 11, .observe 12, .observe 11]

theorem handover_run : (run handover (new 1 3)).any (fun w => w.executions.size == 3 && w.handedOver == 1 &&
    (run rest w).any fun w => w.executions.size == 0 && w.claims.size == 0) = true := by
  decide +kernel

end EventLoop

open EventLoop in
theorem typescript_slots_accounted_handover : ∃ w w' : EventLoop 1,
    run handover (new 1 3) = some w ∧ w.executions.size = 3 ∧ w.handedOver = 1 ∧ 0 ≤ w.freeSlots ∧
    run rest w = some w' ∧ w'.slots.reserved = 0 ∧ w'.activeSlots = 0 := by
  obtain ⟨w, hw, h⟩ := (Option.any_eq_true _ _).mp handover_run
  obtain ⟨h, hrest⟩ := (Bool.and_eq_true _ _).mp h
  obtain ⟨hsize, hho⟩ := (Bool.and_eq_true _ _).mp h
  obtain ⟨w', hw', h⟩ := (Option.any_eq_true _ _).mp hrest
  obtain ⟨he, hc⟩ := (Bool.and_eq_true _ _).mp h
  have hreach := turns_of_run .start hw
  have hend := (typescript_slots_accounted (turns_of_run hreach hw')).2.2.2 (beq_iff_eq.mp he) (beq_iff_eq.mp hc)
  exact ⟨w, w', hw, beq_iff_eq.mp hsize, beq_iff_eq.mp hho, (typescript_slots_accounted hreach).1, hw', hend.1,
    hend.2.2.1⟩

end Workhorse
