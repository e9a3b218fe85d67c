import Workhorse.Dependency.Lemmas.Fates
import Workhorse.Task.Theorems

/-!
# Repair from any drift

Whatever the counters of the blocked rows say, a repair that lists every drifted row leaves none, and a task that ends
resolves its dependents without an early release and without a write that a table would refuse.
-/

namespace Workhorse

open Db Relation

variable {s s' : Session} {id : TaskId} {r : Runtime} {db : Db} {limit : Int}

/-! ## The listing -/

def Db.Drifted (db : Db) (id : TaskId) : Prop := ∃ r, db.runtime.get? id = some r ∧ db.isDrifted id r = true

theorem isDrifted_iff : db.isDrifted id r = true ↔
    r.state = .blocked ∧ (db.counterDrifted id r = true ∨ db.pendingEdges id = 0) := by
  simp [isDrifted]

theorem dependencyCounterDrift_eq_nil (hlimit : 1 ≤ limit ∧ limit ≤ 100000) :
    dependencyCounterDrift db limit = .ok [] ↔ ∀ id, ¬db.Drifted id := by
  have hin : ¬(limit < 1 ∨ 100000 < limit) := by omega
  have hpos : limit.toNat ≠ 0 := by omega
  rw [dependencyCounterDrift, if_neg hin]
  change Except.ok _ = Except.ok _ ↔ _
  rw [Except.ok.injEq, List.map_eq_nil_iff, List.take_eq_nil_iff, or_iff_right hpos, ← List.length_eq_zero_iff,
    List.length_insertionSort, List.length_eq_zero_iff, List.eq_nil_iff_forall_not_mem]
  constructor
  · rintro h id ⟨r, hr, hd⟩
    exact h (id, r) (Table.mem_select.mpr ⟨hr, hd⟩)
  · rintro h ⟨id, r⟩ hmem
    exact h id ⟨r, Table.mem_select.mp hmem⟩

theorem mem_dependencyCounterDrift (hlimit : 1 ≤ limit ∧ limit ≤ 100000)
    (hcovers : ((db.runtime.select db.isDrifted).length : Int) ≤ limit) :
    ∃ drift, dependencyCounterDrift db limit = .ok drift ∧ (drift.map (·.taskId)).Nodup ∧
      ∀ id, id ∈ drift.map (·.taskId) ↔ db.Drifted id := by
  have hin : ¬(limit < 1 ∨ 100000 < limit) := by omega
  rw [dependencyCounterDrift, if_neg hin]
  refine ⟨_, rfl, ?_⟩
  have hperm := List.perm_insertionSort (fun a b : TaskId × Runtime => a.1 ≤ b.1) (db.runtime.select db.isDrifted)
  rw [List.take_of_length_le (by rw [hperm.length_eq]; omega), List.map_map]
  constructor
  · exact (hperm.map Prod.fst).nodup_iff.mpr (Table.nodup_select _ _)
  · intro id
    simp only [List.mem_map, Function.comp_apply, hperm.mem_iff, Prod.exists, Table.mem_select]
    constructor
    · rintro ⟨_, r, h, rfl⟩
      exact ⟨r, h⟩
    · rintro ⟨r, h⟩
      exact ⟨id, r, h, rfl⟩

/-! ## What is repaired -/

structure Covering (db : Db) (repairs : List CounterRepair) : Prop where
  nodup : (repairs.map (·.taskId)).Nodup
  mem : ∀ c, c ∈ repairs ↔ db.Drifted c.taskId ∧ counterRepair db c.taskId = some c

theorem counterRepair_of_drifted (h : db.Drifted id) : ∃ c, counterRepair db id = some c ∧ c.taskId = id := by
  obtain ⟨r, hr, hd⟩ := h
  have hneeds : (db.counterDrifted id r || db.pendingEdges id == 0) = true := by
    simpa using (isDrifted_iff.mp hd).2
  simp [counterRepair, hr, hneeds]

theorem counterRepair_taskId {c : CounterRepair} (h : counterRepair db id = some c) : c.taskId = id := by
  unfold counterRepair at h
  split at h
  · cases h
  · split at h
    · cases h
      rfl
    · cases h

theorem repairDependencyCountersInternal_covering (hlimit : 1 ≤ limit ∧ limit ≤ 100000)
    (hcovers : ((s.db.runtime.select s.db.isDrifted).length : Int) ≤ limit) :
    ∃ repairs, Covering s.db repairs ∧ repairDependencyCountersInternal limit s = .ok (repairs,
      settleDependents onOutcomes s.now (ofAction .rejected repairs) (ofAction .released repairs)
        (s.ask.update fun db => repairs.foldl recordRepair db)) := by
  obtain ⟨drift, hdrift, hnodup, hmem⟩ := mem_dependencyCounterDrift hlimit hcovers
  refine ⟨_, ⟨?_, fun c => ?_⟩, by
    rw [repairDependencyCountersInternal, Session.ask_db, hdrift]
    rfl⟩
  · rw [List.map_filterMap]
    refine (nodup_byId.mpr (hnodup.filter _)).filterMap fun a a' b hb hb' => ?_
    obtain ⟨c, hc, rfl⟩ := Option.map_eq_some_iff.mp hb
    obtain ⟨c', hc', hcc⟩ := Option.map_eq_some_iff.mp hb'
    rw [← counterRepair_taskId hc, ← counterRepair_taskId hc', hcc]
  · simp only [List.mem_filterMap, mem_byId, List.mem_filter, hmem]
    constructor
    · rintro ⟨id, ⟨hid, -⟩, hc⟩
      obtain rfl := counterRepair_taskId hc
      exact ⟨hid, hc⟩
    · rintro ⟨hid, hc⟩
      obtain ⟨r, hr, hd⟩ := hid
      exact ⟨c.taskId, ⟨⟨r, hr, hd⟩, isBlocked_iff.mpr ⟨r, hr, (isDrifted_iff.mp hd).1⟩⟩, hc⟩

/-! ## The state that is settled -/

section Recorded

variable {repairs : List CounterRepair} {c : CounterRepair}

theorem counterRepair_spec (h : counterRepair db id = some c) :
    c.pendingEdges = db.pendingEdges id ∧ c.rejectedEdges = db.rejectedEdges id ∧
      (c.action = .recounted ↔ 0 < db.pendingEdges id) ∧
      (c.action = .rejected ↔ db.pendingEdges id = 0 ∧ db.rejectedEdges id = true) ∧
      (c.action = .released ↔ db.pendingEdges id = 0 ∧ db.rejectedEdges id = false) := by
  unfold counterRepair at h
  split at h
  · cases h
  · split at h
    · cases h
      rcases Nat.eq_zero_or_pos (db.pendingEdges id) with hp | hp
      · cases hrej : db.rejectedEdges id <;> simp [hp]
      · simp [hp, hp.ne']
    · cases h

def CounterRepair.record (c : CounterRepair) (r : Runtime) : Runtime :=
  if c.action = .recounted then { r with pendingPrerequisites := c.pendingEdges, dependencyRejected := c.rejectedEdges }
  else r

theorem rewrites_recordRepair : Rewrites recordRepair CounterRepair.taskId CounterRepair.record where
  row db c id := by
    unfold recordRepair CounterRepair.record
    by_cases hc : c.action = .recounted
    · simp [hc, setCounters, addEvent]
    · simp [hc, addEvent]
  outcomes db c := by
    unfold recordRepair
    split <;> rfl
  dependencies db c := by
    unfold recordRepair
    split <;> rfl

theorem pendingEdges_recorded : (repairs.foldl recordRepair db).pendingEdges id = db.pendingEdges id := by
  rw [pendingEdges, rewrites_recordRepair.foldl_dependencies]
  rfl

theorem rejectedEdges_recorded : (repairs.foldl recordRepair db).rejectedEdges id = db.rejectedEdges id := by
  rw [rejectedEdges, rewrites_recordRepair.foldl_dependencies]
  rfl

theorem mem_ofAction {action : CounterAction} : id ∈ ofAction action repairs ↔
    ∃ c, c ∈ repairs ∧ c.action = action ∧ c.taskId = id := by
  simp [ofAction, and_assoc]

namespace Covering

theorem repair (h : Covering db repairs) (hid : db.Drifted id) :
    ∃ c, c ∈ repairs ∧ c.taskId = id ∧ counterRepair db id = some c := by
  obtain ⟨c, hc, rfl⟩ := counterRepair_of_drifted hid
  exact ⟨c, (h.mem c).mpr ⟨hid, hc⟩, rfl, hc⟩

theorem row (h : Covering db repairs) (hr : db.runtime.get? id = some r) :
    (repairs.foldl recordRepair db).runtime.get? id = some
      (if db.isDrifted id r = true ∧ 0 < db.pendingEdges id then
        { r with pendingPrerequisites := db.pendingEdges id, dependencyRejected := db.rejectedEdges id } else r) := by
  by_cases hd : db.isDrifted id r = true
  · obtain ⟨c, hc, rfl, hrepair⟩ := h.repair ⟨r, hr, hd⟩
    obtain ⟨hpe, hre, hrec, -⟩ := counterRepair_spec hrepair
    rw [rewrites_recordRepair.foldl_row h.nodup hc, hr, Option.map_some, CounterRepair.record, hpe, hre]
    simp only [hrec, hd, true_and]
  · rw [rewrites_recordRepair.foldl_other ?_, hr, if_neg fun h => hd h.1]
    intro hmem
    obtain ⟨c, hc, rfl⟩ := List.mem_map.mp hmem
    obtain ⟨r', hr', hd'⟩ := ((h.mem c).mp hc).1
    rw [hr] at hr'
    cases hr'
    exact hd hd'

/-- The repairs are the first statement of a run that settles the drifted rows. -/
theorem cascade (h : Covering db repairs) : Cascade (fun _ => False) db.Drifted db (repairs.foldl recordRepair db) := by
  refine (Cascade.refl db).statement (rewrites_recordRepair.statement h.nodup (fun c hc => ?_) fun c r => ?_)
  · have hdrifted := ((h.mem c).mp hc).1
    obtain ⟨r, hr, hd⟩ := hdrifted
    have hs := (isDrifted_iff.mp hd).1
    exact ⟨⟨⟨r, hr, hs⟩, .inl ⟨r, hr, hd⟩⟩, isBlocked_iff.mpr ⟨r, hr, hs⟩⟩
  · unfold CounterRepair.record
    split
    · exact .inr ⟨c.pendingEdges, c.rejectedEdges, rfl⟩
    · exact .inl rfl

theorem mem_settled (h : Covering db repairs) :
    id ∈ ofAction .rejected repairs ∨ id ∈ ofAction .released repairs ↔ db.Stuck id := by
  constructor
  · intro hid
    obtain ⟨c, hc, rfl, hzero⟩ : ∃ c, c ∈ repairs ∧ c.taskId = id ∧ db.pendingEdges id = 0 := by
      rcases hid with hid | hid <;> obtain ⟨c, hc, ha, rfl⟩ := mem_ofAction.mp hid <;>
        obtain ⟨-, -, -, hrejected, hreleased⟩ := counterRepair_spec ((h.mem c).mp hc).2
      · exact ⟨c, hc, rfl, (hrejected.mp ha).1⟩
      · exact ⟨c, hc, rfl, (hreleased.mp ha).1⟩
    obtain ⟨r, hr, hd⟩ := ((h.mem c).mp hc).1
    exact ⟨isBlocked_iff.mpr ⟨r, hr, (isDrifted_iff.mp hd).1⟩, hzero⟩
  · rintro ⟨hblocked, hzero⟩
    obtain ⟨r, hr, hs⟩ := isBlocked_iff.mp hblocked
    obtain ⟨c, hc, rfl, hrepair⟩ := h.repair ⟨r, hr, isDrifted_iff.mpr ⟨hs, .inr hzero⟩⟩
    obtain ⟨-, -, -, hrejected, hreleased⟩ := counterRepair_spec hrepair
    cases hrej : db.rejectedEdges c.taskId with
    | true => exact .inl (mem_ofAction.mpr ⟨c, hc, hrejected.mpr ⟨hzero, hrej⟩, rfl⟩)
    | false => exact .inr (mem_ofAction.mpr ⟨c, hc, hreleased.mpr ⟨hzero, hrej⟩, rfl⟩)

theorem ripe (h : Covering db repairs) (hid : id ∈ ofAction .rejected repairs ∨ id ∈ ofAction .released repairs) :
    Ripe (fun _ => False) db.Drifted db (repairs.foldl recordRepair db) id := by
  obtain ⟨hblocked, hzero⟩ := h.mem_settled.mp hid
  obtain ⟨r, hr, hs⟩ := isBlocked_iff.mp hblocked
  refine Cascade.ripe ⟨⟨r, hr, hs⟩, .inl ⟨r, hr, isDrifted_iff.mpr ⟨hs, .inr hzero⟩⟩⟩ ?_
  rw [pendingEdges_recorded, hzero]

theorem nodup_rejected (h : Covering db repairs) : (ofAction .rejected repairs).Nodup :=
  h.nodup.sublist (List.filter_sublist.map _)

theorem released (h : Covering db repairs) (hid : id ∈ ofAction .released repairs) :
    (repairs.foldl recordRepair db).rejectedEdges id = false := by
  obtain ⟨c, hc, ha, rfl⟩ := mem_ofAction.mp hid
  obtain ⟨-, -, -, -, hreleased⟩ := counterRepair_spec ((h.mem c).mp hc).2
  rw [rejectedEdges_recorded]
  exact (hreleased.mp ha).2

theorem aligned (h : Covering db repairs) : (repairs.foldl recordRepair db).Aligned := by
  intro id r hr hs hp
  rw [pendingEdges_recorded] at hp
  rw [counterDrifted_eq_false, pendingEdges_recorded, rejectedEdges_recorded]
  obtain ⟨r₀, hr₀⟩ := h.cascade.exists_row hr
  rw [h.row hr₀] at hr
  cases hr
  split
  · exact ⟨rfl, rfl⟩
  · rename_i hnot
    rw [if_neg hnot] at hs
    by_contra hdrift
    refine hnot ⟨isDrifted_iff.mpr ⟨hs, .inl ?_⟩, Nat.pos_of_ne_zero hp⟩
    rw [← Bool.not_eq_false, counterDrifted_eq_false]
    exact hdrift

end Covering

end Recorded

/-! ## The repair -/

section Repaired

variable {repairs : List CounterRepair}

def repaired (repairs : List CounterRepair) (s : Session) : Session :=
  settleDependents onOutcomes s.now (ofAction .rejected repairs) (ofAction .released repairs)
    (s.ask.update fun db => repairs.foldl recordRepair db)

theorem Covering.repaired_cascade (h : Covering s.db repairs) :
    Cascade (fun _ => False) s.db.Drifted s.db (repaired repairs s).db :=
  (Db.Cascade.stages (s := s.ask.update fun db => repairs.foldl recordRepair db) onOutcomes_cascading h.cascade
    h.nodup_rejected (fun _ hid => h.ripe hid) s.now).2.2.2

theorem Covering.repaired_drifted (h : Covering s.db repairs) : ¬(repaired repairs s).db.Drifted id := by
  let t := s.ask.update fun db => repairs.foldl recordRepair db
  have hsteady : Steady t.db (repaired repairs s).db :=
    settleDependents_steady onOutcomes_steadying h.nodup_rejected fun id hid => (h.ripe (.inl hid)).pendingEdges
  rintro ⟨r, hr, hd⟩
  obtain ⟨hs, hd⟩ := isDrifted_iff.mp hd
  by_cases hzero : (repaired repairs s).db.pendingEdges id = 0
  · -- A stuck row was stuck before, so it was settled.
    have hstuck := hsteady.stuck h.aligned id ⟨isBlocked_iff.mpr ⟨r, hr, hs⟩, hzero⟩
    have hbefore : s.db.Stuck id := ⟨h.cascade.onward.blocked id hstuck.1, by
      have := hstuck.2
      rwa [show t.db.pendingEdges id = s.db.pendingEdges id from pendingEdges_recorded] at this⟩
    have hfree : (repaired repairs s).db.isBlocked id = false :=
      settleDependents_frees (s := t) s.now onOutcomes_cascading h.cascade h.nodup_rejected
        (fun _ hid => h.ripe hid) (h.mem_settled.mpr hbefore)
    rw [isBlocked_iff.mpr ⟨r, hr, hs⟩] at hfree
    cases hfree
  · rw [hsteady.aligned h.aligned id r hr hs hzero] at hd
    rcases hd with hd | hd
    · cases hd
    · exact hzero hd

theorem Covering.repaired_fate (h : Covering s.db repairs) (hr : s.db.runtime.get? id = some r)
    (hs : r.state = .blocked) (hzero : s.db.pendingEdges id = 0) :
    Fate s.now s.db (repaired repairs s).db id r := by
  let t := s.ask.update fun db => repairs.foldl recordRepair db
  have hrow : t.db.runtime.get? id = some r := by
    have := h.row hr
    rwa [if_neg (by omega)] at this
  have hid := h.mem_settled.mpr ⟨isBlocked_iff.mpr ⟨r, hr, hs⟩, hzero⟩
  have hfate : Fate s.now t.db (repaired repairs s).db id r :=
    settleDependents_fate onOutcomes_cascading h.cascade h.nodup_rejected (fun _ hid => h.ripe hid)
      (fun _ hid => h.released hid) hid hrow hs
  have hdeciding : t.db.decidingEdge id = s.db.decidingEdge id := by
    rw [decidingEdge, show t.db.dependencies = s.db.dependencies from rewrites_recordRepair.foldl_dependencies]
    rfl
  cases hfate with
  | rejected hd hr ho =>
    refine .rejected (hdeciding ▸ hd) hr (ho.trans ?_)
    rw [rejection, rejection, show t.db.outcomes = s.db.outcomes from rewrites_recordRepair.foldl_outcomes]
  | released hd hr => exact .released (hdeciding ▸ hd) hr
  | overdue hd hdue h => exact .overdue (hdeciding ▸ hd) hdue h

end Repaired

/-! ## Tasks that are not settled by themselves -/

namespace Db

/-- An edge that was pending and that its prerequisite has resolved by its end: by the action for the state it ended
in. -/
structure ResolvedBy (a b : Db) (id p : TaskId) (d : Dependency) : Prop where
  pending : d.pending = true
  live : ∃ r, a.runtime.get? p = some r
  gone : b.runtime.get? p = none
  resolved : ∃ o now, b.outcomes.get? p = some o ∧
    b.dependencies.get? (id, p) = some { d with resolved := some (now, d.actionOn o.state) }

/-- What becomes of a task whose edges are resolved by tasks that end, and to which nothing else happens. A row that is
not blocked stays as it is. A blocked one gets new counters, or it is settled once all its edges are resolved. -/
inductive EdgeChange (a b : Db) (id : TaskId) (r : Runtime) : Prop
  | same (hr : b.runtime.get? id = some r)
  | counted (hs : r.state = .blocked) {p : TaskId} {d : Dependency} (hd : a.dependencies.get? (id, p) = some d)
      (h : a.ResolvedBy b id p d) {pending : Nat} {rejected : Bool}
      (hr : b.runtime.get? id = some { r with pendingPrerequisites := pending, dependencyRejected := rejected })
  | settled (hs : r.state = .blocked) {p : TaskId} {d : Dependency} (hd : a.dependencies.get? (id, p) = some d)
      (h : a.ResolvedBy b id p d)
      (hall : ∀ p d, a.dependencies.get? (id, p) = some d → d.pending = true → a.ResolvedBy b id p d)
      (hr : (∃ now sequence, b.runtime.get? id = some (r.dependencyReleased now sequence)) ∨
        b.runtime.get? id = none ∧ ∃ o, b.outcomes.get? id = some o)

section Cascade

variable {new chosen : TaskId → Prop} {a₀ a b : Db} {p : TaskId} {d : Dependency}

theorem Cascade.resolvedBy (h : Cascade new chosen a b)
    (hlive : ∀ p, (new p ∨ ∃ r, a.runtime.get? p = some r) → ∃ r, a₀.runtime.get? p = some r)
    (hnew : ¬new id) (hd : a.dependencies.get? (id, p) = some d) :
    b.dependencies.get? (id, p) = some d ∨ a₀.ResolvedBy b id p d := by
  obtain ⟨d', hd', hstep⟩ := h.edge _ _ hd
  cases hstep with
  | kept => exact .inl hd'
  | released _ hn => exact absurd hn hnew
  | @resolved hp _ o ho now => exact .inr ⟨hp, hlive p ho.before, ho.gone, o, now, ho.outcome, hd'⟩

theorem Cascade.resolvedBy_of_cleared (h : Cascade new chosen a b)
    (hlive : ∀ p, (new p ∨ ∃ r, a.runtime.get? p = some r) → ∃ r, a₀.runtime.get? p = some r)
    (hnew : ¬new id) (hd : a.dependencies.get? (id, p) = some d) (hp : d.pending = true)
    (hafter : ∀ d', b.dependencies.get? (id, p) = some d' → d'.pending = false) : a₀.ResolvedBy b id p d := by
  rcases h.resolvedBy hlive hnew hd with hkept | hres
  · rw [hafter d hkept] at hp
    cases hp
  · exact hres

theorem Cascade.edgeChange (h : Cascade new chosen a b) (hedges : a.dependencies = a₀.dependencies)
    (hlive : ∀ p, (new p ∨ ∃ r, a.runtime.get? p = some r) → ∃ r, a₀.runtime.get? p = some r)
    (hnew : ¬new id) (hchosen : ¬chosen id) (hr : a.runtime.get? id = some r) : EdgeChange a₀ b id r := by
  have hblocked : Touched new chosen a b id → r.state = .blocked ∧
      ∃ p d, a₀.dependencies.get? (id, p) = some d ∧ a₀.ResolvedBy b id p d := by
    rintro ⟨⟨r', hr', hs⟩, hcause⟩
    rw [hr] at hr'
    cases hr'
    obtain ⟨p, d, ⟨hd, hp⟩, hafter, -⟩ := hcause.resolve_left hchosen
    exact ⟨hs, p, d, hedges ▸ hd, h.resolvedBy_of_cleared hlive hnew hd hp hafter⟩
  have hall : Ripe new chosen a b id →
      ∀ p d, a₀.dependencies.get? (id, p) = some d → d.pending = true → a₀.ResolvedBy b id p d :=
    fun hripe p d hd hp => h.resolvedBy_of_cleared hlive hnew (hedges ▸ hd) hp (hripe.settled p)
  have hrow := h.row id r hr
  generalize hb : b.runtime.get? id = row at hrow
  cases hrow with
  | kept => exact .same hb
  | counted ht pending rejected =>
    obtain ⟨hs, p, d, hd, hres⟩ := hblocked ht
    exact .counted hs hd hres hb
  | released ht now sequence =>
    obtain ⟨hs, p, d, hd, hres⟩ := hblocked ht.toTouched
    exact .settled hs hd hres (hall ht) (.inl ⟨now, sequence, hb⟩)
  | closed ht ho =>
    obtain ⟨hs, p, d, hd, hres⟩ := hblocked ht.toTouched
    exact .settled hs hd hres (hall ht) (.inr ⟨hb, _, ho⟩)

end Cascade

end Db

theorem Resolves.sound {c c' : Core} (h : Resolves c c') (hc : c.Sound) :
    ReflTransGen (fun c c' => Resolve c c' ∧ c'.Sound) c c' := by
  induction h with
  | refl => exact .refl
  | tail hcc h ih => exact ih.tail ⟨h, (hc.moves (Resolves.writes hcc).moves).move (.write (.resolve h))⟩

theorem setCounters_sound (h : s.core.Sound) (hid : s.db.isBlocked id = true) (pending : Nat) (rejected : Bool) :
    (s.update fun db => db.setCounters id pending rejected).core.Sound :=
  h.moves (Resolves.writes (setCounters_resolves hid pending rejected)).moves

/-- Repair from any drift. The counters of blocked rows are arbitrary in both halves.

A repair whose limit covers the drifted rows returns. No listing then reports a row. A blocked task without a pending
edge gets the fate that its resolved edges determine. A task that was not drifted changes only through edges that are
resolved by tasks which the repair has ended, and a task that had ended keeps its outcome.

When a task ends, its outcome is recorded whatever its dependents' counters say, each write on the way keeps the
constraints of the tables, and the counters that are written are those of the integers. A dependent changes only through
edges that are resolved by tasks which have ended, and it leaves `blocked` only when all its pending edges are. -/
theorem dependency_repair : (∀ (limit : Int) (s : Session), 1 ≤ limit ∧ limit ≤ 100000 →
      ((s.db.runtime.select s.db.isDrifted).length : Int) ≤ limit →
      ∃ repairs s', repairDependencyCountersInternal limit s = .ok (repairs, s') ∧
        (∀ limit', 1 ≤ limit' ∧ limit' ≤ 100000 → dependencyCounterDrift s'.db limit' = .ok []) ∧
        (∀ id r, s.db.runtime.get? id = some r → r.state = .blocked → s.db.pendingEdges id = 0 →
          Fate s.now s.db s'.db id r) ∧ (∀ id r, s.db.runtime.get? id = some r → s.db.isDrifted id r = false →
          EdgeChange s.db s'.db id r ∧ ∀ p d, s.db.dependencies.get? (id, p) = some d →
            s'.db.dependencies.get? (id, p) = some d ∨ s.db.ResolvedBy s'.db id p d) ∧
        ∀ id, s.db.runtime.get? id = none →
          s'.db.runtime.get? id = none ∧ s'.db.outcomes.get? id = s.db.outcomes.get? id) ∧
    (∀ before after prerequisites dependent m, measure before after prerequisites dependent = some m →
      ∃ row, after.runtime.get? dependent = some row ∧ (m.remaining : Int) =
        if m.repaired then (after.pendingEdges dependent : Int)
        else row.pendingPrerequisites - resolvedCount before prerequisites dependent) ∧
    ∀ (s : Session) (id : TaskId) (r : Runtime) (o : Outcome), s.core.Sound →
      s.db.runtime.get? id = some r → o.currentAttempt = r.currentAttempt →
      ((finish onOutcomes id o s).db.runtime.get? id = none ∧ (finish onOutcomes id o s).db.outcomes.get? id = some o) ∧
      ReflTransGen (fun c c' => Resolve c c' ∧ c'.Sound) s.core (finish onOutcomes id o s).core ∧
      ∀ dependent row, dependent ≠ id → s.db.runtime.get? dependent = some row →
        EdgeChange s.db (finish onOutcomes id o s).db dependent row := by
  refine ⟨fun limit s hlimit hcovers => ?_, fun before after prerequisites dependent m hm => ?_,
    fun s id r o hsound hr ho => ?_⟩
  · obtain ⟨repairs, hcovering, hrun⟩ := repairDependencyCountersInternal_covering hlimit hcovers
    have hcascade := hcovering.repaired_cascade
    refine ⟨repairs, repaired repairs s, hrun, fun limit' hlimit' => ?_, fun id r hr hs hzero => ?_,
      fun id r hr hundrifted => ?_, hcascade.absent⟩
    · exact (dependencyCounterDrift_eq_nil hlimit').mpr fun _ => hcovering.repaired_drifted
    · exact hcovering.repaired_fate hr hs hzero
    · have hchosen : ¬s.db.Drifted id := by
        rintro ⟨r', hr', hd⟩
        rw [hr] at hr'
        cases hr'
        rw [hundrifted] at hd
        cases hd
      have hlive : ∀ p, (False ∨ ∃ r, s.db.runtime.get? p = some r) → ∃ r, s.db.runtime.get? p = some r :=
        fun p h => h.resolve_left False.elim
      exact ⟨hcascade.edgeChange rfl hlive not_false hchosen hr, fun p d hd => hcascade.resolvedBy hlive not_false hd⟩
  · obtain ⟨row, hrow, ⟨hrep, hrem, -⟩ | ⟨hrep, hrem, -⟩⟩ := measure_cases hm
    · exact ⟨row, hrow, by simp [hrep, hrem]⟩
    · refine ⟨row, hrow, ?_⟩
      simp only [hrep, Bool.false_eq_true, if_false]
      omega
  · refine ⟨finish_gone onOutcomes_cascading id o s, ?_, fun dependent row hne hrow => ?_⟩
    · exact Resolves.sound (finish_resolves onOutcomes_resolves hr ho false) hsound
    · refine (onOutcomes_cascading.finish id o s).edgeChange rfl ?_ hne not_false ?_
      · rintro p (rfl | ⟨r', hr'⟩)
        · exact ⟨r, hr⟩
        · obtain ⟨-, hr'⟩ := Table.get?_erase_eq_some hr'
          exact ⟨r', hr'⟩
      · simp [setOutcome, deleteRuntime, hne, hrow]

def waiting : List Exchange × Session := runCalls (initial steadyHost) [.enqueueBatch [plainRequest],
    .enqueueBatch [{ plainRequest with prerequisiteTaskId := some 1 }]]

theorem waiting_run : Run (initial steadyHost) waiting.1 waiting.2 := runCalls_run _ _

def driftedSession : Session := waiting.2.update fun db => db.setCounters 3 7 true

theorem driftedSession_sound : driftedSession.core.Sound :=
  setCounters_sound waiting_run.sound (by decide +kernel) 7 true

def prerequisiteRow : Runtime := plainRequest.runtime 0 .ready (some 1) 0

def prerequisiteOutcome : Outcome := ⟨.succeeded, 1, 0, 0, none, none, 9⟩

theorem dependency_repair_waiting :
    (∃ repairs s', repairDependencyCountersInternal 10 driftedSession = .ok (repairs, s') ∧
      dependencyCounterDrift s'.db 10 = .ok []) ∧
    (finish onOutcomes 1 prerequisiteOutcome driftedSession).db.outcomes.get? 1 = some prerequisiteOutcome := by
  constructor
  · obtain ⟨repairs, s', hrun, hdrift, -⟩ := dependency_repair.1 10 driftedSession (by decide) (by decide +kernel)
    exact ⟨repairs, s', hrun, hdrift 10 (by decide)⟩
  · have hr : driftedSession.db.runtime.get? 1 = some prerequisiteRow := by decide +kernel
    exact (dependency_repair.2.2 driftedSession 1 prerequisiteRow prerequisiteOutcome driftedSession_sound hr rfl).1.2

end Workhorse
