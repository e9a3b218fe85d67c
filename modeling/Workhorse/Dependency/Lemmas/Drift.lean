import Workhorse.Dependency.Lemmas.Triggers
import Workhorse.Dependency.Repair

/-!
# Counters through a cascade

Counters that agree with the edges still do so after a cascade, and no blocked dependent is left without a pending edge
that had one before. So what the listing of drifted rows would report after a cascade, it would have reported before.
-/

namespace Workhorse

open Db

namespace Db

def AlignedAt (db : Db) (id : TaskId) : Prop :=
  ∀ r, db.runtime.get? id = some r → r.state = .blocked → db.pendingEdges id ≠ 0 → db.counterDrifted id r = false

def Aligned (db : Db) : Prop := ∀ id, db.AlignedAt id

def Stuck (db : Db) (id : TaskId) : Prop := db.isBlocked id = true ∧ db.pendingEdges id = 0

/-- A part of a run that keeps aligned counters so and leaves no row stuck that was not. -/
structure Steady (a b : Db) : Prop where
  aligned : a.Aligned → b.Aligned
  stuck : a.Aligned → ∀ id, b.Stuck id → a.Stuck id

variable {a b c : Db} {id : TaskId} {r : Runtime}

theorem counterDrifted_eq_false : a.counterDrifted id r = false ↔
    r.pendingPrerequisites = a.pendingEdges id ∧ r.dependencyRejected = a.rejectedEdges id := by
  simp [counterDrifted]

namespace Steady

theorem refl (a : Db) : Steady a a := ⟨fun h => h, fun _ _ h => h⟩

theorem trans (h : Steady a b) (h' : Steady b c) : Steady a c :=
  ⟨fun ha => h'.aligned (h.aligned ha), fun ha id hid => h.stuck ha id (h'.stuck (h.aligned ha) id hid)⟩

theorem of_rows (h : ∀ id r, b.runtime.get? id = some r → r.state = .blocked → a.runtime.get? id = some r ∧
    b.pendingEdges id = a.pendingEdges id ∧ b.rejectedEdges id = a.rejectedEdges id) : Steady a b where
  aligned ha id r hr hs hp := by
    obtain ⟨hr', hpe, hre⟩ := h id r hr hs
    rw [counterDrifted_eq_false, hpe, hre]
    exact counterDrifted_eq_false.mp (ha id r hr' hs (hpe ▸ hp))
  stuck _ id hid := by
    obtain ⟨r, hr, hs⟩ := isBlocked_iff.mp hid.1
    obtain ⟨hr', hpe, -⟩ := h id r hr hs
    exact ⟨isBlocked_iff.mpr ⟨r, hr', hs⟩, hpe ▸ hid.2⟩

theorem of_edges (hd : b.dependencies = a.dependencies)
    (h : ∀ id r, b.runtime.get? id = some r → r.state = .blocked → a.runtime.get? id = some r) : Steady a b :=
  .of_rows fun id r hr hs => ⟨h id r hr hs, by rw [pendingEdges, hd]; rfl, by rw [rejectedEdges, hd]; rfl⟩

theorem of_agrees (h : a.Agrees b) : Steady a b := .of_edges h.dependencies fun _ _ hr _ => h.runtime ▸ hr

theorem foldl {f : Session → TaskId → Session} {ids : List TaskId} (hf : ∀ (s : Session) id, Steady s.db (f s id).db)
    (s : Session) : Steady s.db (ids.foldl f s).db := by
  induction ids generalizing s with
  | nil => exact refl _
  | cons id ids ih => exact (hf s id).trans (ih _)

end Steady

end Db

def Steadying (fire : Fire) : Prop := ∀ new (s : Session), (∀ e ∈ new, s.db.Ends e) → Steady s.db (fire new s).db

variable {fire : Fire} {s : Session} {id : TaskId} {new chosen : TaskId → Prop} {a b : Db} {now : Time}
  {rejected released : List TaskId}

/-! ## The settlement -/

theorem finish_steady (hfire : Steadying fire) (o : Outcome) : Steady s.db (finish fire id o s).db := by
  have hclose : Steady s.db ((s.db.deleteRuntime id).setOutcome id o) := by
    refine .of_edges rfl fun k r hr _ => ?_
    obtain ⟨-, hr⟩ := Table.get?_erase_eq_some hr
    exact hr
  exact hclose.trans (hfire [(id, o.state)]
    ((s.update fun db => db.deleteRuntime id).update fun db => db.setOutcome id o)
    (by simp [Ends, deleteRuntime, setOutcome]))

theorem terminalizeDeadlineWith_steady (hfire : Steadying fire) :
    Steady s.db (terminalizeDeadlineWith fire id s).2.db := by
  rcases terminalizeDeadlineWith_cases fire id s with hsame | ⟨r, deadline, o, hr, -, -, hagrees⟩
  · exact .of_agrees hsame
  · exact (finish_steady (s := s.ask.ask) hfire o).trans (.of_agrees hagrees)

theorem releaseDependent_steady : Steady s.db (releaseDependent now s id).db := by
  rcases releaseDependent_cases now s id with ⟨hsame, -⟩ | ⟨r, sequence, hr, hs, hagrees⟩
  · exact .of_agrees hsame
  · refine .of_edges hagrees.dependencies fun k r' hr' hs' => ?_
    rw [hagrees.runtime] at hr'
    rcases Table.get?_put_cases hr' with ⟨-, rfl⟩ | ⟨-, hr'⟩
    · rcases r.dependencyReleased_state now sequence with h | h <;> rw [h] at hs' <;> cases hs'
    · exact hr'

theorem closeRows_steady {rows : List (TaskId × Outcome)} : Steady b (b.closeRows rows) := by
  refine .of_edges dependencies_closeRows fun id r hr _ => ?_
  rw [runtime_closeRows, Table.get?_foldl_erase] at hr
  split at hr
  · cases hr
  · exact hr

theorem closing_steady (hfire : Steadying fire) (hnd : rejected.Nodup)
    (hzero : ∀ id ∈ rejected, s.db.pendingEdges id = 0) : Steady s.db (closing fire now rejected s).db := by
  let t := s.update fun db => (byId (unexplained s.db rejected)).foldl recountRejected db
  have hclose : Steady t.db (t.db.closeRows (settledRows t.db now rejected)) := closeRows_steady
  exact ((Steady.of_agrees (recount_agrees hzero)).trans hclose).trans
    (hfire _ (t.update fun db => db.closeRows (settledRows t.db now rejected)) (closeRows_ends (nodup_settledRows hnd)))

theorem settleDependents_steady (hfire : Steadying fire) (hnd : rejected.Nodup)
    (hzero : ∀ id ∈ rejected, s.db.pendingEdges id = 0) :
    Steady s.db (settleDependents fire now rejected released s).db := by
  rw [settleDependents_eq]
  exact ((closing_steady hfire hnd hzero).trans (.foldl (fun _ _ => releaseDependent_steady) _)).trans
    (.foldl (fun _ _ => terminalizeDeadlineWith_steady hfire) _)

/-! ### Settled dependents -/

theorem decidingEdge_eq_none : b.decidingEdge id = none ↔ b.rejectedEdges id = false := by
  rw [decidingEdge, List.head?_eq_none_iff, ← List.length_eq_zero_iff, List.length_insertionSort,
    List.length_eq_zero_iff, List.filterMap_eq_nil_iff, rejectedEdges, Table.any_eq_false_iff]
  simp only [Prod.forall, Table.mem_select, Option.map_eq_none_iff]
  constructor
  · intro h x p d hd
    by_contra hrej
    have hrej : (decide (x = id) && d.rejects) = true := by simpa using hrej
    have hnone := h x p d ⟨hd, hrej⟩
    simp [Dependency.rejects, hnone] at hrej
  · rintro h x p d ⟨hd, hrej⟩
    rw [h x p d hd] at hrej
    cases hrej

theorem releaseDependent_blocked {k : TaskId} (h : s.db.isBlocked k = false) :
    (releaseDependent now s id).db.isBlocked k = false := by
  rcases releaseDependent_cases now s id with ⟨hsame, -⟩ | ⟨r, sequence, hr, hs, hagrees⟩
  · rw [isBlocked, hsame.runtime]
    exact h
  · rw [isBlocked, hagrees.runtime]
    simp only [setRuntime, Table.get?_put]
    split
    · rcases r.dependencyReleased_state now sequence with h | h <;> simp [h]
    · exact h

theorem releaseDependent_frees : (releaseDependent now s id).db.isBlocked id = false := by
  rcases releaseDependent_cases now s id with ⟨hsame, h⟩ | ⟨r, sequence, hr, hs, hagrees⟩
  · rw [isBlocked, hsame.runtime]
    exact h
  · rw [isBlocked, hagrees.runtime]
    rcases r.dependencyReleased_state now sequence with h | h <;> simp [setRuntime, h]

theorem foldl_releaseDependent_frees {ids : List TaskId} (h : id ∈ ids ∨ s.db.isBlocked id = false) :
    (ids.foldl (releaseDependent now) s).db.isBlocked id = false := by
  induction ids generalizing s with
  | nil => exact h.resolve_left List.not_mem_nil
  | cons k ids ih =>
    refine ih ?_
    rcases h with hmem | h
    · cases hmem with
      | head => exact .inr releaseDependent_frees
      | tail _ hmem => exact .inl hmem
    · exact .inr (releaseDependent_blocked h)

theorem closing_rejects (now : Time) (hfire : Cascading fire) (hnd : rejected.Nodup)
    (hzero : ∀ id ∈ rejected, s.db.pendingEdges id = 0) (hid : id ∈ rejected) {r : Runtime}
    (hr : s.db.runtime.get? id = some r) (hs : r.state = .blocked) {decider : TaskId × Action}
    (hd : s.db.decidingEdge id = some decider) :
    (closing fire now rejected s).db.runtime.get? id = none ∧
      (closing fire now rejected s).db.outcomes.get? id = some (rejection s.db now r decider) := by
  let t := s.update fun db => (byId (unexplained s.db rejected)).foldl recountRejected db
  have hagrees : s.db.Agrees t.db := recount_agrees hzero
  have hrow : (id, rejection s.db now r decider) ∈ settledRows t.db now rejected := by
    refine mem_settledRows.mpr ⟨hid, settledRow_eq_some.mpr ⟨r, decider, ?_, hs, ?_, ?_⟩⟩
    · rw [hagrees.runtime, hr]
    · rw [decidingEdge, hagrees.dependencies]
      exact hd
    · simp only [rejection, hagrees.outcomes]
  have hon := (hfire _ (t.update fun db => db.closeRows (settledRows t.db now rejected))
    (closeRows_ends (nodup_settledRows hnd))).onward
  have hnone : (t.db.closeRows (settledRows t.db now rejected)).runtime.get? id = none := by
    rw [runtime_closeRows, Table.get?_foldl_erase, if_pos (List.mem_map.mpr ⟨_, hrow, rfl⟩)]
  obtain ⟨hgone, hout⟩ := hon.absent id hnone
  refine ⟨hgone, hout.trans ?_⟩
  change (t.db.closeRows (settledRows t.db now rejected)).outcomes.get? id = _
  rw [outcomes_closeRows]
  exact Table.get?_foldl_put_of_mem (nodup_settledRows hnd) hrow

theorem mem_releasing_of_rejected (hid : id ∈ rejected) (hzero : s.db.pendingEdges id = 0)
    (hb : s.db.isBlocked id = true) (hd : s.db.rejectedEdges id = false) : id ∈ releasing s.db rejected released :=
  mem_releasing.mpr (.inr ⟨List.mem_filter.mpr ⟨hid, by simp [hb, hd]⟩, hzero⟩)

theorem settleDependents_frees (now : Time) (hfire : Cascading fire) (h : Cascade new chosen a s.db)
    (hnd : rejected.Nodup)
    (hripe : ∀ id, id ∈ rejected ∨ id ∈ released → Ripe new chosen a s.db id)
    (hid : id ∈ rejected ∨ id ∈ released) :
    (settleDependents fire now rejected released s).db.isBlocked id = false := by
  obtain ⟨hon, hon', hon'', -⟩ := h.stages hfire hnd hripe now
  rw [Bool.eq_false_iff]
  intro hblocked
  -- Going back, the dependent is blocked at every stage.
  have hfreed := hon''.blocked id hblocked
  have hclosed := hon'.blocked id hfreed
  obtain ⟨r, hr, hs⟩ := isBlocked_iff.mp (hon.blocked id hclosed)
  have hnot : id ∉ releasing s.db rejected released := by
    intro hmem
    rw [freeing, foldl_releaseDependent_frees (.inl hmem)] at hfreed
    cases hfreed
  rcases hid with hid | hid
  · cases hd : s.db.decidingEdge id with
    | none =>
      exact hnot (mem_releasing_of_rejected hid (hripe id (.inl hid)).pendingEdges (isBlocked_iff.mpr ⟨r, hr, hs⟩)
        (decidingEdge_eq_none.mp hd))
    | some decider =>
      have hnone := (closing_rejects now hfire hnd (fun id hid => (hripe id (.inl hid)).pendingEdges) hid hr hs hd).1
      simp [isBlocked, hnone] at hclosed
  · exact hnot (mem_releasing.mpr (.inl hid))

/-! ## The resolver -/

section Resolver

variable {prerequisites : List (TaskId × OutcomeState)}

theorem pendingEdges_mapEdges {f : TaskId × TaskId → Dependency → Dependency}
    (h : ∀ k d, k.1 = id → b.dependencies.get? k = some d → (f k d).pending = d.pending) :
    (b.mapEdges f).pendingEdges id = b.pendingEdges id := by
  rw [pendingEdges, mapEdges, Table.count_mapRows]
  refine Table.count_congr fun k d hd => ?_
  by_cases hk : k.1 = id
  · simp [hk, h k d hk hd]
  · simp [hk]

theorem rejectedEdges_mapEdges {f : TaskId × TaskId → Dependency → Dependency}
    (h : ∀ k d, k.1 = id → b.dependencies.get? k = some d → f k d = d) :
    (b.mapEdges f).rejectedEdges id = b.rejectedEdges id := by
  rw [rejectedEdges, mapEdges, Table.any_mapRows]
  refine Table.any_congr fun k d hd => ?_
  by_cases hk : k.1 = id
  · simp [hk, h k d hk hd]
  · simp [hk]

theorem resolveEdge_other {dependents : List TaskId} {k : TaskId × TaskId} {d : Dependency}
    (h : k.1 ∉ dependents) : resolveEdge prerequisites dependents now k d = d := by
  unfold resolveEdge
  split
  · simp [h]
  · rfl

theorem resolveEdge_rejects {dependents : List TaskId} {k : TaskId × TaskId} {d : Dependency}
    (h : k.1 ∈ dependents) : (resolveEdge prerequisites dependents now k d).rejects =
      (d.rejects || (d.pending && (prerequisites.lookup k.2).any fun state => (d.actionOn state).rejects)) := by
  unfold resolveEdge
  cases prerequisites.lookup k.2 with
  | none => simp
  | some state =>
    cases hp : d.pending with
    | false => simp
    | true =>
      have hnone : d.resolved = none := by simpa [Dependency.pending] using hp
      simp [h, Dependency.rejects, Dependency.resolution, hnone, Dependency.actionOn]

theorem pendingEdges_resolvedDb (now : Time) (h : id ∈ dependentsOf b prerequisites) :
    b.pendingEdges id = resolvedCount b prerequisites id + (resolvedDb b prerequisites now).pendingEdges id := by
  have hsplit := Table.count_add_count_not b.dependencies (fun k d => decide (k.1 = id) && d.pending)
    fun k _ => (prerequisites.lookup k.2).isSome
  rw [pendingEdges, ← hsplit]
  congr 1
  · refine Table.count_congr fun k d _ => ?_
    rw [resolvable, Bool.and_assoc]
  · rw [pendingEdges, resolvedDb, mapEdges, Table.count_mapRows]
    refine Table.count_congr fun k d _ => ?_
    by_cases hk : k.1 = id
    · rw [resolveEdge_pending (hk ▸ h), Bool.and_assoc]
    · simp [hk]

theorem rejectedEdges_resolvedDb (h : id ∈ dependentsOf b prerequisites) :
    (resolvedDb b prerequisites now).rejectedEdges id = (b.rejectedEdges id || resolvedRejects b prerequisites id) := by
  rw [rejectedEdges, resolvedDb, mapEdges, Table.any_mapRows, Bool.eq_iff_iff, Bool.or_eq_true, Table.any_iff,
    rejectedEdges, Table.any_iff, resolvedRejects, Table.any_iff]
  have hedge (k : TaskId × TaskId) (d : Dependency) : (decide (k.1 = id) &&
      (resolveEdge prerequisites (dependentsOf b prerequisites) now k d).rejects) = true ↔
      (decide (k.1 = id) && d.rejects) = true ∨ (decide (k.1 = id) && d.pending &&
        (prerequisites.lookup k.2).any fun state => (d.actionOn state).rejects) = true := by
    by_cases hk : k.1 = id
    · rw [resolveEdge_rejects (hk ▸ h)]
      simp [hk]
    · simp [hk]
  constructor
  · rintro ⟨k, d, hd, hrej⟩
    rcases (hedge k d).mp hrej with hrej | hrej
    · exact .inl ⟨k, d, hd, hrej⟩
    · exact .inr ⟨k, d, hd, hrej⟩
  · rintro (⟨k, d, hd, hrej⟩ | ⟨k, d, hd, hrej⟩)
    · exact ⟨k, d, hd, (hedge k d).mpr (.inl hrej)⟩
    · exact ⟨k, d, hd, (hedge k d).mpr (.inr hrej)⟩

theorem measure_of_aligned (h : id ∈ dependentsOf b prerequisites) {m : Measure}
    (hm : measure b (resolvedDb b prerequisites now) prerequisites id = some m) (ha : b.AlignedAt id) :
    m.remaining = (resolvedDb b prerequisites now).pendingEdges id ∧
      m.rejected = (resolvedDb b prerequisites now).rejectedEdges id := by
  obtain ⟨hblocked, k, d, hd, hk, hres⟩ := mem_dependentsOf.mp h
  obtain ⟨r, hr, hs⟩ := isBlocked_iff.mp hblocked
  have hpending : 0 < b.pendingEdges id := by
    refine Table.count_pos_iff.mpr ⟨k, d, hd, ?_⟩
    rw [resolvable, Bool.and_eq_true] at hres
    simp [hk, hres.1]
  obtain ⟨hcount, hrej⟩ := counterDrifted_eq_false.mp (ha r hr hs hpending.ne')
  have hsplit := pendingEdges_resolvedDb now h
  obtain ⟨r', hr', hcases⟩ := measure_cases hm
  have hrow : (resolvedDb b prerequisites now).runtime.get? id = some r := hr
  rw [hrow] at hr'
  cases hr'
  rcases hcases with ⟨-, hrem, hmrej, -⟩ | ⟨-, hrem, hmrej, -⟩
  · exact ⟨hrem, hmrej⟩
  · exact ⟨by omega, by rw [hmrej, hrej, rejectedEdges_resolvedDb h]⟩

theorem measure_of_mem (now : Time) (h : id ∈ dependentsOf b prerequisites) :
    ∃ m, m ∈ measures b prerequisites now ∧ m.taskId = id := by
  obtain ⟨r, hr, -⟩ := isBlocked_iff.mp (mem_dependentsOf.mp h).1
  have hrow : (resolvedDb b prerequisites now).runtime.get? id = some r := hr
  obtain ⟨m, hm⟩ : ∃ m, measure b (resolvedDb b prerequisites now) prerequisites id = some m := by
    rw [measure, hrow]
    exact ⟨_, rfl⟩
  obtain rfl := measure_taskId hm
  exact ⟨m, mem_measures.mpr ⟨h, hm⟩, rfl⟩

theorem edges_countedDb_other (now : Time) (h : id ∉ dependentsOf b prerequisites) :
    (countedDb b prerequisites now).pendingEdges id = b.pendingEdges id ∧
      (countedDb b prerequisites now).rejectedEdges id = b.rejectedEdges id := by
  have hsame : ∀ k d, k.1 = id → b.dependencies.get? k = some d →
      resolveEdge prerequisites (dependentsOf b prerequisites) now k d = d :=
    fun k d hk _ => resolveEdge_other (hk ▸ h)
  constructor
  · rw [pendingEdges_countedDb]
    exact pendingEdges_mapEdges fun k d hk hd => by rw [hsame k d hk hd]
  · rw [rejectedEdges, dependencies_countedDb]
    exact rejectedEdges_mapEdges hsame

theorem row_countedDb_other (h : id ∉ dependentsOf b prerequisites) :
    (countedDb b prerequisites now).runtime.get? id = b.runtime.get? id := by
  refine rewrites_recordMeasure.foldl_other fun hmem => ?_
  obtain ⟨m, hm, rfl⟩ := List.mem_map.mp hmem
  exact h (mem_measures.mp hm).1

theorem row_countedDb {m : Measure} (hm : m ∈ measures b prerequisites now) :
    (countedDb b prerequisites now).runtime.get? m.taskId = (b.runtime.get? m.taskId).map m.record :=
  rewrites_recordMeasure.foldl_row (nodup_measures nodup_dependentsOf) hm

theorem countedDb_aligned (ha : b.Aligned) : (countedDb b prerequisites now).Aligned := by
  intro id r hr hs hp
  rw [counterDrifted_eq_false]
  by_cases hid : id ∈ dependentsOf b prerequisites
  · obtain ⟨m, hm, rfl⟩ := measure_of_mem now hid
    obtain ⟨hrem, hrej⟩ := measure_of_aligned hid (mem_measures.mp hm).2 (ha _)
    rw [pendingEdges_countedDb] at hp ⊢
    rw [row_countedDb hm, Option.map_eq_some_iff] at hr
    obtain ⟨r₀, -, rfl⟩ := hr
    rw [Measure.record, if_neg (hrem ▸ hp), rejectedEdges, dependencies_countedDb]
    exact ⟨hrem, hrej⟩
  · obtain ⟨hpe, hre⟩ := edges_countedDb_other now hid
    rw [hpe, hre]
    exact counterDrifted_eq_false.mp (ha id r (row_countedDb_other hid ▸ hr) hs (hpe ▸ hp))

theorem countedDb_stuck (ha : b.Aligned) (h : (countedDb b prerequisites now).Stuck id) :
    b.Stuck id ∨ id ∈ settling b prerequisites now true ∨ id ∈ settling b prerequisites now false := by
  by_cases hid : id ∈ dependentsOf b prerequisites
  · obtain ⟨m, hm, rfl⟩ := measure_of_mem now hid
    have hrem := (measure_of_aligned hid (mem_measures.mp hm).2 (ha _)).1
    have hzero : m.remaining = 0 := by rw [hrem, ← pendingEdges_countedDb, h.2]
    cases hrej : m.rejected with
    | true => exact .inr (.inl (mem_settling.mpr ⟨m, hm, rfl, hzero, hrej⟩))
    | false => exact .inr (.inr (mem_settling.mpr ⟨m, hm, rfl, hzero, hrej⟩))
  · refine .inl ⟨?_, (edges_countedDb_other now hid).1 ▸ h.2⟩
    have := h.1
    rwa [isBlocked, row_countedDb_other hid] at this

theorem resolveDependentsMany_steadying (hcascading : Cascading fire) (hfire : Steadying fire) :
    Steadying (resolveDependentsMany fire) := by
  intro prerequisites s hends
  rw [resolveDependentsMany_eq]
  split
  · exact .refl _
  · let t := s.ask.update fun db => countedDb db prerequisites s.now
    have hripe : ∀ id, id ∈ settling s.db prerequisites s.now true ∨ id ∈ settling s.db prerequisites s.now false →
        Ripe (fun id => id ∈ prerequisites.map Prod.fst) (fun _ => False) s.db t.db id :=
      fun id => settling_ripe hends
    have hsettle : Steady t.db (settleDependents fire s.now (settling s.db prerequisites s.now true)
        (settling s.db prerequisites s.now false) t).db :=
      settleDependents_steady hfire nodup_settling fun id hid => (hripe id (.inl hid)).pendingEdges
    refine ⟨fun ha => hsettle.aligned (countedDb_aligned ha), fun ha id hid => ?_⟩
    rcases countedDb_stuck ha (hsettle.stuck (countedDb_aligned ha) id hid) with hstuck | hmem
    · exact hstuck
    · have hfree := settleDependents_frees (s := t) s.now hcascading (countedDb_cascade hends) nodup_settling hripe hmem
      exact absurd hid.1 (by simpa using hfree)

/-! ## The trigger -/

theorem releaseEdge_steady {new : List (TaskId × OutcomeState)} (hends : ∀ e ∈ new, b.Ends e) :
    Steady b (b.mapEdges (releaseEdge new now)) := by
  refine .of_rows fun id r hr _ => ?_
  -- A task with a row is not one of the new terminal tasks.
  have hnot : id ∉ new.map Prod.fst := by
    intro hid
    obtain ⟨e, he, rfl⟩ := List.mem_map.mp hid
    have hr : b.runtime.get? e.1 = some r := hr
    rw [(hends e he).1] at hr
    cases hr
  have hsame : ∀ k d, k.1 = id → b.dependencies.get? k = some d → releaseEdge new now k d = d := by
    rintro k d rfl -
    simp [releaseEdge, hnot]
  exact ⟨hr, pendingEdges_mapEdges fun k d hk hd => by rw [hsame k d hk hd], rejectedEdges_mapEdges hsame⟩

theorem resolveTaskOutcomeDependencies_steadying {resolve : Fire} (hresolve : Steadying resolve) :
    Steadying (resolveTaskOutcomeDependencies resolve) := by
  intro new s hends
  unfold resolveTaskOutcomeDependencies
  split
  · refine (releaseEdge_steady hends).trans (hresolve _ (s.ask.update fun db => db.mapEdges (releaseEdge new s.now)) ?_)
    exact fun e he => hends e ((List.perm_insertionSort _ new).mem_iff.mp he)
  · exact .refl _

theorem trigger_steadying (fuel : Nat) : Steadying (trigger fuel) := by
  induction fuel with
  | zero => exact fun _ s _ => .refl s.db
  | succ fuel ih =>
    exact resolveTaskOutcomeDependencies_steadying (resolveDependentsMany_steadying (trigger_cascading fuel) ih)

theorem onOutcomes_steadying : Steadying onOutcomes := fun new s => trigger_steadying _ new s

end Resolver

end Workhorse
