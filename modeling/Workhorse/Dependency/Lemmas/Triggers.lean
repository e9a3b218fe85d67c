import Workhorse.Dependency.Lemmas.Settles

/-!
# The resolver and the trigger as cascades

The resolver resolves edges, counts and settles; whatever a counter says, it settles no dependent with a pending edge.
The trigger is then a cascade at any depth of its recursion.
-/

namespace Workhorse

open Db

variable {fire : Fire} {s : Session} {id : TaskId} {new chosen : TaskId → Prop} {a b : Db} {now : Time}
  {prerequisites : List (TaskId × OutcomeState)}

theorem mem_of_lookup {α β : Type} [BEq α] [LawfulBEq α] {l : List (α × β)} {x : α} {y : β}
    (h : l.lookup x = some y) : (x, y) ∈ l := by
  obtain ⟨l₁, l₂, rfl, -⟩ := List.lookup_eq_some_iff.mp h
  simp

theorem mapEdges_cascade {dependents : List TaskId} (hends : ∀ e ∈ prerequisites, a.Ends e)
    (hblocked : ∀ id ∈ dependents, a.isBlocked id = true) :
    Cascade (fun id => id ∈ prerequisites.map Prod.fst) chosen a
      (a.mapEdges (resolveEdge prerequisites dependents now)) where
  absent _ h := ⟨h, rfl⟩
  row id r h := by
    have hr : (a.mapEdges (resolveEdge prerequisites dependents now)).runtime.get? id = some r := h
    exact hr ▸ .kept
  outcome _ _ _ := rfl
  edge k d hd := by
    refine ⟨resolveEdge prerequisites dependents now k d, by simp [mapEdges, hd], ?_⟩
    unfold resolveEdge
    cases hl : prerequisites.lookup k.2 with
    | none => exact .kept
    | some state =>
      dsimp only
      split
      · rename_i hp
        have hmem := mem_of_lookup hl
        obtain ⟨hgone, o, ho, rfl⟩ := hends _ hmem
        have hended : Ended (fun id => id ∈ prerequisites.map Prod.fst) a
            (a.mapEdges (resolveEdge prerequisites dependents now)) k.2 o :=
          ⟨.inl (List.mem_map.mpr ⟨_, hmem, rfl⟩), hgone, ho⟩
        rw [Bool.and_eq_true, List.contains_iff_mem] at hp
        exact .resolved hp.1 (hblocked _ hp.2) hended now
      · exact .kept
  noEdge k hk := by simp [mapEdges, hk]

structure Rewrites {α : Type} (f : Db → α → Db) (key : α → TaskId) (g : α → Runtime → Runtime) : Prop where
  row : ∀ db x id, (f db x).runtime.get? id = if id = key x then (db.runtime.get? id).map (g x) else db.runtime.get? id
  outcomes : ∀ db x, (f db x).outcomes = db.outcomes
  dependencies : ∀ db x, (f db x).dependencies = db.dependencies

namespace Rewrites

variable {α : Type} {f : Db → α → Db} {key : α → TaskId} {g : α → Runtime → Runtime} {xs : List α} {x : α} {db : Db}

theorem foldl_outcomes (h : Rewrites f key g) : (xs.foldl f db).outcomes = db.outcomes :=
  foldl_unwritten Db.outcomes h.outcomes xs db

theorem foldl_dependencies (h : Rewrites f key g) : (xs.foldl f db).dependencies = db.dependencies :=
  foldl_unwritten Db.dependencies h.dependencies xs db

theorem foldl_other (h : Rewrites f key g) (hid : id ∉ xs.map key) :
    (xs.foldl f db).runtime.get? id = db.runtime.get? id := by
  induction xs generalizing db with
  | nil => rfl
  | cons x xs ih =>
    simp only [List.map_cons, List.mem_cons, not_or] at hid
    rw [List.foldl_cons, ih hid.2, h.row, if_neg hid.1]

theorem foldl_row (h : Rewrites f key g) (hnd : (xs.map key).Nodup) (hx : x ∈ xs) :
    (xs.foldl f db).runtime.get? (key x) = (db.runtime.get? (key x)).map (g x) := by
  induction xs generalizing db with
  | nil => cases hx
  | cons y xs ih =>
    simp only [List.map_cons, List.nodup_cons] at hnd
    rw [List.foldl_cons]
    cases hx with
    | head => rw [h.foldl_other hnd.1, h.row, if_pos rfl]
    | tail _ hx =>
      have hne : key x ≠ key y := fun heq => hnd.1 (heq ▸ List.mem_map_of_mem hx)
      rw [ih hnd.2 hx, h.row, if_neg hne]

theorem statement (h : Rewrites f key g) (hnd : (xs.map key).Nodup)
    (hxs : ∀ x ∈ xs, Touched new chosen a b (key x) ∧ b.isBlocked (key x) = true)
    (hg : ∀ x r, g x r = r ∨ ∃ pending rejected,
      g x r = { r with pendingPrerequisites := pending, dependencyRejected := rejected }) :
    Statement new chosen a b (xs.foldl f b) where
  edges := h.foldl_dependencies
  change id := by
    have hout : (xs.foldl f b).outcomes.get? id = b.outcomes.get? id := by rw [h.foldl_outcomes]
    by_cases hid : id ∈ xs.map key
    · obtain ⟨x, hx, rfl⟩ := List.mem_map.mp hid
      obtain ⟨htouched, hblocked⟩ := hxs x hx
      obtain ⟨r, hr, hs⟩ := isBlocked_iff.mp hblocked
      have hrow : (xs.foldl f b).runtime.get? (key x) = (b.runtime.get? (key x)).map (g x) := h.foldl_row hnd hx
      rw [hr, Option.map_some] at hrow
      rcases hg x r with hgr | ⟨pending, rejected, hgr⟩
      · exact .same (by rw [hrow, hr, hgr]) hout
      · exact .counted hr hs htouched (hgr ▸ hrow) hout
    · exact .same (h.foldl_other hid) hout

end Rewrites

def Measure.record (m : Measure) (r : Runtime) : Runtime :=
  if m.remaining = 0 then r
  else { r with pendingPrerequisites := m.remaining, dependencyRejected := m.rejected }

theorem rewrites_recordMeasure : Rewrites recordMeasure Measure.taskId Measure.record where
  row db m id := by
    unfold recordMeasure Measure.record
    dsimp only
    by_cases hm : m.remaining = 0
    · simp only [hm, if_true]
      split <;> split <;> simp [addEvent]
    · simp only [hm, if_false]
      split <;> simp [setCounters, addEvent]
  outcomes db m := by
    unfold recordMeasure
    dsimp only
    split <;> split <;> rfl
  dependencies db m := by
    unfold recordMeasure
    dsimp only
    split <;> split <;> rfl

def resolvedDb (db : Db) (prerequisites : List (TaskId × OutcomeState)) (now : Time) : Db :=
  db.mapEdges (resolveEdge prerequisites (dependentsOf db prerequisites) now)

def measures (db : Db) (prerequisites : List (TaskId × OutcomeState)) (now : Time) : List Measure :=
  (dependentsOf db prerequisites).filterMap (measure db (resolvedDb db prerequisites now) prerequisites)

def countedDb (db : Db) (prerequisites : List (TaskId × OutcomeState)) (now : Time) : Db :=
  (measures db prerequisites now).foldl recordMeasure (resolvedDb db prerequisites now)

def settling (db : Db) (prerequisites : List (TaskId × OutcomeState)) (now : Time) (rejected : Bool) : List TaskId :=
  (((measures db prerequisites now).filter fun m => m.remaining = 0).filter fun m => m.rejected = rejected).map
    (·.taskId)

theorem resolveDependentsMany_eq : resolveDependentsMany fire prerequisites s =
    if dependentsOf s.db prerequisites = [] then s.ask
    else settleDependents fire s.now (settling s.db prerequisites s.now true)
      (settling s.db prerequisites s.now false) (s.ask.update fun db => countedDb db prerequisites s.now) := by
  have htrue : (fun m : Measure => decide (m.rejected = true)) = (·.rejected) := by
    funext m
    simp
  have hfalse : (fun m : Measure => decide (m.rejected = false)) = fun m => !m.rejected := by
    funext m
    cases m.rejected <;> rfl
  simp only [settling, htrue, hfalse]
  rfl

theorem mem_measures {m : Measure} : m ∈ measures b prerequisites now ↔ m.taskId ∈ dependentsOf b prerequisites ∧
      measure b (resolvedDb b prerequisites now) prerequisites m.taskId = some m := by
  simp only [measures, List.mem_filterMap]
  constructor
  · rintro ⟨id, hid, hm⟩
    obtain rfl := measure_taskId hm
    exact ⟨hid, hm⟩
  · rintro ⟨hid, hm⟩
    exact ⟨_, hid, hm⟩

theorem nodup_settling {rejected : Bool} : (settling b prerequisites now rejected).Nodup :=
  (nodup_measures nodup_dependentsOf).sublist ((List.filter_sublist.trans List.filter_sublist).map _)

theorem mem_settling {rejected : Bool} : id ∈ settling b prerequisites now rejected ↔
    ∃ m, m ∈ measures b prerequisites now ∧ m.taskId = id ∧ m.remaining = 0 ∧ m.rejected = rejected := by
  simp only [settling, List.mem_map, List.mem_filter, decide_eq_true_eq]
  constructor
  · rintro ⟨m, ⟨⟨hm, h₀⟩, hr⟩, rfl⟩
    exact ⟨m, hm, rfl, h₀, hr⟩
  · rintro ⟨m, hm, rfl, h₀, hr⟩
    exact ⟨m, ⟨⟨hm, h₀⟩, hr⟩, rfl⟩

def resolvedCount (db : Db) (prerequisites : List (TaskId × OutcomeState)) (id : TaskId) : Nat :=
  db.dependencies.count fun k d => k.1 = id && resolvable prerequisites k d

def resolvedRejects (db : Db) (prerequisites : List (TaskId × OutcomeState)) (id : TaskId) : Bool :=
  db.dependencies.any fun k d => k.1 = id && d.pending &&
    (prerequisites.lookup k.2).any fun state => (d.actionOn state).rejects

/-- What the resolver works out for a dependent: a recount, or a counter that the resolved edges fit into and that
reaches zero with the last pending edge only. -/
theorem measure_cases {after : Db} {m : Measure} (h : measure b after prerequisites id = some m) :
    ∃ r, after.runtime.get? id = some r ∧
      (m.repaired = true ∧ m.remaining = after.pendingEdges id ∧ m.rejected = after.rejectedEdges id ∧
        (r.pendingPrerequisites < resolvedCount b prerequisites id ∨
          r.pendingPrerequisites = resolvedCount b prerequisites id ∧ after.pendingEdges id ≠ 0) ∨
      m.repaired = false ∧ r.pendingPrerequisites = m.remaining + resolvedCount b prerequisites id ∧
        m.rejected = (r.dependencyRejected || resolvedRejects b prerequisites id) ∧
        (m.remaining = 0 → after.pendingEdges id = 0)) := by
  obtain ⟨r, hr, rfl⟩ := Option.map_eq_some_iff.mp h
  refine ⟨r, hr, ?_⟩
  dsimp only
  rw [← resolvedCount, ← resolvedRejects]
  cases hrep : (decide (r.pendingPrerequisites < resolvedCount b prerequisites id) ||
      r.pendingPrerequisites == resolvedCount b prerequisites id && after.pendingEdges id != 0) with
  | true =>
    simp only [Bool.or_eq_true, decide_eq_true_eq, Bool.and_eq_true, beq_iff_eq, bne_iff_ne] at hrep
    exact .inl ⟨rfl, rfl, rfl, hrep⟩
  | false =>
    simp only [Bool.or_eq_false_iff, decide_eq_false_iff_not, Bool.and_eq_false_iff, beq_eq_false_iff_ne,
      bne_eq_false_iff_eq] at hrep
    refine .inr ⟨rfl, ?_, rfl, ?_⟩ <;> simp only [Bool.false_eq_true, if_false] <;> omega

/-- Whatever the counter says, a dependent only settles without a pending edge. -/
theorem pendingEdges_of_remaining {m : Measure} (hm : m ∈ measures b prerequisites now) (h : m.remaining = 0) :
    (resolvedDb b prerequisites now).pendingEdges m.taskId = 0 := by
  obtain ⟨r, -, ⟨-, hrem, -⟩ | ⟨-, -, -, hzero⟩⟩ := measure_cases (mem_measures.mp hm).2
  · exact hrem.symm.trans h
  · exact hzero h

theorem resolveEdge_pending {dependents : List TaskId} {k : TaskId × TaskId} {d : Dependency}
    (h : k.1 ∈ dependents) : (resolveEdge prerequisites dependents now k d).pending =
      (d.pending && !(prerequisites.lookup k.2).isSome) := by
  unfold resolveEdge
  cases prerequisites.lookup k.2 with
  | none => simp
  | some state =>
    cases hp : d.pending with
    | false => simp [hp]
    | true => simp [h, Dependency.pending]

theorem touched_of_mem (hends : ∀ e ∈ prerequisites, a.Ends e) (h : id ∈ dependentsOf a prerequisites) :
    Touched (fun id => id ∈ prerequisites.map Prod.fst) chosen a (resolvedDb a prerequisites now) id := by
  obtain ⟨hblocked, k, d, hd, rfl, hr⟩ := mem_dependentsOf.mp h
  simp only [resolvable, Bool.and_eq_true, Option.isSome_iff_exists] at hr
  obtain ⟨hp, state, hl⟩ := hr
  have hmem := mem_of_lookup hl
  obtain ⟨hgone, o, ho, rfl⟩ := hends _ hmem
  refine ⟨isBlocked_iff.mp hblocked, .inr ⟨k.2, d, ⟨hd, hp⟩, fun d' hd' => ?_, o,
    .inl (List.mem_map.mpr ⟨_, hmem, rfl⟩), hgone, ho⟩⟩
  simp only [resolvedDb, mapEdges, Table.get?_mapRows, Option.map_eq_some_iff] at hd'
  obtain ⟨d₀, -, rfl⟩ := hd'
  simp [resolveEdge_pending h, hl]

theorem countedDb_statement (hends : ∀ e ∈ prerequisites, a.Ends e) :
    Statement (fun id => id ∈ prerequisites.map Prod.fst) chosen a (resolvedDb a prerequisites now)
      (countedDb a prerequisites now) := by
  refine rewrites_recordMeasure.statement (nodup_measures nodup_dependentsOf) (fun m hm => ?_) fun m r => ?_
  · have hid := (mem_measures.mp hm).1
    exact ⟨touched_of_mem hends hid, (mem_dependentsOf.mp hid).1⟩
  · unfold Measure.record
    split
    · exact .inl rfl
    · exact .inr ⟨m.remaining, m.rejected, rfl⟩

theorem countedDb_cascade (hends : ∀ e ∈ prerequisites, a.Ends e) :
    Cascade (fun id => id ∈ prerequisites.map Prod.fst) chosen a (countedDb a prerequisites now) :=
  (mapEdges_cascade hends fun _ hid => (mem_dependentsOf.mp hid).1).statement (countedDb_statement hends)

theorem dependencies_countedDb :
    (countedDb b prerequisites now).dependencies = (resolvedDb b prerequisites now).dependencies :=
  rewrites_recordMeasure.foldl_dependencies

theorem pendingEdges_countedDb :
    (countedDb b prerequisites now).pendingEdges id = (resolvedDb b prerequisites now).pendingEdges id := by
  rw [pendingEdges, dependencies_countedDb]
  rfl

theorem settling_ripe (hends : ∀ e ∈ prerequisites, a.Ends e)
    (h : id ∈ settling a prerequisites now true ∨ id ∈ settling a prerequisites now false) :
    Ripe (fun id => id ∈ prerequisites.map Prod.fst) chosen a (countedDb a prerequisites now) id := by
  obtain ⟨m, hm, rfl, h₀⟩ : ∃ m, m ∈ measures a prerequisites now ∧ m.taskId = id ∧ m.remaining = 0 := by
    rcases h with h | h <;> obtain ⟨m, hm, hid, h₀, -⟩ := mem_settling.mp h <;> exact ⟨m, hm, hid, h₀⟩
  refine Cascade.ripe ?_ ?_
  · have hstatement : Statement (fun id => id ∈ prerequisites.map Prod.fst) chosen a
        (resolvedDb a prerequisites now) (countedDb a prerequisites now) := countedDb_statement hends
    exact (touched_of_mem hends (mem_measures.mp hm).1).onward hstatement.onward
  · rw [pendingEdges_countedDb, pendingEdges_of_remaining hm h₀]

theorem resolveDependentsMany_cascading (hfire : Cascading fire) : Cascading (resolveDependentsMany fire) := by
  intro prerequisites s hends
  rw [resolveDependentsMany_eq]
  split
  · exact .refl _
  · exact (Db.Cascade.stages (s := s.ask.update fun db => countedDb db prerequisites s.now) hfire
      (countedDb_cascade hends) nodup_settling (fun _ hid => settling_ripe hends hid) s.now).2.2.2

/-! ## The trigger -/

theorem releaseEdge_cascade {new : List (TaskId × OutcomeState)} :
    Cascade (fun id => id ∈ new.map Prod.fst) chosen a (a.mapEdges (releaseEdge new now)) where
  absent _ h := ⟨h, rfl⟩
  row id r h := by
    have hr : (a.mapEdges (releaseEdge new now)).runtime.get? id = some r := h
    exact hr ▸ .kept
  outcome _ _ _ := rfl
  edge k d hd := by
    refine ⟨releaseEdge new now k d, by simp [mapEdges, hd], ?_⟩
    unfold releaseEdge
    split
    · rename_i hp
      rw [Bool.and_eq_true, List.contains_iff_mem] at hp
      exact .released hp.1 hp.2 now
    · exact .kept
  noEdge k hk := by simp [mapEdges, hk]

theorem resolveTaskOutcomeDependencies_cascading {resolve : Fire} (hresolve : Cascading resolve) :
    Cascading (resolveTaskOutcomeDependencies resolve) := by
  intro new s hends
  unfold resolveTaskOutcomeDependencies
  split
  · have hmem : ∀ e, e ∈ new.insertionSort (fun a b => a.1 ≤ b.1) ↔ e ∈ new :=
      fun e => (List.perm_insertionSort _ new).mem_iff
    have hkeys : ∀ id, id ∈ (new.insertionSort fun a b => a.1 ≤ b.1).map Prod.fst ↔ id ∈ new.map Prod.fst := by
      simp [hmem]
    refine Cascade.fires releaseEdge_cascade (hresolve _ (s.ask.update fun db => db.mapEdges (releaseEdge new s.now))
      fun e he => hends e ((hmem e).mp he)) (fun id hid => .inl ((hkeys id).mp hid)) ?_
    intro id p d hid hd
    -- The edges of the new terminal tasks were just released.
    have hcontains : (new.map Prod.fst).contains id = true := List.contains_iff_mem.mpr ((hkeys id).mp hid)
    simp only [mapEdges, Table.get?_mapRows, Option.map_eq_some_iff] at hd
    obtain ⟨d₀, -, rfl⟩ := hd
    unfold releaseEdge
    cases hp : d₀.pending with
    | false => simp [hp]
    | true =>
      simp only [hcontains, Bool.and_self, if_true]
      rfl
  · exact .refl _

theorem trigger_cascading (fuel : Nat) : Cascading (trigger fuel) := by
  induction fuel with
  | zero => exact fun _ s _ => .refl s.db
  | succ fuel ih => exact resolveTaskOutcomeDependencies_cascading (resolveDependentsMany_cascading ih)

theorem onOutcomes_cascading : Cascading onOutcomes := fun new s => trigger_cascading _ new s

end Workhorse
