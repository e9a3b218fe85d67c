import Workhorse.Dependency.Lemmas.Drift

/-!
# The fate of settled dependents

A rejected dependent gets the outcome of the edge that decides. A released one keeps its row through the cascades of the
others, until it is released, and through those of the deadlines after that.
-/

namespace Workhorse

open Db

variable {fire : Fire} {s : Session} {id k : TaskId} {new chosen : TaskId → Prop} {a b : Db} {now : Time}
  {rejected released ids : List TaskId} {r : Runtime}

theorem Db.Cascade.kept (h : Cascade new (fun _ => False) a b) (hr : a.runtime.get? id = some r)
    (hidle : r.state ≠ .blocked ∨ ∀ p d, a.dependencies.get? (id, p) = some d → d.pending = false) :
    b.runtime.get? id = some r := by
  have huntouched : ¬Touched new (fun _ => False) a b id := by
    rintro ⟨⟨r', hr', hs⟩, hcause⟩
    rw [hr] at hr'
    cases hr'
    rcases hcause with hf | ⟨p, d, ⟨hd, hp⟩, -⟩
    · exact hf
    · rcases hidle with hidle | hidle
      · exact hidle hs
      · rw [hidle p d hd] at hp
        cases hp
  have hrow := h.row id r hr
  generalize b.runtime.get? id = row at hrow
  cases hrow with
  | kept => rfl
  | counted ht => exact absurd ht huntouched
  | released ht | closed ht => exact absurd ht.toTouched huntouched

theorem finish_row (hfire : Cascading fire) (o : Outcome) (hne : id ≠ k) (hr : s.db.runtime.get? id = some r)
    (hs : r.state ≠ .blocked) : (finish fire k o s).db.runtime.get? id = some r :=
  (hfire.finish k o s).kept (by simp [deleteRuntime, setOutcome, hne, hr]) (.inl hs)

theorem finish_gone (hfire : Cascading fire) (id : TaskId) (o : Outcome) (s : Session) :
    (finish fire id o s).db.runtime.get? id = none ∧
    (finish fire id o s).db.outcomes.get? id = some o := by
  obtain ⟨hgone, hout⟩ := (hfire.finish id o s).onward.absent id (by simp [deleteRuntime, setOutcome])
  exact ⟨hgone, hout.trans (by simp [setOutcome])⟩

theorem finish_absent (hfire : Cascading fire) (o : Outcome) (hne : id ≠ k) (h : s.db.runtime.get? id = none) :
    (finish fire k o s).db.runtime.get? id = none ∧
      (finish fire k o s).db.outcomes.get? id = s.db.outcomes.get? id := by
  obtain ⟨hgone, hout⟩ := (hfire.finish k o s).onward.absent id (by simp [deleteRuntime, setOutcome, hne, h])
  exact ⟨hgone, hout.trans (by simp [deleteRuntime, setOutcome, hne])⟩

/-! ## Deadlines -/

def Db.Overdue (db : Db) (id : TaskId) (r : Runtime) : Prop :=
  db.runtime.get? id = none ∧ ∃ deadline o, r.deadlineAt = some deadline ∧ db.outcomes.get? id = some o ∧
    (r.cancelRequestedAt = none → o.state = .failed ∧ o.error = some (.deadlineExceeded deadline))

theorem terminalizeDeadlineWith_row (hfire : Cascading fire) (hr : s.db.runtime.get? id = some r)
    (hs : r.state ≠ .blocked) :
    (terminalizeDeadlineWith fire k s).2.db.runtime.get? id = some r ∨
      id = k ∧ (terminalizeDeadlineWith fire k s).2.db.Overdue id r := by
  rcases terminalizeDeadlineWith_cases fire k s with hsame | ⟨r', deadline, o, hr', hdeadline, ho, hagrees⟩
  · exact .inl (by rw [hsame.runtime, hr])
  · by_cases hne : id = k
    · subst hne
      rw [hr] at hr'
      cases hr'
      obtain ⟨hgone, hout⟩ := finish_gone hfire id o s.ask.ask
      exact .inr ⟨rfl, by rw [hagrees.runtime, hgone], deadline, o, hdeadline, by rw [hagrees.outcomes, hout], ho⟩
    · exact .inl (by rw [hagrees.runtime, finish_row (s := s.ask.ask) hfire o hne hr hs])

theorem terminalizeDeadlineWith_overdue (hfire : Cascading fire) (h : s.db.Overdue id r) :
    (terminalizeDeadlineWith fire k s).2.db.Overdue id r := by
  obtain ⟨hnone, deadline, o, hdeadline, hout, ho⟩ := h
  rcases terminalizeDeadlineWith_cases fire k s with hsame | ⟨r', _, o', hr', -, -, hagrees⟩
  · exact ⟨by rw [hsame.runtime, hnone], deadline, o, hdeadline, by rw [hsame.outcomes, hout], ho⟩
  · have hne : id ≠ k := by
      rintro rfl
      rw [hnone] at hr'
      cases hr'
    obtain ⟨hgone, hkept⟩ := finish_absent (s := s.ask.ask) hfire o' hne hnone
    exact ⟨by rw [hagrees.runtime, hgone], deadline, o, hdeadline, by rw [hagrees.outcomes, hkept]; exact hout, ho⟩

theorem foldl_terminalizeDeadline_row (ids : List TaskId) (hfire : Cascading fire) (hs : r.state ≠ .blocked)
    (h : s.db.runtime.get? id = some r ∨ s.db.Overdue id r) :
    (ids.foldl (fun s id => (terminalizeDeadlineWith fire id s).2) s).db.runtime.get? id = some r ∨
      (id ∈ ids ∨ s.db.Overdue id r) ∧
        (ids.foldl (fun s id => (terminalizeDeadlineWith fire id s).2) s).db.Overdue id r := by
  induction ids generalizing s with
  | nil =>
    rcases h with h | h
    · exact .inl h
    · exact .inr ⟨.inr h, h⟩
  | cons k ids ih =>
    rw [List.foldl_cons]
    rcases h with hr | hover
    · rcases terminalizeDeadlineWith_row (k := k) hfire hr hs with hr' | ⟨rfl, hover⟩
      · rcases ih (.inl hr') with hend | ⟨hmem | hover, hend⟩
        · exact .inl hend
        · exact .inr ⟨.inl (List.mem_cons_of_mem _ hmem), hend⟩
        · exact absurd hr' (by rw [hover.1]; exact nofun)
      · rcases ih (.inr hover) with hend | ⟨-, hend⟩
        · exact .inl hend
        · exact .inr ⟨.inl List.mem_cons_self, hend⟩
    · rcases ih (.inr (terminalizeDeadlineWith_overdue hfire hover)) with hend | ⟨-, hend⟩
      · exact .inl hend
      · exact .inr ⟨.inr hover, hend⟩

/-! ## Releases -/

theorem releaseDependent_row_other (hne : id ≠ k) :
    (releaseDependent now s k).db.runtime.get? id = s.db.runtime.get? id := by
  rcases releaseDependent_cases now s k with ⟨hsame, -⟩ | ⟨r, sequence, hr, hs, hagrees⟩
  · rw [hsame.runtime]
  · rw [hagrees.runtime]
    simp [setRuntime, hne]

theorem releaseDependent_row (now : Time) (hr : s.db.runtime.get? id = some r) (hs : r.state = .blocked) :
    ∃ sequence, (releaseDependent now s id).db.runtime.get? id = some (r.dependencyReleased now sequence) := by
  rcases releaseDependent_cases now s id with ⟨-, hnot⟩ | ⟨r', sequence, hr', -, hagrees⟩
  · rw [isBlocked_iff.mpr ⟨r, hr, hs⟩] at hnot
    cases hnot
  · rw [hr] at hr'
    cases hr'
    exact ⟨sequence, by rw [hagrees.runtime]; simp [setRuntime]⟩

theorem releaseDependent_row_idle (hr : s.db.runtime.get? id = some r) (hs : r.state ≠ .blocked) :
    (releaseDependent now s k).db.runtime.get? id = some r := by
  by_cases hne : id = k
  · subst hne
    rcases releaseDependent_cases now s id with ⟨hsame, -⟩ | ⟨r', sequence, hr', hs', -⟩
    · rw [hsame.runtime, hr]
    · rw [hr] at hr'
      cases hr'
      exact absurd hs' hs
  · rw [releaseDependent_row_other hne, hr]

theorem foldl_releaseDependent_idle (hr : s.db.runtime.get? id = some r) (hs : r.state ≠ .blocked) :
    (ids.foldl (releaseDependent now) s).db.runtime.get? id = some r := by
  induction ids generalizing s with
  | nil => exact hr
  | cons k ids ih => exact ih (releaseDependent_row_idle hr hs)

theorem foldl_releaseDependent_row (now : Time) (hmem : id ∈ ids) (hr : s.db.runtime.get? id = some r)
    (hs : r.state = .blocked) : ∃ sequence,
      (ids.foldl (releaseDependent now) s).db.runtime.get? id = some (r.dependencyReleased now sequence) := by
  induction ids generalizing s with
  | nil => cases hmem
  | cons k ids ih =>
    by_cases hne : id = k
    · subst hne
      obtain ⟨sequence, hrow⟩ := releaseDependent_row now hr hs
      refine ⟨sequence, ?_⟩
      rw [List.foldl_cons]
      refine foldl_releaseDependent_idle hrow ?_
      rcases r.dependencyReleased_state now sequence with h | h <;> rw [h] <;> exact nofun
    · refine ih ((List.mem_cons.mp hmem).resolve_left hne) ?_
      rw [releaseDependent_row_other hne, hr]

theorem closing_row (now : Time) (hfire : Cascading fire) (hnd : rejected.Nodup)
    (hzero : ∀ id ∈ rejected, s.db.pendingEdges id = 0) (hr : s.db.runtime.get? id = some r)
    (hd : s.db.decidingEdge id = none) (hfree : s.db.pendingEdges id = 0) :
    (closing fire now rejected s).db.runtime.get? id = some r := by
  let t := s.update fun db => (byId (unexplained s.db rejected)).foldl recountRejected db
  have hagrees : s.db.Agrees t.db := recount_agrees hzero
  have hnot : id ∉ (settledRows t.db now rejected).map Prod.fst := by
    intro hmem
    obtain ⟨e, he, rfl⟩ := List.mem_map.mp hmem
    obtain ⟨_, decider, -, -, hsome, -⟩ := settledRow_eq_some.mp (mem_settledRows.mp he).2
    rw [decidingEdge, hagrees.dependencies, ← decidingEdge, hd] at hsome
    cases hsome
  have hfires := hfire _ (t.update fun db => db.closeRows (settledRows t.db now rejected))
    (closeRows_ends (nodup_settledRows hnd))
  refine hfires.kept ?_ (.inr fun p d hedge => ?_)
  · change (t.db.closeRows (settledRows t.db now rejected)).runtime.get? id = some r
    rw [runtime_closeRows, Table.get?_foldl_erase, if_neg hnot, hagrees.runtime, hr]
  · change (t.db.closeRows (settledRows t.db now rejected)).dependencies.get? (id, p) = some d at hedge
    rw [dependencies_closeRows, hagrees.dependencies] at hedge
    simpa using Table.count_eq_zero_iff.mp hfree _ _ hedge

/-! ## Both fates -/

/-- What its resolved edges make of a blocked dependent without a pending edge: the outcome that the deciding edge
names, or else a release, which a deadline that has passed may end at once. -/
inductive Db.Fate (now : Time) (a b : Db) (id : TaskId) (r : Runtime) : Prop
  | rejected {decider : TaskId × Action} (hd : a.decidingEdge id = some decider) (hr : b.runtime.get? id = none)
      (ho : b.outcomes.get? id = some (rejection a now r decider))
  | released (hd : a.decidingEdge id = none) {sequence : Nat}
      (hr : b.runtime.get? id = some (r.dependencyReleased now sequence))
  | overdue (hd : a.decidingEdge id = none) (hdue : r.deadlineAt.any (· ≤ now) = true) (h : b.Overdue id r)

theorem settleDependents_fate (hfire : Cascading fire) (h : Cascade new chosen a s.db) (hnd : rejected.Nodup)
    (hripe : ∀ id, id ∈ rejected ∨ id ∈ released → Ripe new chosen a s.db id)
    (hreleased : ∀ id ∈ released, s.db.rejectedEdges id = false) (hid : id ∈ rejected ∨ id ∈ released)
    (hr : s.db.runtime.get? id = some r) (hs : r.state = .blocked) :
    Fate now s.db (settleDependents fire now rejected released s).db id r := by
  have hzero : ∀ id ∈ rejected, s.db.pendingEdges id = 0 := fun id hid => (hripe id (.inl hid)).pendingEdges
  obtain ⟨-, hon', hon'', -⟩ := h.stages hfire hnd hripe now
  cases hd : s.db.decidingEdge id with
  | some decider =>
    have hrejected : id ∈ rejected := by
      refine hid.resolve_right fun hrel => ?_
      rw [decidingEdge_eq_none.mpr (hreleased id hrel)] at hd
      cases hd
    obtain ⟨hgone, hout⟩ := closing_rejects now hfire hnd hzero hrejected hr hs hd
    obtain ⟨hgone', hout'⟩ := (hon'.trans hon'').absent id hgone
    exact .rejected hd hgone' (hout'.trans hout)
  | none =>
    have hmem : id ∈ releasing s.db rejected released := by
      rcases hid with hid | hid
      · exact mem_releasing_of_rejected hid (hzero id hid) (isBlocked_iff.mpr ⟨r, hr, hs⟩) (decidingEdge_eq_none.mp hd)
      · exact mem_releasing.mpr (.inl hid)
    have hclosing := closing_row now hfire hnd hzero hr hd (hripe id hid).pendingEdges
    obtain ⟨sequence, hfreed⟩ := foldl_releaseDependent_row now hmem hclosing hs
    have hidle : (r.dependencyReleased now sequence).state ≠ .blocked := by
      rcases r.dependencyReleased_state now sequence with h | h <;> rw [h] <;> exact nofun
    rcases foldl_terminalizeDeadline_row (dueAt (closing fire now rejected s).db now
      (releasing s.db rejected released)) hfire hidle (.inl hfreed) with hend | ⟨hdue | hover, hend⟩
    · exact .released hd hend
    · have hdue := (List.mem_filter.mp hdue).2
      rw [hclosing, Option.any_some, Bool.and_eq_true] at hdue
      exact .overdue hd hdue.2 hend
    · rw [hover.1] at hfreed
      cases hfreed

end Workhorse
