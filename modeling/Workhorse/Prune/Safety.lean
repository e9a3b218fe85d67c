import Workhorse.Prune.Lemmas.Commits

/-!
# Results on references under terminal cleanup
-/

namespace Workhorse

/-- In every interleaving of pruning with transactions that add references, each committed reference that
counts names a task that is there: the prerequisite of a task that has not finished, the members of a group
that is not finished, with their outcomes, the tasks of idempotency rows, of schedule occurrences and of redrives,
and the parent of a child that has not finished. -/
theorem prune_keeps_references (events : List RefEvent) : let s := RefState.initial.run events
    (∀ e ∈ s.db.dependencies, s.live e.1 = true → s.db.tasks.contains e.2 = true) ∧
    (∀ m ∈ s.db.members, m.2 ∉ s.db.finishedGroups →
      s.db.tasks.contains m.1 = true ∧ (m.1 ∈ s.db.runtime ∨ s.db.outcomes.contains m.1 = true)) ∧
    (∀ id ∈ s.db.idempotency, s.db.tasks.contains id = true) ∧
    (∀ id ∈ s.db.occurrences, s.db.tasks.contains id = true) ∧
    (∀ r ∈ s.db.redrives, s.db.tasks.contains r.1 = true ∧ s.db.tasks.contains r.2 = true) ∧
    ∀ e ∈ s.parents, s.live e.2 = true → s.db.tasks.contains e.1 = true := by
  intro s
  have hwhole : s.Whole := (RefState.sound_initial.run events).whole
  refine ⟨fun e he _ => hwhole.dependencies e he, fun m hm hopen => ?_, hwhole.idempotency, hwhole.occurrences,
    hwhole.redrives, fun e he => (hwhole.parents e he).2.2.2⟩
  obtain ⟨hfull, -, hthere⟩ := hwhole.members m hm
  exact ⟨hthere hopen, (hwhole.settled m.1 (hthere hopen)).resolve_left hfull⟩

/-- Tasks 1 and 2 finish. While they are being pruned, task 3 is enqueued with task 2 as its prerequisite: its
insert gets the lock on task 2 before the pruning does. -/
def prunedBeside : List RefEvent := [.insert 0 (.task 1 0 false), .insert 0 (.task 2 0 false), .commit 0,
    .finish 1 ⟨1, 1⟩, .finish 2 ⟨1, 1⟩, .insert 1 (.task 3 5 false), .insert 1 (.dependency 3 2),
    .lockWindow 2 [1, 2], .pruneLocked 2 ⟨9, 9, 9⟩ 10, .commit 1, .commit 2]

theorem prune_keeps_references_prunedBeside : (RefState.initial.run prunedBeside).db.tasks.contains 1 = false ∧
    (RefState.initial.run prunedBeside).db.dependencies = [(3, 2)] ∧
    (RefState.initial.run prunedBeside).db.tasks.contains 2 = true := ⟨by decide +kernel, by decide +kernel,
    (prune_keeps_references prunedBeside).1 (3, 2) (by decide +kernel) (by decide +kernel)⟩

end Workhorse
