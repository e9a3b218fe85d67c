import Workhorse.Tier.Lemmas.Statements

/-!
# Tier and table agreement
-/

namespace Workhorse

theorem TierStore.fresh_inv : TierStore.fresh.Inv := by
  refine ⟨.of_tiers ?_ ?_ ?_ ?_ ?_, ⟨?_, ?_, ?_⟩, ?_, ?_⟩
  all_goals simp [TierStore.fresh, Placement.empty, Placement.isFast, Table.contains]

/-- While every transaction runs at read committed, the committed rows agree with the tiers after every
interleaving of enqueues, redrives, children, policy synchronizations, switches and ends of tasks. -/
theorem placement_agrees {events : List TierEvent} {σ : TierStore}
    (hrun : TierStore.fresh.run events = some σ) (hrc : ∀ e ∈ events, e.readCommitted = true) :
    σ.committed.Agrees :=
  (TierStore.fresh_inv.run hrc hrun).agrees

/-- A transaction begins, another one switches the queue to the fast tier, and the first enqueues. -/
def enqueueAfterSwitch (repeatableRead : Bool) : List TierEvent :=
  [.begin 0 repeatableRead, .begin 1 false, .lockExclusive 1 "q", .setTier 1 "q" .fast, .commit 1,
    .lockShared 0 "q", .readTiers 0 ["q"], .enqueue 0 7 "q" [], .commit 0]

/-- At read committed the task is in the table of the fast tier. -/
theorem placement_agrees_afterSwitch : ∃ σ, TierStore.fresh.run (enqueueAfterSwitch false) = some σ ∧
      σ.committed.fastRuntime.get? 7 = some "q" ∧ σ.committed.Agrees :=
  ⟨_, rfl, rfl, @placement_agrees (enqueueAfterSwitch false) _ rfl (by decide)⟩

/-- At repeatable read the enqueue holds the lock and reads the tier of its snapshot. -/
theorem snapshot_enqueue_misplaced : ∃ σ,
    TierStore.fresh.run (enqueueAfterSwitch true) = some σ ∧ σ.committed.tiers "q" = .fast ∧
      σ.committed.runtime.get? 7 = some "q" ∧ ¬σ.committed.Agrees := by
  refine ⟨_, rfl, rfl, rfl, fun h => ?_⟩
  have hfull := h.full 7 "q" rfl
  cases hfull

end Workhorse
