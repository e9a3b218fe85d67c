import Workhorse.Group.Lemmas.Finish

/-!
# Group counters and finished groups

In every committed state of every run, the counters of a group are those of its membership rows, and the
group is finished if and only if it is sealed and every member has an outcome.
-/

namespace Workhorse

variable {shardCount : GroupId → Nat} {db : GroupDb}

theorem tally_of (shardCount : GroupId → Nat) (members : Table TaskId Member) (key : ShardKey) (o : OutcomeState) :
    tally shardCount members key (.of o) = members.count fun _ m => m.key shardCount = key && m.outcome = some o := by
  refine Table.count_congr fun _ m _ => ?_
  rcases hm : m.outcome with _ | o'
  · cases o <;> simp [Member.inColumn, Column.of, hm]
  · cases o <;> cases o' <;> simp [Member.inColumn, Column.of, hm]

theorem GroupDb.Exact.pending_iff (h : db.Exact shardCount) (key : ShardKey) : 0 < (db.shards key).pending ↔
      ∃ id m, db.members.get? id = some m ∧ m.key shardCount = key ∧ m.outcome = none := by
  have hshard : db.shards key = tally shardCount db.members key := funext (h.shards key)
  rw [hshard, Frame.pending_tally, unfinished, Table.count_pos_iff]
  simp

/-- Along every interleaving of adds, recorded and applied outcomes, savepoint rollbacks, seals and
cancels, the committed counts of each shard are the numbers of its membership rows, by outcome, and
`pending_shard_count` is the number of shards with a member without an outcome. -/
theorem group_counters_exact (shardCount : GroupId → Nat) (hn : ∀ g, 0 < shardCount g)
    (events : List GroupEvent) (σ : GroupStore)
    (hrun : GroupStore.fresh.run shardCount events = some σ) :
    (∀ key, σ.db.shards key .total = σ.db.members.count fun _ m => m.key shardCount = key) ∧
    (∀ key o, σ.db.shards key (.of o) = σ.db.members.count fun _ m => m.key shardCount = key && m.outcome = some o) ∧
    ∀ g, (σ.db.groups g).pendingShards = {s ∈ Finset.range (shardCount g) |
      (σ.db.members.any fun _ m => m.key shardCount = (g, s) && m.outcome.isNone) = true}.card := by
  have hexact := ((GroupStore.inv_fresh shardCount).run hn hrun).exact
  refine ⟨fun key => ?_, fun key o => ?_, fun g => ?_⟩
  · rw [hexact.shards]
    exact Table.count_congr fun _ m _ => by simp [Member.inColumn]
  · rw [hexact.shards, tally_of]
  · rw [hexact.pendingShards]
    congr 1
    refine Finset.filter_congr fun s _ => ?_
    rw [hexact.pending_iff, Table.any_iff]
    simp

/-- Two members are added in one transaction. The outcome of the first is recorded, taken back with a
savepoint, recorded again and applied. -/
def recordedTwice : List GroupEvent :=
  [.begin 0, .add 0 0 [1, 2] none, .commit 0, .begin 1, .savepoint 1, .record 1 1 .failed, .rollbackTo 1,
    .record 1 1 .succeeded, .applyShard 1 (0, 0), .applyGroup 1 0, .commit 1]

theorem group_counters_exact_recordedTwice : ∃ σ, GroupStore.fresh.run (fun _ => 2) recordedTwice = some σ ∧
      σ.db.shards (0, 0) (.of .succeeded) =
        σ.db.members.count (fun _ m => m.key (fun _ => 2) = (0, 0) && m.outcome = some .succeeded) := by
  obtain ⟨σ, hσ⟩ := Option.isSome_iff_exists.mp
    (show (GroupStore.fresh.run (fun _ => 2) recordedTwice).isSome = true by decide +kernel)
  exact ⟨σ, hσ, (group_counters_exact (fun _ => 2) (fun _ => by decide) recordedTwice σ hσ).2.1 (0, 0)
    .succeeded⟩

/-! ## Finished groups -/

theorem GroupDb.Exact.succeeded_iff (h : db.Exact shardCount) (key : ShardKey) :
    db.shards key .succeeded = db.shards key .total ↔ ∀ id m, db.members.get? id = some m →
      m.key shardCount = key → m.outcome = some .succeeded := by
  have htotal : tally shardCount db.members key .total = db.members.count fun _ m => m.key shardCount = key :=
    Table.count_congr fun _ m _ => by simp [Member.inColumn]
  have hsucceeded := tally_of shardCount db.members key .succeeded
  have hsplit := db.members.count_add_count_not (fun _ m => m.key shardCount = key)
    fun _ m => m.outcome = some .succeeded
  rw [h.shards, h.shards, htotal]
  have hzero : tally shardCount db.members key .succeeded = db.members.count (fun _ m => m.key shardCount = key) ↔
      db.members.count (fun _ m => m.key shardCount = key && !decide (m.outcome = some .succeeded)) = 0 := by
    simp only [Column.of] at hsucceeded
    omega
  rw [hzero, Table.count_eq_zero_iff]
  simp

theorem sum_map_eq_iff {l : List Nat} {a b : Nat → Nat} (hle : ∀ s ∈ l, a s ≤ b s) :
    (l.map a).sum = (l.map b).sum ↔ ∀ s ∈ l, a s = b s := by
  induction l with
  | nil => simp
  | cons s l ih =>
    have hrest : (l.map a).sum ≤ (l.map b).sum := List.sum_le_sum fun s hs => hle s (List.mem_cons_of_mem _ hs)
    have hhead := hle s List.mem_cons_self
    simp only [List.map_cons, List.sum_cons, List.forall_mem_cons]
    rw [← ih fun s hs => hle s (List.mem_cons_of_mem _ hs)]
    omega

theorem GroupDb.Exact.sum_succeeded_iff (hn : ∀ g, 0 < shardCount g) (h : db.Exact shardCount)
    (g : GroupId) :
    Frame.blank.sum shardCount db g .succeeded = Frame.blank.sum shardCount db g .total ↔
      ∀ id m, db.members.get? id = some m → m.group = g → m.outcome = some .succeeded := by
  have hle (s : Nat) (_ : s ∈ List.range (shardCount g)) :
      (db.view .blank).shards (g, s) .succeeded ≤ (db.view .blank).shards (g, s) .total := by
    change db.shards (g, s) .succeeded ≤ db.shards (g, s) .total
    have htotal := tally_total shardCount db.members (g, s)
    rw [h.shards, h.shards]
    omega
  unfold Frame.sum
  rw [sum_map_eq_iff hle]
  constructor
  · intro hall id m hm hg
    subst hg
    have hlt := m.key_lt hn
    exact (h.succeeded_iff _).mp (hall _ (List.mem_range.mpr hlt)) id m hm rfl
  · intro hall s _
    exact (h.succeeded_iff (g, s)).mpr fun id m hm hk => hall id m hm (congrArg Prod.fst hk)

/-- Along every interleaving: a group is finished if and only if it is sealed and every member has an
outcome; it then has its result, which is success exactly when all members succeeded; its callbacks are
enqueued at most once each, and not before; and once it is finished, no event adds a member or changes
its rows. -/
theorem group_finishes_once (shardCount : GroupId → Nat) (hn : ∀ g, 0 < shardCount g)
    (events : List GroupEvent) (σ : GroupStore)
    (hrun : GroupStore.fresh.run shardCount events = some σ) (g : GroupId) :
    ((σ.db.groups g).state = .finished ↔ (σ.db.groups g).state ≠ .open_ ∧
      ∀ id m, σ.db.members.get? id = some m → m.group = g → m.outcome.isSome = true) ∧
    ((σ.db.groups g).state = .finished → ∃ succeeded, (σ.db.groups g).succeeded = some succeeded ∧
      (succeeded = true ↔ ∀ id m, σ.db.members.get? id = some m → m.group = g → m.outcome = some .succeeded)) ∧
    (σ.db.groups g).callbacks.Nodup ∧
    ((σ.db.groups g).state ≠ .finished → (σ.db.groups g).callbacks = []) ∧
    ((σ.db.groups g).state = .finished → ∀ later τ, σ.run shardCount later = some τ →
      τ.db.groups g = σ.db.groups g ∧ (∀ s, τ.db.shards (g, s) = σ.db.shards (g, s)) ∧
      ∀ id m, m.group = g → (τ.db.members.get? id = some m ↔ σ.db.members.get? id = some m)) := by
  have hinv := (GroupStore.inv_fresh shardCount).run hn hrun
  have hclosed := (GroupStore.closed_fresh shardCount).run hn (GroupStore.inv_fresh shardCount) hrun
  have hgood : (σ.db.groups g).Good := hclosed.db.good g
  have hblank := Frame.sound_blank shardCount σ.db
  refine ⟨⟨fun hfinished => ⟨by simp [hfinished], fun id m hm hg => ?_⟩, fun hsealed => ?_⟩,
    fun hfinished => ?_, ?_, fun hstate => (hgood.waiting hstate).1, fun hfinished later τ hlater => ?_⟩
  · subst hg
    by_contra hnone
    have hpos : 0 < (σ.db.shards (m.key shardCount)).pending :=
      (hinv.exact.pending_iff _).mpr ⟨id, m, hm, rfl, by simpa using hnone⟩
    have hzero : (σ.db.shards (m.key shardCount)).pending = 0 :=
      hblank.pending_of_finished hn hinv.exact hclosed.db hfinished _
    omega
  · -- No shard is pending, so the group is not sealed and waiting.
    have hzero : (σ.db.groups g).pendingShards = 0 := by
      rw [hinv.exact.pendingShards, Finset.card_eq_zero, Finset.eq_empty_iff_forall_notMem]
      intro s hs
      obtain ⟨id, m, hm, hk, hnone⟩ := (hinv.exact.pending_iff (g, s)).mp (Frame.mem_pendingShards.mp hs).2
      have hsome := hsealed.2 id m hm (congrArg Prod.fst hk)
      simp [hnone] at hsome
    cases hstate : (σ.db.groups g).state with
    | open_ => exact absurd hstate hsealed.1
    | sealed =>
      have hpos := hgood.sealed hstate
      omega
    | finished => rfl
  · obtain ⟨-, hsucceeded, -⟩ := hgood.finished hfinished
    have hcounts : (σ.db.groups g).counts = Frame.blank.sum shardCount σ.db g := hclosed.db.counts g hfinished
    refine ⟨_, hsucceeded, ?_⟩
    rw [decide_eq_true_eq, hcounts]
    exact hinv.exact.sum_succeeded_iff hn g
  · by_cases hstate : (σ.db.groups g).state = .finished
    · rw [(hgood.finished hstate).2.2]
      split <;> decide
    · simp [(hgood.waiting hstate).1]
  · have hsame := hclosed.sameGroup_run hn hinv hfinished hlater
    exact ⟨hsame.group, hsame.shards, hsame.members⟩

def sealedOne : List GroupEvent :=
  [.begin 0, .add 0 0 [1] none, .sealGroup 0 0, .commit 0, .begin 1, .record 1 1 .succeeded,
    .applyShard 1 (0, 0), .applyGroup 1 0, .commit 1]

theorem group_finishes_once_sealedOne : ∃ σ, GroupStore.fresh.run (fun _ => 2) sealedOne = some σ ∧
    (σ.db.groups 0).state = .finished ∧
      ∀ id m, σ.db.members.get? id = some m → m.group = 0 → m.outcome.isSome = true := by
  have hstate : (GroupStore.fresh.run (fun _ => 2) sealedOne).map (fun σ => (σ.db.groups 0).state) =
      some .finished := by decide +kernel
  obtain ⟨σ, hσ, hfinished⟩ := Option.map_eq_some_iff.mp hstate
  exact ⟨σ, hσ, hfinished, ((group_finishes_once (fun _ => 2) (fun _ => by decide) sealedOne σ hσ 0).1.mp hfinished).2⟩

end Workhorse
