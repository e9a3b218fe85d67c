import Workhorse.Group.Repair

/-!
# Results on the repair of a task group

A repaired group is one that the repair leaves as it is, that the listing does not report, and that the commit of the
repairing transaction does not touch.
-/

namespace Workhorse

/-! ## Counts -/

theorem Shard.same_iff {a b : Shard} : a.same b = true ↔ a = b := by
  constructor
  · intro h
    simp only [Shard.same, Bool.and_eq_true, decide_eq_true_eq] at h
    funext column
    cases column with
    | total => exact h.1.1.1
    | succeeded => exact h.1.1.2
    | failed => exact h.1.2
    | canceled => exact h.2
  · rintro rfl
    simp [Shard.same]

theorem Shard.any_same {row : Option Shard} {counts : Shard} :
    row.any (fun row => row.same counts) = true ↔ row = some counts := by
  cases row with
  | none => simp
  | some row => simp [Shard.same_iff]

namespace GroupRows

variable {shardCount : GroupId → Nat} {s : GroupRows} {g : GroupId} {facts : TaskFacts} {locked : TaskId → Bool}
  {group : Group}

theorem countBy_total (outcome : TaskId → Member → Option OutcomeState) (slot : Nat) :
    s.countBy shardCount g outcome slot .total =
      s.countBy shardCount g outcome slot .succeeded + s.countBy shardCount g outcome slot .failed +
        s.countBy shardCount g outcome slot .canceled +
        s.members.count fun id m => m.key shardCount = (g, slot) && (outcome id m).isNone := by
  simp only [countBy, Table.count]
  induction s.members.rows with
  | nil => rfl
  | cons e rows ih =>
    simp only [List.countP_cons, ih]
    cases hkey : decide (e.2.key shardCount = (g, slot)) with
    | false => simp
    | true =>
      cases outcome e.1 e.2 with
      | none =>
        simp
        omega
      | some o =>
        cases o <;> simp [Column.of] <;> omega

theorem isPending_countBy (outcome : TaskId → Member → Option OutcomeState) (slot : Nat) :
    (s.countBy shardCount g outcome slot).isPending =
      s.members.any fun id m => m.key shardCount = (g, slot) && (outcome id m).isNone := by
  rw [Bool.eq_iff_iff, Table.any_iff, ← Table.count_pos_iff, Shard.isPending, decide_eq_true_eq, countBy_total]
  omega

theorem countBy_congr {outcome outcome' : TaskId → Member → Option OutcomeState}
    (h : ∀ id m, s.members.get? id = some m → m.group = g → outcome id m = outcome' id m) (slot : Nat) :
    s.countBy shardCount g outcome slot = s.countBy shardCount g outcome' slot := by
  have hcount (column : Column) :
      (s.members.count fun id m => m.key shardCount = (g, slot) && (outcome id m).any fun o => Column.of o = column) =
        s.members.count fun id m => m.key shardCount = (g, slot) &&
          (outcome' id m).any fun o => Column.of o = column := by
    refine Table.count_congr fun id m hm => ?_
    by_cases hkey : m.key shardCount = (g, slot)
    · rw [h id m hm (congrArg Prod.fst hkey)]
    · simp [hkey]
  funext column
  cases column with
  | total => rfl
  | succeeded => exact hcount .succeeded
  | failed => exact hcount .failed
  | canceled => exact hcount .canceled

theorem sumOf_total (outcome : TaskId → Member → Option OutcomeState) :
    sumOf shardCount g (s.countBy shardCount g outcome) .total =
      sumOf shardCount g (s.countBy shardCount g outcome) .succeeded +
        sumOf shardCount g (s.countBy shardCount g outcome) .failed +
        sumOf shardCount g (s.countBy shardCount g outcome) .canceled + ((slots shardCount g).map fun slot =>
          s.members.count fun id m => m.key shardCount = (g, slot) && (outcome id m).isNone).sum := by
  simp only [sumOf]
  induction slots shardCount g with
  | nil => rfl
  | cons slot rest ih =>
    simp only [List.map_cons, List.sum_cons, ih, countBy_total outcome slot]
    omega

theorem sumOf_eq_iff : sumOf shardCount g (s.counted shardCount g) .total =
      sumOf shardCount g (s.counted shardCount g) .succeeded + sumOf shardCount g (s.counted shardCount g) .failed +
        sumOf shardCount g (s.counted shardCount g) .canceled ↔ s.countPending shardCount g = 0 := by
  have hcounted : s.counted shardCount g = s.countBy shardCount g fun _ m => m.outcome := rfl
  simp only [countPending, List.length_eq_zero_iff, List.filter_eq_nil_iff, hcounted, isPending_countBy]
  rw [sumOf_total, Nat.add_eq_left, List.sum_eq_zero_iff]
  simp only [List.forall_mem_map, Table.count_eq_zero_iff, Bool.not_eq_true, Table.any_eq_false_iff]

/-! ## Repaired groups -/

structure Repaired (shardCount : GroupId → Nat) (s : GroupRows) (g : GroupId) (facts : TaskFacts) (group : Group) :
    Prop where
  row : s.groups.get? g = some group
  shards : ∀ slot < shardCount g, s.shards (g, slot) = some (s.counted shardCount g slot)
  pending : group.pendingShards = s.countPending shardCount g
  unfinished : group.state = .sealed → s.countPending shardCount g ≠ 0
  members : ∀ id m, s.members.get? id = some m → m.group = g → m.outcome = none →
    facts.outcome id = none ∧ facts.stored id = true
  unlisted : ∀ id ∈ s.listed, ∀ m, s.members.get? id = some m → m.group ≠ g

theorem mem_slots {slot : Nat} : slot ∈ slots shardCount g ↔ slot < shardCount g := List.mem_range

theorem Repaired.changed (h : Repaired shardCount s g facts group) : s.changed shardCount g = [] := by
  rw [GroupRows.changed, List.filter_eq_nil_iff]
  intro slot hslot
  simp [h.shards slot (mem_slots.mp hslot), Shard.same_iff]

theorem Repaired.expected (h : Repaired shardCount s g facts group) (slot : Nat) :
    s.expected shardCount g facts slot = s.counted shardCount g slot := by
  refine countBy_congr (fun id m hm hgroup => ?_) slot
  cases hout : m.outcome with
  | some o => simp [memberState, hout]
  | none =>
    obtain ⟨houtcome, hstored⟩ := h.members id m hm hgroup hout
    simp [memberState, hout, houtcome, hstored]

theorem Repaired.recordedPending (h : Repaired shardCount s g facts group) :
    s.recordedPending shardCount g = s.countPending shardCount g := by
  rw [GroupRows.recordedPending, countPending]
  refine congrArg List.length (List.filter_congr fun slot hslot => ?_)
  simp [h.shards slot (mem_slots.mp hslot)]

theorem Repaired.not_drifted (h : Repaired shardCount s g facts group) :
    s.drifted shardCount g facts group = false := by
  have hdiffers : s.differs shardCount g facts = false := by
    rw [differs, List.any_eq_false]
    intro slot hslot
    simp [h.shards slot (mem_slots.mp hslot), h.expected, Shard.same_iff]
  have hsettled : s.settled shardCount g facts group = false := by
    have hsum : sumOf shardCount g (s.expected shardCount g facts) = sumOf shardCount g (s.counted shardCount g) :=
      congrArg (sumOf shardCount g) (funext h.expected)
    simp only [settled, hsum, sumOf_eq_iff, Bool.and_eq_false_iff, decide_eq_false_iff_not]
    by_cases hsealed : group.state = .sealed
    · exact Or.inr (h.unfinished hsealed)
    · exact Or.inl hsealed
  simp [drifted, hdiffers, hsettled, h.recordedPending, h.pending]

theorem Repaired.not_listed {limit : Int} {rows : List DriftRow} (h : Repaired shardCount s g facts group)
    (hrows : s.listDrift shardCount facts limit = .ok rows) : ∀ row ∈ rows, row.group ≠ g := by
  intro row hrow hgroup
  unfold listDrift at hrows
  split at hrows
  · cases hrows
  · cases hrows
    obtain ⟨e, he, rfl⟩ := List.mem_map.mp hrow
    have hselected := List.mem_mergeSort.mp (List.mem_of_mem_take he)
    obtain ⟨hrow', hdrifted⟩ := Table.mem_select.mp hselected
    simp only at hgroup
    rw [hgroup, h.row] at hrow'
    cases hrow'
    rw [hgroup, h.not_drifted] at hdrifted
    cases hdrifted

/-! ## The commit -/

theorem Repaired.applyListed (h : Repaired shardCount s g facts group) :
    Repaired shardCount (s.applyListed shardCount) g facts group := by
  have htarget (slot : Nat) : s.isTarget shardCount (g, slot) = false := by
    refine Table.any_eq_false_iff.mpr fun id m hm => ?_
    by_cases hlisted : id ∈ s.listed
    · have hkey : m.key shardCount ≠ (g, slot) := fun hkey => h.unlisted id hlisted m hm (congrArg Prod.fst hkey)
      simp [hkey]
    · simp [hlisted]
  have hemptied : s.emptied shardCount g = 0 := by
    rw [emptied, List.length_eq_zero_iff, List.filter_eq_nil_iff]
    intro slot hslot
    simp [takes, htarget]
  exact
    { row := by simp [GroupRows.applyListed, h.row, hemptied]
      shards := fun slot hslot => by
        have hrow : (s.applyListed shardCount).shards (g, slot) = s.shards (g, slot) := by
          simp [GroupRows.applyListed, applyShards, takes, htarget]
        rw [hrow, h.shards slot hslot]
        rfl
      pending := h.pending
      unfinished := h.unfinished
      members := h.members
      unlisted := by simp [GroupRows.applyListed] }

/-! ## The repair -/

theorem recordMissing_members {id : TaskId} {m : Member} (hlocked : ∀ id m, s.members.get? id = some m → m.group = g →
      m.outcome = none → locked id = false)
    (hm : (s.recordMissing g facts locked).members.get? id = some m) (hgroup : m.group = g) (hnone : m.outcome = none) :
    facts.outcome id = none ∧ facts.stored id = true := by
  simp only [recordMissing, Table.get?_mapRows, Option.map_eq_some_iff] at hm
  obtain ⟨m₀, hm₀, hm⟩ := hm
  split at hm
  · subst hm
    cases hnone
  · rename_i hnot
    subst hm
    by_cases hruntime : facts.runtime id = true
    · exact facts.live id hruntime
    · have hfree := hlocked id m₀ hm₀ hgroup hnone
      simp only [hgroup, hnone, hruntime, hfree, true_and, and_true, not_or, Bool.not_false, Bool.not_eq_true',
        Bool.not_eq_false] at hnot
      simpa using hnot

theorem mem_unlist {id : TaskId} {m : Member} (hid : id ∈ (s.unlist g).listed) (hm : s.members.get? id = some m) :
    m.group ≠ g := by
  simp only [unlist, List.mem_filter] at hid
  simpa [hm] using hid.2

theorem recount_shards (group : Group) (details : String) {slot : Nat} (hslot : slot < shardCount g) :
    (s.recount shardCount g group details).shards (g, slot) = some (s.counted shardCount g slot) := by
  by_cases hchanged : slot ∈ s.changed shardCount g
  · simp [recount, hchanged]
  · have hsame : (s.shards (g, slot)).any (fun row => row.same (s.counted shardCount g slot)) = true := by
      simpa [changed, mem_slots, hslot] using hchanged
    simp [recount, hchanged, Shard.any_same.mp hsame]

theorem recount_row (details : String) (hpending : group.pendingShards = s.countPending shardCount g) :
    (s.recount shardCount g group details).groups.get? g = some group := by
  simp [recount, ← hpending]

theorem recount_finish (details : String) (hsealed : group.state = .sealed) (hpending : group.pendingShards = 0)
    (hnone : s.countPending shardCount g = 0) :
    ((s.recount shardCount g group details).finish shardCount g group).state = .finished ∧
      ((s.recount shardCount g group details).finish shardCount g group).pendingShards = 0 := by
  have hsum : Frame.blank.sum shardCount (s.recount shardCount g group details).db g =
      sumOf shardCount g (s.counted shardCount g) := by
    funext column
    refine congrArg List.sum (List.map_congr_left fun slot hslot => ?_)
    have hrow := recount_shards (s := s) group details (List.mem_range.mp hslot)
    simp [GroupDb.view, Frame.blank, db, hrow]
  have hcond : group.state = .sealed ∧ group.pendingShards = 0 ∧
      sumOf shardCount g (s.counted shardCount g) .succeeded + sumOf shardCount g (s.counted shardCount g) .failed +
        sumOf shardCount g (s.counted shardCount g) .canceled = sumOf shardCount g (s.counted shardCount g) .total :=
    ⟨hsealed, hpending, (sumOf_eq_iff.mpr hnone).symm⟩
  simp only [finish, Frame.finish, hsum, if_pos hcond, true_and]
  exact hpending

/-- The counts of the membership rows, and the finish where it is due. -/
theorem recount_finish_repaired (details : String)
    (hpending : group.pendingShards = s.countPending shardCount g)
    (hmembers : ∀ id m, s.members.get? id = some m → m.group = g → m.outcome = none →
      facts.outcome id = none ∧ facts.stored id = true)
    (hunlisted : ∀ id ∈ s.listed, ∀ m, s.members.get? id = some m → m.group ≠ g) :
    ∃ group', Repaired shardCount ((s.recount shardCount g group details).finishRepaired shardCount g group) g facts
        group' ∧
      (group.state = .sealed →
        ((s.recount shardCount g group details).finishRepaired shardCount g group).countPending shardCount g = 0 →
          group'.state = .finished) := by
  by_cases hdue : group.state = .sealed ∧ group.pendingShards = 0
  · have hnone : s.countPending shardCount g = 0 := hpending.symm.trans hdue.2
    obtain ⟨hstate, hzero⟩ := recount_finish (s := s) details hdue.1 hdue.2 hnone
    refine ⟨(s.recount shardCount g group details).finish shardCount g group, ?_, fun _ _ => hstate⟩
    rw [finishRepaired, if_pos hdue]
    exact
      { row := by simp
        shards := fun slot hslot => recount_shards group details hslot
        pending := hzero.trans hnone.symm
        unfinished := fun hsealed => by
          rw [hstate] at hsealed
          cases hsealed
        members := hmembers
        unlisted := hunlisted }
  · rw [finishRepaired, if_neg hdue]
    refine ⟨group, ?_, fun hsealed hnone => absurd ⟨hsealed, hpending.trans hnone⟩ hdue⟩
    exact
      { row := recount_row details hpending
        shards := fun slot hslot => recount_shards group details hslot
        pending := hpending
        unfinished := fun hsealed hnone => hdue ⟨hsealed, hpending.trans hnone⟩
        members := hmembers
        unlisted := hunlisted }

theorem repair_repaired (details : String) (hrow : s.groups.get? g = some group) (hstate : group.state ≠ .finished)
    (hlocked : ∀ id m, s.members.get? id = some m → m.group = g → m.outcome = none → locked id = false) :
    ∃ group', Repaired shardCount (s.repair shardCount g facts locked details).1 g facts group' ∧
      (group.state = .sealed → (s.repair shardCount g facts locked details).1.countPending shardCount g = 0 →
        group'.state = .finished) := by
  have hmembers : ∀ id m, (s.recordMissing g facts locked).members.get? id = some m → m.group = g →
      m.outcome = none → facts.outcome id = none ∧ facts.stored id = true :=
    fun id m => recordMissing_members hlocked
  simp only [repair, hrow, if_neg hstate]
  set s₀ := (s.recordMissing g facts locked).unlist g with hs₀
  have hunlisted : ∀ id ∈ s₀.listed, ∀ m, s₀.members.get? id = some m → m.group ≠ g :=
    fun id hid m hm => mem_unlist hid hm
  split
  · rename_i hclean
    obtain ⟨hchanged, hpending, hopen⟩ := hclean
    refine ⟨group, ?_, fun hsealed hnone => absurd ⟨hsealed, hnone⟩ hopen⟩
    exact
      { row := hrow
        shards := fun slot hslot => by
          have hsame := List.filter_eq_nil_iff.mp hchanged slot (mem_slots.mpr hslot)
          simp only [Bool.not_eq_true', Bool.not_eq_false] at hsame
          exact Shard.any_same.mp hsame
        pending := hpending
        unfinished := fun hsealed hnone => hopen ⟨hsealed, hnone⟩
        members := hmembers
        unlisted := hunlisted }
  · refine recount_finish_repaired (s := s₀) details ?_ hmembers hunlisted
    rfl

theorem Repaired.repair (h : Repaired shardCount s g facts group) (locked : TaskId → Bool) (details : String) :
    s.repair shardCount g facts locked details = (s, none) := by
  by_cases hstate : group.state = .finished
  · simp [GroupRows.repair, h.row, hstate]
  · have hrecord : s.recordMissing g facts locked = s := by
      rw [recordMissing, Table.mapRows_eq_self]
      intro id m hm
      refine if_neg ?_
      rintro ⟨hgroup, hnone, -, hover, -⟩
      obtain ⟨houtcome, hstored⟩ := h.members id m hm hgroup hnone
      simp [houtcome, hstored] at hover
    have hunlist : s.unlist g = s := by
      have hsame : s.listed.filter (fun id => !(s.members.get? id).any fun m => m.group = g) = s.listed := by
        refine List.filter_eq_self.mpr fun id hid => ?_
        cases hm : s.members.get? id with
        | none => rfl
        | some m => simpa using h.unlisted id hid m hm
      rw [unlist, hsame]
    have hclean : s.changed shardCount g = [] ∧ group.pendingShards = s.countPending shardCount g ∧
        ¬(group.state = .sealed ∧ s.countPending shardCount g = 0) :=
      ⟨h.changed, h.pending, fun hdue => h.unfinished hdue.1 hdue.2⟩
    simp only [GroupRows.repair, h.row, if_neg hstate, hrecord, hunlist, if_pos hclean]

theorem countPending_eq_zero (h : ∀ id m, s.members.get? id = some m → m.group = g → m.outcome ≠ none) :
    s.countPending shardCount g = 0 := by
  rw [countPending, List.length_eq_zero_iff, List.filter_eq_nil_iff]
  intro slot hslot
  rw [counted, isPending_countBy, Bool.not_eq_true, Table.any_eq_false_iff]
  intro id m hm
  by_cases hkey : m.key shardCount = (g, slot)
  · have hsome := h id m hm (congrArg Prod.fst hkey)
    simpa [hkey, Option.isSome_iff_ne_none] using hsome
  · simp [hkey]

end GroupRows

open GroupRows

/-- From any counts, one repair of a group that is not finished gives it the counts of its members, also after the
commit, and nothing is left to repair. -/
theorem group_repair_from_drift (shardCount : GroupId → Nat) (s : GroupRows) (g : GroupId) (facts : TaskFacts)
    (locked : TaskId → Bool) (details : String) (group : Group) (hrow : s.groups.get? g = some group)
    (hstate : group.state ≠ .finished)
    (hlocked : ∀ id m, s.members.get? id = some m → m.group = g → m.outcome = none → locked id = false)
    (s' : GroupRows) (hs' : s' = (s.repair shardCount g facts locked details).1 ∨
      s' = (s.repair shardCount g facts locked details).1.applyListed shardCount) :
    ∃ group', s'.groups.get? g = some group' ∧
      (∀ slot < shardCount g, s'.shards (g, slot) = some (s'.counted shardCount g slot)) ∧
      group'.pendingShards = ((List.range (shardCount g)).filter fun slot =>
        s'.members.any fun _ m => m.key shardCount = (g, slot) && m.outcome.isNone).length ∧
      (group.state = .sealed → (∀ id m, s'.members.get? id = some m → m.group = g → m.outcome ≠ none) →
        group'.state = .finished) ∧
      (∀ id m, s'.members.get? id = some m → m.group = g → m.outcome = none →
        facts.outcome id = none ∧ facts.stored id = true) ∧
      (∀ limit rows, s'.listDrift shardCount facts limit = .ok rows → ∀ row ∈ rows, row.group ≠ g) ∧
      ∀ details', s'.repair shardCount g facts locked details' = (s', none) := by
  obtain ⟨group', hrepaired, hfinished⟩ := @repair_repaired shardCount s g facts locked group details hrow hstate
    hlocked
  have hrepaired' : Repaired shardCount s' g facts group' := by
    rcases hs' with rfl | rfl
    · exact hrepaired
    · exact hrepaired.applyListed
  have hmembers : s'.members = (s.repair shardCount g facts locked details).1.members := by
    rcases hs' with rfl | rfl
    · rfl
    · rfl
  refine ⟨group', hrepaired'.row, hrepaired'.shards, ?_, fun hsealed hall => ?_, hrepaired'.members,
    fun limit rows => hrepaired'.not_listed, fun details' => hrepaired'.repair locked details'⟩
  · rw [hrepaired'.pending, countPending]
    simp only [counted, isPending_countBy]
    rfl
  · rw [hmembers] at hall
    exact hfinished hsealed (countPending_eq_zero hall)

/-- A sealed group of two slots: one row is missing, one has counts of nothing, and an outcome is not recorded. -/
def strayRows : GroupRows where
  members := (Table.empty.put 1 ⟨0, 1, some .succeeded⟩).put 2 ⟨0, 2, none⟩
  shards := fun k => if k = (0, 1) then some fun _ => 7 else none
  groups := Table.empty.put 0 { Group.created with state := .sealed, pendingShards := 2 }
  listed := [1]
  events := []

def strayFacts : TaskFacts where
  runtime _ := false
  outcome id := if id = 2 then some .failed else none
  stored _ := true
  live _ h := by cases h

theorem group_repair_from_drift_stray : ∃ group',
    ((strayRows.repair (fun _ => 2) 0 strayFacts (fun _ => false) "").1.applyListed fun _ => 2).groups.get? 0 =
      some group' ∧ group'.state = .finished ∧ group'.pendingShards = 0 := by
  obtain ⟨group', hrow, -, hpending, hfinished, -⟩ := group_repair_from_drift (fun _ => 2) strayRows 0 strayFacts
    (fun _ => false) "" { Group.created with state := .sealed, pendingShards := 2 } rfl (by decide)
    (fun _ _ _ _ _ => rfl) _ (Or.inr rfl)
  refine ⟨group', hrow, hfinished rfl fun id m hm _ => ?_, hpending.trans (by decide +kernel)⟩
  have hall : (((strayRows.repair (fun _ => 2) 0 strayFacts (fun _ => false) "").1.applyListed fun _ => 2).members.any
      fun _ m => m.outcome.isNone) = false := by decide +kernel
  have hsome := Table.any_eq_false_iff.mp hall id m hm
  simpa [Option.isSome_iff_ne_none] using hsome

def finishedRows : GroupRows where
  members := Table.empty.put 1 ⟨0, 1, some .succeeded⟩
  shards := fun _ => some .none
  groups := Table.empty.put 0 { Group.created with state := .finished, succeeded := some true }
  listed := []
  events := []

/-- The counts of a finished group are not repaired. -/
theorem finished_group_keeps_counts :
    (finishedRows.repair (fun _ => 1) 0 strayFacts (fun _ => false) "").1.shards (0, 0) ≠
      some ((finishedRows.repair (fun _ => 1) 0 strayFacts (fun _ => false) "").1.counted (fun _ => 1) 0 0) := by
  intro h
  have htotal := congrArg (fun row => row.map fun counts => counts .total) h
  revert htotal
  decide +kernel

end Workhorse
