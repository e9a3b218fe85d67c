import Workhorse.Prune.Lemmas.References

/-!
# Commits and other steps

A commit keeps the committed rows whole and does not disturb another transaction. The other steps finish tasks
and groups and give up references.
-/

namespace Workhorse.RefState

variable {s s' : RefState} {conn : Nat} {id : TaskId}

/-! ## Commits -/

section Apply

variable {rows : List RefRow} {keyShare : List TaskId} (hok : s.WritingOk rows keyShare)

include hok

theorem not_created_of_used (hid : id ∈ s.used) (fast : Bool) : id ∉ createdTasks rows fast :=
  fun hmem => hok.fresh id (mem_creates_of_mem keyShare hmem) hid

theorem contains_apply_of_used (hid : id ∈ s.used) (h : (s.apply rows).db.tasks.contains id = true) :
    s.db.tasks.contains id = true := ((contains_apply keyShare).mp h).resolve_right fun hmem => hok.fresh id hmem hid

theorem live_of_live_apply (hid : id ∈ s.used) (h : (s.apply rows).live id = true) : s.live id = true := by
  obtain ⟨hthere, hrest⟩ := live_iff.mp h
  exact live_iff.mpr ⟨contains_apply_of_used hok hid hthere, hrest⟩

theorem contains_of_references {row : RefRow} (hrow : row ∈ rows) (hid : id ∈ row.references) :
    (s.apply rows).db.tasks.contains id = true :=
  (contains_apply keyShare).mpr (hok.there id (hok.shared row hrow id hid)).symm

theorem not_mem_fast_apply (hid : id ∉ s.fast) (hused : id ∈ s.used) : id ∉ (s.apply rows).fast := fun hmem =>
  (List.mem_append.mp hmem).elim (not_created_of_used hok hused true) hid

theorem not_mem_fast_created (hwhole : s.Whole) (hid : id ∈ createdTasks rows false) : id ∉ (s.apply rows).fast := by
  intro hmem
  obtain hmem | hmem := List.mem_append.mp hmem
  · exact hok.tiers id hid hmem
  · exact hok.fresh id (mem_creates_of_mem keyShare hid) (hwhole.fast id hmem)

theorem Whole.apply (hwhole : s.Whole) (hkeys : ∀ id ∈ rows.filterMap RefRow.asIdempotency,
    id ∈ (OpenTx.writing rows keyShare).creates ∨ s.db.tasks.contains id = true) : (s.apply rows).Whole := by
  have hold {id : TaskId} (h : s.db.tasks.contains id = true) : (s.apply rows).db.tasks.contains id = true :=
    (contains_apply keyShare).mpr (.inl h)
  have hnew {id : TaskId} {fast : Bool} (h : id ∈ createdTasks rows fast) :
      (s.apply rows).db.tasks.contains id = true := (contains_apply keyShare).mpr (.inr (mem_creates_of_mem keyShare h))
  have hused {id : TaskId} (h : id ∈ s.used) : id ∈ (s.apply rows).used := List.mem_append_right _ h
  have husedNew {id : TaskId} {fast : Bool} (h : id ∈ createdTasks rows fast) : id ∈ (s.apply rows).used :=
    List.mem_append_left _ (mem_creates_of_mem keyShare h)
  constructor
  · intro e he
    obtain he | he := List.mem_append.mp he
    · exact contains_of_references hok (mem_asDependency.mp he) (by simp [RefRow.references])
    · exact hold (hwhole.dependencies e he)
  · intro r hr
    obtain hr | hr := List.mem_append.mp hr
    · have hrow := mem_asRedrive.mp hr
      exact ⟨contains_of_references hok hrow (by simp [RefRow.references]),
        contains_of_references hok hrow (by simp [RefRow.references])⟩
    · exact ⟨hold (hwhole.redrives r hr).1, hold (hwhole.redrives r hr).2⟩
  · intro id hid
    obtain hid | hid := List.mem_append.mp hid
    · exact contains_of_references hok (mem_asOccurrence.mp hid) (by simp [RefRow.references])
    · exact hold (hwhole.occurrences id hid)
  · intro id hid
    obtain hid | hid := List.mem_append.mp hid
    · exact (contains_apply keyShare).mpr (hkeys id hid).symm
    · exact hold (hwhole.idempotency id hid)
  · intro m hm
    obtain hm | hm := List.mem_append.mp hm
    · have hcreated := hok.members m.1 m.2 (mem_asMember.mp hm)
      exact ⟨not_mem_fast_created hok hwhole hcreated, husedNew hcreated, fun _ => hnew hcreated⟩
    · obtain ⟨hfast, hin, hthere⟩ := hwhole.members m hm
      exact ⟨not_mem_fast_apply hok hfast hin, hused hin, fun hopen => hold (hthere hopen)⟩
  · intro e he
    obtain he | he := List.mem_append.mp he
    · have hrow := mem_asChild.mp he
      obtain ⟨hfast, hin, hcreated⟩ := hok.children e.1 e.2 hrow
      exact ⟨not_mem_fast_apply hok hfast hin, hused hin, husedNew hcreated,
        fun _ => contains_of_references hok hrow (by simp [RefRow.references])⟩
    · obtain ⟨hfast, hin, hin', hthere⟩ := hwhole.parents e he
      exact ⟨not_mem_fast_apply hok hfast hin, hused hin, hused hin',
        fun hlive => hold (hthere (live_of_live_apply hok hin' hlive))⟩
  · intro e he hparent hchild
    obtain he | he := List.mem_append.mp he
    · exact List.mem_append_left _ he
    · obtain ⟨-, hin, hin', -⟩ := hwhole.parents e he
      exact List.mem_append_right _ (hwhole.children e he (contains_apply_of_used hok hin hparent)
        (contains_apply_of_used hok hin' hchild))
  · intro id hid
    obtain hid | hid := List.mem_append.mp hid
    · exact ⟨not_mem_fast_created hok hwhole hid, husedNew hid⟩
    · obtain ⟨hfast, hin⟩ := hwhole.runtime id hid
      exact ⟨not_mem_fast_apply hok hfast hin, hused hin⟩
  · intro id hid
    rcases (contains_apply keyShare).mp hid with hid | hid
    · rcases hwhole.settled id hid with h | h | h
      · exact .inl (List.mem_append_right _ h)
      · exact .inr (.inl (List.mem_append_right _ h))
      · exact .inr (.inr h)
    · obtain hid | hid := List.mem_append.mp hid
      · exact .inr (.inl (List.mem_append_left _ hid))
      · exact .inl (List.mem_append_left _ hid)
  · intro id hid
    rcases (contains_apply keyShare).mp hid with hid | hid
    · exact hused (hwhole.used id hid)
    · exact List.mem_append_left _ hid
  · intro id hid
    obtain hid | hid := List.mem_append.mp hid
    · exact husedNew hid
    · exact hused (hwhole.fast id hid)
  · exact fun id hid => List.mem_append_right _ (hwhole.fastOutcomes id hid)

theorem TxOk.apply (hwhole : s.Whole) {tx : OpenTx} (htx : s.TxOk tx) (hapart : tx.Apart (.writing rows keyShare)) :
    (s.apply rows).TxOk tx := by
  cases tx with
  | writing rows' keyShare' =>
    refine ⟨htx.shared, fun id hid => ?_, fun id hid => ?_, htx.tiers, htx.members, fun parent id hrow => ?_⟩
    · exact (htx.there id hid).imp_right fun h => (contains_apply keyShare).mpr (.inl h)
    · intro hmem
      exact (List.mem_append.mp hmem).elim (hapart.creates id hid) (htx.fresh id hid)
    · obtain ⟨hfast, hin, hcreated⟩ := htx.children parent id hrow
      exact ⟨not_mem_fast_apply hok hfast hin, List.mem_append_right _ hin, hcreated⟩
  | pruning forUpdate deleted =>
    refine ⟨fun id hid => (contains_apply keyShare).mpr (.inl (htx.locked id hid)), htx.subset, fun id hid => ?_⟩
    have hcleared := htx.cleared id hid
    have hlocked := htx.subset id hid
    have hin := hwhole.used id (htx.locked id hlocked)
    -- A row that names the task would have needed its lock.
    have hnot {row : RefRow} (hrow : row ∈ rows) : id ∉ row.references := fun hmem =>
      hapart.keyShare id hlocked (hok.shared row hrow id hmem)
    constructor
    · exact Bool.eq_false_of_not_eq_true fun hlive => by
        have := live_of_live_apply hok hin hlive
        rw [hcleared.finished] at this
        cases this
    · intro e he heq
      obtain he | he := List.mem_append.mp he
      · exact absurd (by simp [RefRow.references, heq]) (hnot (mem_asDependency.mp he))
      · exact hcleared.dependencies e he heq
    · intro r hr heq
      obtain hr | hr := List.mem_append.mp hr
      · exact absurd (by simp [RefRow.references, heq]) (hnot (mem_asRedrive.mp hr))
      · exact hcleared.redrives r hr heq
    · intro m hm heq
      obtain hm | hm := List.mem_append.mp hm
      · have hcreated := hok.members m.1 m.2 (mem_asMember.mp hm)
        exact absurd (heq ▸ hcreated) (not_created_of_used hok hin false)
      · exact hcleared.members m hm heq
    · intro e he heq
      obtain he | he := List.mem_append.mp he
      · exact absurd (by simp [RefRow.references, heq]) (hnot (mem_asChild.mp he))
      · refine Bool.eq_false_of_not_eq_true fun hlive => ?_
        have := live_of_live_apply hok (hwhole.parents e he).2.2.1 hlive
        rw [hcleared.children e he heq] at this
        cases this

end Apply

section Delete

variable {forUpdate deleted : List TaskId}

def remove (s : RefState) (deleted : List TaskId) : RefState :=
  { s with
    db := s.db.delete deleted
    fastOutcomes := s.fastOutcomes.filter (!deleted.contains ·) }

theorem contains_remove : (s.remove deleted).db.tasks.contains id = true ↔
    s.db.tasks.contains id = true ∧ id ∉ deleted := contains_filter_keys

theorem live_of_live_remove (h : (s.remove deleted).live id = true) : s.live id = true := by
  obtain ⟨hthere, hout, hfast⟩ := live_iff.mp h
  obtain ⟨hthere, hkept⟩ := contains_remove.mp hthere
  refine live_iff.mpr ⟨hthere, Bool.eq_false_of_not_eq_true fun hcontains => ?_, fun hmem => hfast ?_⟩
  · have hstill : (s.remove deleted).db.outcomes.contains id = true := contains_filter_keys.mpr ⟨hcontains, hkept⟩
    rw [hout] at hstill
    cases hstill
  · exact List.mem_filter.mpr ⟨hmem, by simpa using hkept⟩

theorem Whole.remove (hwhole : s.Whole) (hok : s.PruningOk forUpdate deleted)
    (hkeys : ∀ id ∈ s.db.idempotency, id ∉ deleted) : (s.remove deleted).Whole := by
  constructor
  · intro e he
    obtain ⟨he, hkept⟩ := List.mem_filter.mp he
    refine contains_remove.mpr ⟨hwhole.dependencies e he, fun hmem => ?_⟩
    simp [(hok.cleared e.2 hmem).dependencies e he rfl] at hkept
  · intro r hr
    obtain ⟨hr, hkept⟩ := List.mem_filter.mp hr
    have htarget : r.2 ∉ deleted := by simpa using hkept
    obtain ⟨hsource, hthere⟩ := hwhole.redrives r hr
    exact ⟨contains_remove.mpr ⟨hsource, fun hmem => htarget ((hok.cleared r.1 hmem).redrives r hr rfl)⟩,
      contains_remove.mpr ⟨hthere, htarget⟩⟩
  · intro id hid
    obtain ⟨hid, hkept⟩ := List.mem_filter.mp hid
    exact contains_remove.mpr ⟨hwhole.occurrences id hid, by simpa using hkept⟩
  · exact fun id hid => contains_remove.mpr ⟨hwhole.idempotency id hid, hkeys id hid⟩
  · intro m hm
    obtain ⟨hfast, hin, hthere⟩ := hwhole.members m hm
    refine ⟨hfast, hin, fun hopen => contains_remove.mpr ⟨hthere hopen, fun hmem => hopen ?_⟩⟩
    exact (hok.cleared m.1 hmem).members m hm rfl
  · intro e he
    obtain ⟨hfast, hin, hin', hthere⟩ := hwhole.parents e he
    refine ⟨hfast, hin, hin', fun hlive => ?_⟩
    have hlive' := live_of_live_remove hlive
    refine contains_remove.mpr ⟨hthere hlive', fun hmem => ?_⟩
    rw [(hok.cleared e.1 hmem).children e he rfl] at hlive'
    cases hlive'
  · intro e he hparent hchild
    obtain ⟨hparent, hkept⟩ := contains_remove.mp hparent
    obtain ⟨hchild, hkept'⟩ := contains_remove.mp hchild
    exact List.mem_filter.mpr ⟨hwhole.children e he hparent hchild, by simp [hkept, hkept']⟩
  · exact fun id hid => hwhole.runtime id (List.mem_of_mem_filter hid)
  · intro id hid
    obtain ⟨hthere, hkept⟩ := contains_remove.mp hid
    rcases hwhole.settled id hthere with h | h | h
    · exact .inl h
    · exact .inr (.inl (List.mem_filter.mpr ⟨h, by simpa using hkept⟩))
    · exact .inr (.inr (contains_filter_keys.mpr ⟨h, hkept⟩))
  · exact fun id hid => hwhole.used id (contains_remove.mp hid).1
  · exact hwhole.fast
  · exact fun id hid => hwhole.fastOutcomes id (List.mem_of_mem_filter hid)

theorem TxOk.remove (hok : s.PruningOk forUpdate deleted) {tx : OpenTx} (htx : s.TxOk tx)
    (hapart : (OpenTx.pruning forUpdate deleted).Apart tx) : (s.remove deleted).TxOk tx := by
  cases tx with
  | writing rows keyShare =>
    refine ⟨htx.shared, fun id hid => ?_, htx.fresh, htx.tiers, htx.members, htx.children⟩
    refine (htx.there id hid).imp_right fun h => contains_remove.mpr ⟨h, fun hmem => ?_⟩
    exact hapart.keyShare id (hok.subset id hmem) hid
  | pruning forUpdate' deleted' =>
    refine ⟨fun id hid => ?_, htx.subset, fun id hid => ?_⟩
    · exact contains_remove.mpr ⟨htx.locked id hid, fun hmem => hapart.forUpdate id (hok.subset id hmem) hid⟩
    have hcleared := htx.cleared id hid
    constructor
    · refine Bool.eq_false_of_not_eq_true fun hlive => ?_
      have := live_of_live_remove hlive
      rw [hcleared.finished] at this
      cases this
    · exact fun e he => hcleared.dependencies e (List.mem_of_mem_filter he)
    · exact fun r hr => hcleared.redrives r (List.mem_of_mem_filter hr)
    · exact hcleared.members
    · intro e he heq
      refine Bool.eq_false_of_not_eq_true fun hlive => ?_
      have := live_of_live_remove hlive
      rw [hcleared.children e he heq] at this
      cases this

end Delete

theorem Sound.commit (h : s.Sound) (conn : Nat) : (s.commit conn).Sound := by
  rw [RefState.commit]
  split
  · rename_i rows keyShare hget
    split
    · rename_i hkeys
      have hok : s.WritingOk rows keyShare := h.ok conn _ hget
      constructor
      · refine (Whole.apply hok h.whole fun id hid => ?_).transactions _
        exact (referable_cases (List.all_eq_true.mp hkeys id hid)).imp_right And.left
      · intro conn' tx' htx'
        obtain ⟨hne, htx'⟩ := Table.get?_erase_eq_some htx'
        exact (TxOk.apply hok h.whole (h.ok conn' tx' htx') (h.apart conn' conn _ _ hne htx' hget)).transactions _
      · exact (h.erase conn).apart
    · exact h
  · rename_i forUpdate deleted hget
    split
    · exact h
    · rename_i hkeys
      have hok : s.PruningOk forUpdate deleted := h.ok conn _ hget
      have hfree : ∀ id ∈ s.db.idempotency, id ∉ deleted := fun id hid hmem =>
        hkeys (List.any_eq_true.mpr ⟨id, hid, by simpa using hmem⟩)
      constructor
      · exact (h.whole.remove hok hfree).transactions _
      · intro conn' tx' htx'
        obtain ⟨hne, htx'⟩ := Table.get?_erase_eq_some htx'
        exact (TxOk.remove hok (h.ok conn' tx' htx') (h.apart conn conn' _ _ (Ne.symm hne) hget htx')).transactions _
      · exact (h.erase conn).apart
  · exact h

/-! ## Steps without a transaction -/

structure Eases (s s' : RefState) : Prop where
  tasks : s'.db.tasks = s.db.tasks
  used : s'.used = s.used
  fast : s'.fast = s.fast
  parents : s'.parents = s.parents
  children : s'.db.children = s.db.children
  redrives : s'.db.redrives = s.db.redrives
  members : s'.db.members = s.db.members
  transactions : s'.transactions = s.transactions
  dependencies : s'.db.dependencies ⊆ s.db.dependencies
  occurrences : s'.db.occurrences ⊆ s.db.occurrences
  idempotency : s'.db.idempotency ⊆ s.db.idempotency
  runtime : s'.db.runtime ⊆ s.db.runtime
  groups : s.db.finishedGroups ⊆ s'.db.finishedGroups
  outcomes : ∀ id, s.db.outcomes.contains id = true → s'.db.outcomes.contains id = true
  settled : ∀ id ∈ s.db.runtime, id ∈ s'.db.runtime ∨ s'.db.outcomes.contains id = true
  fastOutcomes : s.fastOutcomes ⊆ s'.fastOutcomes
  finished : ∀ id ∈ s'.fastOutcomes, id ∈ s.fastOutcomes ∨ id ∈ s.fast

theorem Eases.live (h : s.Eases s') (hlive : s'.live id = true) : s.live id = true := by
  obtain ⟨hthere, hout, hfast⟩ := live_iff.mp hlive
  refine live_iff.mpr ⟨h.tasks ▸ hthere, Bool.eq_false_of_not_eq_true fun hcontains => ?_, fun hmem => hfast ?_⟩
  · rw [h.outcomes id hcontains] at hout
    cases hout
  · exact h.fastOutcomes hmem

theorem Eases.live_eq_false (h : s.Eases s') (hlive : s.live id = false) : s'.live id = false :=
  Bool.eq_false_of_not_eq_true fun hlive' => by
    rw [h.live hlive'] at hlive
    cases hlive

theorem Whole.eases (hs : s.Whole) (h : s.Eases s') : s'.Whole where
  dependencies e he := h.tasks ▸ hs.dependencies e (h.dependencies he)
  redrives := by rw [h.redrives, h.tasks]; exact hs.redrives
  occurrences id hid := h.tasks ▸ hs.occurrences id (h.occurrences hid)
  idempotency id hid := h.tasks ▸ hs.idempotency id (h.idempotency hid)
  members := by
    rw [h.members, h.fast, h.used, h.tasks]
    intro m hm
    obtain ⟨hfast, hin, hthere⟩ := hs.members m hm
    exact ⟨hfast, hin, fun hopen => hthere fun hmem => hopen (h.groups hmem)⟩
  parents := by
    rw [h.parents, h.fast, h.used, h.tasks]
    intro e he
    obtain ⟨hfast, hin, hin', hthere⟩ := hs.parents e he
    exact ⟨hfast, hin, hin', fun hlive => hthere (h.live hlive)⟩
  children := by rw [h.parents, h.tasks, h.children]; exact hs.children
  runtime id hid := by
    rw [h.fast, h.used]
    exact hs.runtime id (h.runtime hid)
  settled id hid := by
    rw [h.fast]
    rcases hs.settled id (h.tasks ▸ hid) with hmem | hmem | hmem
    · exact .inl hmem
    · exact .inr (h.settled id hmem)
    · exact .inr (.inr (h.outcomes id hmem))
  used := by rw [h.tasks, h.used]; exact hs.used
  fast := by rw [h.fast, h.used]; exact hs.fast
  fastOutcomes id hid := by
    rw [h.fast]
    exact (h.finished id hid).elim (hs.fastOutcomes id) fun hmem => hmem

theorem TxOk.eases {tx : OpenTx} (htx : s.TxOk tx) (h : s.Eases s') : s'.TxOk tx := by
  cases tx with
  | writing rows keyShare =>
    refine ⟨htx.shared, fun id hid => ?_, fun id hid => ?_, htx.tiers, htx.members, fun parent id hrow => ?_⟩
    · exact (htx.there id hid).imp_right fun hthere => h.tasks ▸ hthere
    · rw [h.used]
      exact htx.fresh id hid
    · rw [h.fast, h.used]
      exact htx.children parent id hrow
  | pruning forUpdate deleted =>
    refine ⟨fun id hid => h.tasks ▸ htx.locked id hid, htx.subset, fun id hid => ?_⟩
    have hcleared := htx.cleared id hid
    refine ⟨h.live_eq_false hcleared.finished, fun e he => hcleared.dependencies e (h.dependencies he), ?_, ?_, ?_⟩
    · rw [h.redrives]
      exact hcleared.redrives
    · rw [h.members]
      exact fun m hm heq => h.groups (hcleared.members m hm heq)
    · rw [h.parents]
      exact fun e he heq => h.live_eq_false (hcleared.children e he heq)

theorem Sound.eases (hs : s.Sound) (h : s.Eases s') : s'.Sound where
  whole := hs.whole.eases h
  ok conn tx htx := (hs.ok conn tx (h.transactions ▸ htx)).eases h
  apart := by rw [h.transactions]; exact hs.apart

theorem Eases.refl (s : RefState) : s.Eases s where
  tasks := rfl
  used := rfl
  fast := rfl
  parents := rfl
  children := rfl
  redrives := rfl
  members := rfl
  transactions := rfl
  dependencies := List.Subset.refl _
  occurrences := List.Subset.refl _
  idempotency := List.Subset.refl _
  runtime := List.Subset.refl _
  groups := List.Subset.refl _
  outcomes _ h := h
  settled _ := .inl
  fastOutcomes := List.Subset.refl _
  finished _ := .inl

theorem eases_finish (s : RefState) (id : TaskId) (outcome : Finish) : s.Eases (s.finish id outcome) := by
  rw [finish]
  split
  · refine { Eases.refl s with runtime := List.filter_subset_self _, outcomes := ?_, settled := ?_ }
    · intro id' h
      simp only [Table.contains, Table.get?_put] at h ⊢
      split
      · rfl
      · exact h
    · intro id' h
      by_cases heq : id' = id
      · right
        simp [Table.contains, heq]
      · left
        exact List.mem_filter.mpr ⟨h, by simpa using heq⟩
  · exact .refl s

theorem eases_finishFast (s : RefState) (id : TaskId) : s.Eases (s.finishFast id) := by
  rw [finishFast]
  split
  · rename_i h
    refine { Eases.refl s with fastOutcomes := List.subset_cons_self _ _, finished := ?_ }
    intro id' hid
    obtain rfl | hid := List.mem_cons.mp hid
    · exact .inr (by simpa using (Bool.and_eq_true_iff.mp h).1)
    · exact .inl hid
  · exact .refl s

theorem eases_finishGroup (s : RefState) (group : Nat) : s.Eases (s.finishGroup group) :=
  { Eases.refl s with groups := List.subset_cons_self _ _ }

theorem eases_release (s : RefState) (keepDependency : TaskId × TaskId → Bool)
    (keepIdempotency keepOccurrence : TaskId → Bool) :
    s.Eases (s.release keepDependency keepIdempotency keepOccurrence) :=
  { Eases.refl s with
    dependencies := List.filter_subset_self _
    occurrences := List.filter_subset_self _
    idempotency := List.filter_subset_self _ }

/-! ## Runs -/

theorem Sound.step (h : s.Sound) (event : RefEvent) : (s.step event).Sound := by
  cases event with
  | insert conn row => exact h.insert conn row
  | lockWindow conn window => exact h.lockWindow conn window
  | pruneLocked conn before limit => exact h.pruneLocked conn before limit
  | pruneFast conn seen => exact h.pruneFast conn seen
  | commit conn => exact h.commit conn
  | abort conn => exact h.erase conn
  | finish id outcome => exact h.eases (eases_finish s id outcome)
  | finishFast id => exact h.eases (eases_finishFast s id)
  | finishGroup group => exact h.eases (eases_finishGroup s group)
  | setHistory events attempts => exact h.eases { Eases.refl s with }
  | release keepDependency keepIdempotency keepOccurrence => exact h.eases (eases_release s _ _ _)

theorem Sound.run (h : s.Sound) (events : List RefEvent) : (s.run events).Sound := by
  induction events generalizing s with
  | nil => exact h
  | cons event events ih => exact ih (h.step event)

end Workhorse.RefState
