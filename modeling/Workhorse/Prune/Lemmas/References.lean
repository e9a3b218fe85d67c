import Workhorse.Prune.References

/-!
# References along a run

`Whole` is what holds of the committed rows, `OpenTx.Ok` what holds of an open transaction, and `OpenTx.Apart`
says that two of them do not meet in their locks. A task that a transaction has deleted has no reference left
that protects it, and its lock keeps new ones away until the transaction commits.
-/

namespace Workhorse

variable {tx : OpenTx} {e : TaskId × TaskId} {row : RefRow}

/-! ## Rows -/

section Rows

variable {rows : List RefRow} {id : TaskId}

theorem mem_filterMap_kind {α : Type} (kind : RefRow → Option α) (make : α → RefRow)
    (hkind : ∀ row a, kind row = some a ↔ row = make a) {a : α} : a ∈ rows.filterMap kind ↔ make a ∈ rows := by
  simp only [List.mem_filterMap, hkind, exists_eq_right]

theorem mem_asDependency : e ∈ rows.filterMap RefRow.asDependency ↔ .dependency e.1 e.2 ∈ rows :=
  mem_filterMap_kind RefRow.asDependency (fun e : TaskId × TaskId => .dependency e.1 e.2) fun row _ => by
    cases row <;> simp [RefRow.asDependency, Prod.ext_iff]

theorem mem_asRedrive : e ∈ rows.filterMap RefRow.asRedrive ↔ .redrive e.1 e.2 ∈ rows :=
  mem_filterMap_kind RefRow.asRedrive (fun e : TaskId × TaskId => .redrive e.1 e.2) fun row _ => by
    cases row <;> simp [RefRow.asRedrive, Prod.ext_iff]

theorem mem_asMember {e : TaskId × Nat} : e ∈ rows.filterMap RefRow.asMember ↔ .member e.1 e.2 ∈ rows :=
  mem_filterMap_kind RefRow.asMember (fun e : TaskId × Nat => .member e.1 e.2) fun row _ => by
    cases row <;> simp [RefRow.asMember, Prod.ext_iff]

theorem mem_asOccurrence : id ∈ rows.filterMap RefRow.asOccurrence ↔ .occurrence id ∈ rows :=
  mem_filterMap_kind RefRow.asOccurrence .occurrence fun row _ => by
    cases row <;> simp [RefRow.asOccurrence]

theorem mem_asChild : e ∈ rows.filterMap RefRow.asChild ↔ .child e.1 e.2 ∈ rows :=
  mem_filterMap_kind RefRow.asChild (fun e : TaskId × TaskId => .child e.1 e.2) fun row _ => by
    cases row <;> simp [RefRow.asChild, Prod.ext_iff]

theorem mem_createdTasks {fast : Bool} : id ∈ createdTasks rows fast ↔ ∃ t, .task id t fast ∈ rows := by
  simp only [createdTasks, List.mem_filterMap]
  constructor
  · rintro ⟨row, hrow, h⟩
    cases row <;> simp only [RefRow.asTier, reduceCtorEq] at h
    split at h
    · rename_i hfast
      cases h
      cases hfast
      exact ⟨_, hrow⟩
    · cases h
  · rintro ⟨t, h⟩
    exact ⟨_, h, by simp [RefRow.asTier]⟩

theorem mem_creates : id ∈ tx.creates ↔ ∃ t fast, .task id t fast ∈ tx.rows := by
  simp [OpenTx.creates, mem_createdTasks, exists_or]

theorem contains_foldl_put {es : List (TaskId × Time)} {t : Table TaskId Time} :
    (es.foldl (fun t e => t.put e.1 e.2) t).contains id = true ↔ t.contains id = true ∨ ∃ v, (id, v) ∈ es := by
  induction es generalizing t with
  | nil => simp
  | cons e es ih =>
    obtain ⟨k, v⟩ := e
    rw [List.foldl_cons, ih, Table.contains, Table.get?_put]
    by_cases hk : id = k
    · simp [hk]
    · simp [hk, Table.contains]

end Rows

namespace RefState

variable {s s' : RefState} {conn : Nat} {id : TaskId}

theorem contains_apply {rows : List RefRow} (keyShare : List TaskId) : (s.apply rows).db.tasks.contains id = true ↔
      s.db.tasks.contains id = true ∨ id ∈ (OpenTx.writing rows keyShare).creates := by
  rw [apply, contains_foldl_put, mem_creates]
  refine or_congr_right ⟨?_, ?_⟩
  · rintro ⟨v, h⟩
    obtain ⟨row, hrow, h⟩ := List.mem_filterMap.mp h
    cases row <;> simp only [RefRow.asTask, Option.some.injEq, Prod.mk.injEq, reduceCtorEq] at h
    obtain ⟨rfl, rfl⟩ := h
    exact ⟨_, _, hrow⟩
  · rintro ⟨t, fast, h⟩
    exact ⟨t, List.mem_filterMap.mpr ⟨_, h, rfl⟩⟩

theorem live_iff : s.live id = true ↔
    s.db.tasks.contains id = true ∧ s.db.outcomes.contains id = false ∧ id ∉ s.fastOutcomes := by
  simp [live, and_assoc]

/-! ## The invariant -/

structure Whole (s : RefState) : Prop where
  dependencies : ∀ e ∈ s.db.dependencies, s.db.tasks.contains e.2 = true
  redrives : ∀ r ∈ s.db.redrives, s.db.tasks.contains r.1 = true ∧ s.db.tasks.contains r.2 = true
  occurrences : ∀ id ∈ s.db.occurrences, s.db.tasks.contains id = true
  idempotency : ∀ id ∈ s.db.idempotency, s.db.tasks.contains id = true
  members : ∀ m ∈ s.db.members,
    m.1 ∉ s.fast ∧ m.1 ∈ s.used ∧ (m.2 ∉ s.db.finishedGroups → s.db.tasks.contains m.1 = true)
  parents : ∀ e ∈ s.parents,
    e.1 ∉ s.fast ∧ e.1 ∈ s.used ∧ e.2 ∈ s.used ∧ (s.live e.2 = true → s.db.tasks.contains e.1 = true)
  children : ∀ e ∈ s.parents, s.db.tasks.contains e.1 = true → s.db.tasks.contains e.2 = true → e ∈ s.db.children
  runtime : ∀ id ∈ s.db.runtime, id ∉ s.fast ∧ id ∈ s.used
  settled : ∀ id, s.db.tasks.contains id = true → id ∈ s.fast ∨ id ∈ s.db.runtime ∨ s.db.outcomes.contains id = true
  used : ∀ id, s.db.tasks.contains id = true → id ∈ s.used
  fast : ∀ id ∈ s.fast, id ∈ s.used
  fastOutcomes : ∀ id ∈ s.fastOutcomes, id ∈ s.fast

theorem whole_initial : initial.Whole := by
  constructor <;> intro x h <;> simp [initial, Table.contains] at h

structure Cleared (s : RefState) (deleted : List TaskId) (id : TaskId) : Prop where
  finished : s.live id = false
  dependencies : ∀ e ∈ s.db.dependencies, e.2 = id → e.1 ∈ deleted
  redrives : ∀ r ∈ s.db.redrives, r.1 = id → r.2 ∈ deleted
  members : ∀ m ∈ s.db.members, m.1 = id → m.2 ∈ s.db.finishedGroups
  children : ∀ e ∈ s.parents, e.1 = id → s.live e.2 = false

structure WritingOk (s : RefState) (rows : List RefRow) (keyShare : List TaskId) : Prop where
  shared : ∀ row ∈ rows, ∀ id ∈ row.references, id ∈ keyShare
  there : ∀ id ∈ keyShare, id ∈ (OpenTx.writing rows keyShare).creates ∨ s.db.tasks.contains id = true
  fresh : ∀ id ∈ (OpenTx.writing rows keyShare).creates, id ∉ s.used
  tiers : ∀ id ∈ createdTasks rows false, id ∉ createdTasks rows true
  members : ∀ id group, .member id group ∈ rows → id ∈ createdTasks rows false
  children : ∀ parent id, .child parent id ∈ rows → parent ∉ s.fast ∧ parent ∈ s.used ∧ id ∈ createdTasks rows false

structure PruningOk (s : RefState) (forUpdate deleted : List TaskId) : Prop where
  locked : ∀ id ∈ forUpdate, s.db.tasks.contains id = true
  subset : ∀ id ∈ deleted, id ∈ forUpdate
  cleared : ∀ id ∈ deleted, s.Cleared deleted id

def TxOk (s : RefState) : OpenTx → Prop
  | .writing rows keyShare => s.WritingOk rows keyShare
  | .pruning forUpdate deleted => s.PruningOk forUpdate deleted

end RefState

structure OpenTx.Apart (tx tx' : OpenTx) : Prop where
  forUpdate : ∀ id ∈ tx.forUpdate, id ∉ tx'.forUpdate
  keyShare : ∀ id ∈ tx.forUpdate, id ∉ tx'.keyShare
  creates : ∀ id ∈ tx.creates, id ∉ tx'.creates

namespace RefState

variable {s s' : RefState} {conn : Nat} {id : TaskId}

structure Sound (s : RefState) : Prop where
  whole : s.Whole
  ok : ∀ conn tx, s.transactions.get? conn = some tx → s.TxOk tx
  apart : ∀ conn conn' tx tx', conn ≠ conn' → s.transactions.get? conn = some tx →
    s.transactions.get? conn' = some tx' → tx.Apart tx'

theorem sound_initial : initial.Sound where
  whole := whole_initial
  ok conn tx h := by cases h
  apart conn conn' tx tx' _ h := by cases h

/-! ## Steps of one transaction -/

theorem Whole.transactions (h : s.Whole) (t : Table Nat OpenTx) : Whole { s with transactions := t } :=
  ⟨h.dependencies, h.redrives, h.occurrences, h.idempotency, h.members, h.parents, h.children, h.runtime, h.settled,
    h.used, h.fast, h.fastOutcomes⟩

theorem Cleared.transactions {deleted : List TaskId} (h : s.Cleared deleted id) (t : Table Nat OpenTx) :
    Cleared { s with transactions := t } deleted id := ⟨h.finished, h.dependencies, h.redrives, h.members, h.children⟩

theorem TxOk.transactions (h : s.TxOk tx) (t : Table Nat OpenTx) : TxOk { s with transactions := t } tx := by
  cases tx with
  | writing rows keyShare => exact ⟨h.shared, h.there, h.fresh, h.tiers, h.members, h.children⟩
  | pruning forUpdate deleted => exact ⟨h.locked, h.subset, fun id hid => (h.cleared id hid).transactions t⟩

theorem Sound.put (h : s.Sound) (htx : s.TxOk tx)
    (hapart : ∀ conn' tx', conn' ≠ conn → s.transactions.get? conn' = some tx' → tx.Apart tx' ∧ tx'.Apart tx) :
    Sound { s with transactions := s.transactions.put conn tx } where
  whole := h.whole.transactions _
  ok conn' tx' htx' := by
    rcases Table.get?_put_cases htx' with ⟨-, rfl⟩ | ⟨-, htx'⟩
    · exact htx.transactions _
    · exact (h.ok conn' tx' htx').transactions _
  apart conn₁ conn₂ tx₁ tx₂ hne h₁ h₂ := by
    rw [Table.get?_put] at h₁ h₂
    split at h₁ <;> split at h₂
    · rename_i heq₁ heq₂
      exact absurd (heq₁.trans heq₂.symm) hne
    · rename_i hne₂
      cases h₁
      exact (hapart conn₂ tx₂ hne₂ h₂).1
    · rename_i hne₁ _
      cases h₂
      exact (hapart conn₁ tx₁ hne₁ h₁).2
    · exact h.apart conn₁ conn₂ tx₁ tx₂ hne h₁ h₂

theorem Sound.erase (h : s.Sound) (conn : Nat) : Sound { s with transactions := s.transactions.erase conn } where
  whole := h.whole.transactions _
  ok conn' tx' htx' := by
    obtain ⟨-, htx'⟩ := Table.get?_erase_eq_some htx'
    exact (h.ok conn' tx' htx').transactions _
  apart conn₁ conn₂ tx₁ tx₂ hne h₁ h₂ := by
    rw [Table.get?_erase] at h₁ h₂
    split at h₁
    · cases h₁
    split at h₂
    · cases h₂
    exact h.apart conn₁ conn₂ tx₁ tx₂ hne h₁ h₂

theorem any_eq_false {p : OpenTx → Bool}
    (h : (s.transactions.any fun conn' tx => conn' ≠ conn && p tx) = false) {conn' : Nat}
    (hne : conn' ≠ conn) (htx : s.transactions.get? conn' = some tx) : p tx = false := by
  by_contra hp
  have hany : (s.transactions.any fun conn' tx => conn' ≠ conn && p tx) = true :=
    List.any_eq_true.mpr ⟨(conn', tx), Table.get?_eq_some_iff.mp htx, by simpa [hne] using hp⟩
  rw [h] at hany
  cases hany

theorem not_mem_forUpdate (h : s.lockedForUpdate conn id = false) {conn' : Nat} (hne : conn' ≠ conn)
    (htx : s.transactions.get? conn' = some tx) : id ∉ tx.forUpdate := by
  simpa using any_eq_false (p := fun tx => tx.forUpdate.contains id) h hne htx

theorem not_mem_keyShare (h : s.lockedForKeyShare conn id = false) {conn' : Nat} (hne : conn' ≠ conn)
    (htx : s.transactions.get? conn' = some tx) : id ∉ tx.keyShare := by
  simpa using any_eq_false (p := fun tx => tx.keyShare.contains id) h hne htx

/-! ### Inserts -/

theorem accepts_references (h : s.accepts conn tx row = true) :
    ∀ id ∈ row.references, s.referable conn tx.creates id = true := by
  unfold accepts at h
  exact List.all_eq_true.mp (Bool.and_eq_true_iff.mp h).1

theorem referable_cases {created : List TaskId} (h : s.referable conn created id = true) :
    id ∈ created ∨ (s.db.tasks.contains id = true ∧ s.lockedForUpdate conn id = false) := by
  simpa [referable] using h

theorem creates_append {rows : List RefRow} (keyShare : List TaskId) {keyShare' : List TaskId} :
    id ∈ (OpenTx.writing (rows ++ [row]) keyShare').creates ↔
      id ∈ (OpenTx.writing rows keyShare).creates ∨ ∃ t fast, row = .task id t fast := by
  simp only [mem_creates, OpenTx.rows, List.mem_append, List.mem_singleton, exists_or]
  simp [eq_comm]

theorem createdTasks_append {rows : List RefRow} {fast : Bool} :
    id ∈ createdTasks (rows ++ [row]) fast ↔ id ∈ createdTasks rows fast ∨ ∃ t, row = .task id t fast := by
  simp only [mem_createdTasks, List.mem_append, List.mem_singleton, exists_or]
  simp [eq_comm]

theorem mem_creates_of_mem {rows : List RefRow} (keyShare : List TaskId) {fast : Bool}
    (h : id ∈ createdTasks rows fast) : id ∈ (OpenTx.writing rows keyShare).creates := by
  cases fast with
  | false => exact List.mem_append_left _ h
  | true => exact List.mem_append_right _ h

theorem WritingOk.insert (hwhole : s.Whole) {rows : List RefRow} {keyShare : List TaskId}
    (h : s.WritingOk rows keyShare) (hrow : s.accepts conn (.writing rows keyShare) row = true) :
    s.WritingOk (rows ++ [row]) (keyShare ++ row.references) where
  shared row' hrow' id hid := by
    obtain hrow' | hrow' := List.mem_append.mp hrow'
    · exact List.mem_append_left _ (h.shared row' hrow' id hid)
    · obtain rfl := List.mem_singleton.mp hrow'
      exact List.mem_append_right _ hid
  there id hid := by
    rw [creates_append keyShare]
    obtain hid | hid := List.mem_append.mp hid
    · exact (h.there id hid).imp_left .inl
    · rcases referable_cases (accepts_references hrow id hid) with hcreated | hthere
      · exact .inl (.inl hcreated)
      · exact .inr hthere.1
  fresh id hid := by
    rcases (creates_append keyShare).mp hid with hid | ⟨t, fast, rfl⟩
    · exact h.fresh id hid
    · simp only [accepts, Bool.and_eq_true, Bool.not_eq_true', List.contains_eq_mem, decide_eq_false_iff_not] at hrow
      exact hrow.2.1.1
  tiers id hid hid' := by
    rw [createdTasks_append] at hid hid'
    -- A task that is new to the rows has one tier.
    have hnew {t : Time} {fast fast' : Bool} (hrow' : row = .task id t fast) : id ∉ createdTasks rows fast' := by
      subst hrow'
      simp only [accepts, Bool.and_eq_true, Bool.not_eq_true', List.contains_eq_mem, decide_eq_false_iff_not] at hrow
      exact fun hmem => hrow.2.1.2 (mem_creates_of_mem keyShare hmem)
    rcases hid with hid | ⟨t, ht⟩ <;> rcases hid' with hid' | ⟨t', ht'⟩
    · exact h.tiers id hid hid'
    · exact hnew ht' hid
    · exact hnew ht hid'
    · cases ht.symm.trans ht'
  members id group hmem := by
    rw [createdTasks_append]
    obtain hmem | hmem := List.mem_append.mp hmem
    · exact .inl (h.members id group hmem)
    · obtain rfl := List.mem_singleton.mp hmem
      simp only [accepts, Bool.and_eq_true, List.contains_eq_mem, decide_eq_true_eq] at hrow
      exact .inl hrow.2
  children parent id hmem := by
    rw [createdTasks_append]
    obtain hmem | hmem := List.mem_append.mp hmem
    · obtain ⟨hfast, hused, hid⟩ := h.children parent id hmem
      exact ⟨hfast, hused, .inl hid⟩
    · obtain rfl := List.mem_singleton.mp hmem
      simp only [accepts, Bool.and_eq_true, List.contains_eq_mem, decide_eq_true_eq] at hrow
      obtain ⟨hfast, hused⟩ := hwhole.runtime parent hrow.2.1
      exact ⟨hfast, hused, .inl hrow.2.2⟩

theorem Sound.insert (h : s.Sound) (conn : Nat) (row : RefRow) : (s.insert conn row).Sound := by
  rw [RefState.insert]
  split
  · rename_i rows keyShare htx
    split
    · rename_i hrow
      have hok : s.WritingOk rows keyShare := by
        cases hget : s.transactions.get? conn with
        | none =>
          rw [hget] at htx
          cases htx
          constructor <;> simp [OpenTx.creates, OpenTx.rows, createdTasks]
        | some tx =>
          rw [hget] at htx
          cases htx
          exact h.ok conn _ hget
      have hapart (conn' : Nat) (tx' : OpenTx) (hne : conn' ≠ conn) (hget' : s.transactions.get? conn' = some tx') :
          (∀ id ∈ tx'.forUpdate, id ∉ keyShare) ∧ ∀ id ∈ (OpenTx.writing rows keyShare).creates, id ∉ tx'.creates := by
        cases hget : s.transactions.get? conn with
        | none =>
          rw [hget] at htx
          cases htx
          constructor <;> simp [OpenTx.creates, OpenTx.rows, createdTasks]
        | some tx =>
          rw [hget] at htx
          cases htx
          exact ⟨(h.apart conn' conn _ _ hne hget' hget).keyShare, (h.apart conn conn' _ _ hne.symm hget hget').creates⟩
      refine h.put (hok.insert h.whole hrow) fun conn' tx' hne hget' => ?_
      obtain ⟨hshare, hcreates⟩ := hapart conn' tx' hne hget'
      -- What the transaction creates now is created by no other.
      have hnew : ∀ id ∈ (OpenTx.writing (rows ++ [row]) (keyShare ++ row.references)).creates, id ∉ tx'.creates := by
        intro id hid
        rcases (creates_append keyShare).mp hid with hid | ⟨t, fast, rfl⟩
        · exact hcreates id hid
        · rw [accepts, Bool.and_eq_true, Bool.and_eq_true, Bool.not_eq_true'] at hrow
          simpa using any_eq_false (p := fun tx => tx.creates.contains id) hrow.2.2 hne hget'
      refine ⟨⟨fun id hid => absurd hid List.not_mem_nil, fun id hid => absurd hid List.not_mem_nil, hnew⟩,
        fun id _ => List.not_mem_nil, fun id hid hid' => ?_, fun id hid hid' => hnew id hid' hid⟩
      obtain hid' | hid' := List.mem_append.mp hid'
      · exact hshare id hid hid'
      · rcases referable_cases (accepts_references hrow id hid') with hcreated | ⟨-, hfree⟩
        · -- Another transaction cannot have locked a task that is not there yet.
          have hthere : s.db.tasks.contains id = true := by
            cases tx' with
            | writing _ _ => exact absurd hid List.not_mem_nil
            | pruning forUpdate deleted => exact (h.ok conn' _ hget').locked id hid
          exact hok.fresh id hcreated (h.whole.used id hthere)
        · exact not_mem_forUpdate hfree hne hget' hid
    · exact h
  · exact h

/-! ### Locks and deletes -/

theorem lockable_cases (h : s.lockable conn id = true) :
    s.db.tasks.contains id = true ∧ s.lockedForUpdate conn id = false ∧ s.lockedForKeyShare conn id = false := by
  simpa [lockable, and_assoc] using h

theorem Sound.pruning (h : s.Sound) {forUpdate deleted : List TaskId}
    (htx : (s.transactions.get? conn).getD (.pruning [] []) = .pruning forUpdate deleted) :
    s.PruningOk forUpdate deleted ∧ ∀ conn' tx', conn' ≠ conn → s.transactions.get? conn' = some tx' →
      ∀ id ∈ forUpdate, id ∉ tx'.forUpdate ∧ id ∉ tx'.keyShare := by
  cases hget : s.transactions.get? conn with
  | none =>
    rw [hget] at htx
    cases htx
    exact ⟨⟨by simp, by simp, by simp⟩, by simp⟩
  | some tx =>
    rw [hget] at htx
    cases htx
    refine ⟨h.ok conn _ hget, fun conn' tx' hne hget' id hid => ?_⟩
    have hapart := h.apart conn conn' _ _ hne.symm hget hget'
    exact ⟨hapart.forUpdate id hid, hapart.keyShare id hid⟩

theorem Sound.put_pruning (h : s.Sound) {forUpdate forUpdate' deleted deleted' : List TaskId}
    (htx : (s.transactions.get? conn).getD (.pruning [] []) = .pruning forUpdate deleted)
    (hlocks : ∀ id ∈ forUpdate', id ∈ forUpdate ∨ s.lockable conn id = true)
    (hok : s.PruningOk forUpdate' deleted') :
    Sound { s with transactions := s.transactions.put conn (.pruning forUpdate' deleted') } := by
  refine h.put hok fun conn' tx' hne hget' => ?_
  have hfree : ∀ id ∈ forUpdate', id ∉ tx'.forUpdate ∧ id ∉ tx'.keyShare := by
    intro id hid
    rcases hlocks id hid with hid | hid
    · exact (h.pruning htx).2 conn' tx' hne hget' id hid
    · obtain ⟨-, hupdate, hshare⟩ := lockable_cases hid
      exact ⟨not_mem_forUpdate hupdate hne hget', not_mem_keyShare hshare hne hget'⟩
  refine ⟨⟨fun id hid => (hfree id hid).1, fun id hid => (hfree id hid).2, fun id hid => absurd hid List.not_mem_nil⟩,
    fun id hid hid' => (hfree id hid').1 hid, fun id _ => List.not_mem_nil, fun id _ => List.not_mem_nil⟩

theorem Sound.lockWindow (h : s.Sound) (conn : Nat) (window : List TaskId) : (s.lockWindow conn window).Sound := by
  rw [RefState.lockWindow]
  split
  · exact h
  · rename_i forUpdate deleted htx
    have hok := (h.pruning htx).1
    refine h.put_pruning htx (fun id hid => ?_) ⟨fun id hid => ?_, fun id hid => ?_, hok.cleared⟩
    · exact (List.mem_append.mp hid).imp_right fun hid => (List.mem_filter.mp hid).2
    · obtain hid | hid := List.mem_append.mp hid
      · exact hok.locked id hid
      · exact (lockable_cases (List.mem_filter.mp hid).2).1
    · exact List.mem_append_left _ (hok.subset id hid)

theorem Cleared.mono {deleted deleted' : List TaskId} (h : s.Cleared deleted id) (hsub : deleted ⊆ deleted') :
    s.Cleared deleted' id where
  finished := h.finished
  dependencies e he heq := hsub (h.dependencies e he heq)
  redrives r hr heq := hsub (h.redrives r hr heq)
  members := h.members
  children := h.children

theorem contains_filter_keys {ν : Type} {t : Table TaskId ν} {ids : List TaskId} :
    (t.filter fun id _ => !ids.contains id).contains id = true ↔ t.contains id = true ∧ id ∉ ids := by
  rw [Table.contains, Table.get?_filter, Table.contains]
  cases t.get? id <;> simp [Option.filter]

theorem aged_outcome {db : TerminalDb} {before : Cutoffs} (h : db.aged before id = true) :
    db.tasks.contains id = true ∧ db.outcomes.contains id = true := by
  unfold TerminalDb.aged at h
  cases htask : db.tasks.get? id with
  | none => simp [htask] at h
  | some createdAt =>
    cases hout : db.outcomes.get? id with
    | none => simp [htask, hout] at h
    | some outcome => exact ⟨Table.contains_iff.mpr ⟨_, htask⟩, Table.contains_iff.mpr ⟨_, hout⟩⟩

theorem live_eq_false_of_outcome (h : s.db.outcomes.contains id = true) : s.live id = false := by
  simp [live, h]

/-- The checks of the second statement clear a task. -/
theorem cleared_of_view (hwhole : s.Whole) {deleted : List TaskId} {before : Cutoffs}
    (hcleared : ∀ id ∈ deleted, s.Cleared deleted id) (hthere : s.db.tasks.contains id = true)
    (hwindow : (s.db.delete deleted).inWindow before id = true)
    (hfree : (s.db.delete deleted).unprotected before id = true) : s.Cleared deleted id := by
  simp only [TerminalDb.inWindow, Bool.and_eq_true, Bool.not_eq_true', List.any_eq_false] at hwindow
  obtain ⟨⟨⟨⟨⟨haged, -⟩, -⟩, -⟩, hredrive⟩, hmember⟩ := hwindow
  simp only [TerminalDb.unprotected, Bool.and_eq_true, Bool.not_eq_true', TerminalDb.isPrerequisite,
    TerminalDb.hasLiveChild, List.any_eq_false] at hfree
  obtain ⟨⟨⟨-, -⟩, hdependency⟩, hchild⟩ := hfree
  obtain ⟨htask, hout⟩ := aged_outcome haged
  constructor
  · exact live_eq_false_of_outcome (contains_filter_keys.mp hout).1
  · intro e he heq
    by_contra hne
    exact hdependency e (List.mem_filter.mpr ⟨he, by simpa using hne⟩) (by simpa using heq)
  · intro r hr heq
    by_contra hne
    exact hredrive r (List.mem_filter.mpr ⟨hr, by simpa using hne⟩) (by simpa using heq)
  · intro m hm heq
    have := hmember m hm
    simpa [heq, TerminalDb.delete] using this
  · rintro ⟨parent, child⟩ he rfl
    by_contra hlive
    rw [Bool.not_eq_false] at hlive
    obtain ⟨hchildThere, hnone, -⟩ := live_iff.mp hlive
    -- A child that this transaction has deleted before had finished.
    have hkept : child ∉ deleted := fun hmem => by
      rw [(hcleared child hmem).finished] at hlive
      cases hlive
    have hedge := hwhole.children _ he hthere hchildThere
    have hview := hchild (parent, child) (List.mem_filter.mpr ⟨hedge, by
      simpa [hkept] using (contains_filter_keys.mp htask).2⟩)
    have hagedChild : (s.db.delete deleted).aged before child = true := by
      have hcontains : (s.db.delete deleted).tasks.contains child = true :=
        contains_filter_keys.mpr ⟨hchildThere, hkept⟩
      simpa [hcontains] using hview
    have houtcome := (contains_filter_keys.mp (aged_outcome hagedChild).2).1
    rw [hnone] at houtcome
    cases houtcome

theorem Sound.pruneLocked (h : s.Sound) (conn : Nat) (before : Cutoffs) (limit : Nat) :
    (s.pruneLocked conn before limit).Sound := by
  rw [RefState.pruneLocked]
  split
  · rename_i forUpdate deleted hget
    have htx : (s.transactions.get? conn).getD (.pruning [] []) = .pruning forUpdate deleted := by rw [hget]; rfl
    have hok := (h.pruning htx).1
    refine h.put_pruning htx (fun id hid => .inl hid) ⟨hok.locked, fun id hid => ?_, fun id hid => ?_⟩
    all_goals
      obtain hid | hid := List.mem_append.mp hid
    · exact hok.subset id hid
    · have hmem := (List.mem_insertionSort _).mp (List.mem_of_mem_take hid)
      exact (List.mem_filter.mp hmem).1
    · exact (hok.cleared id hid).mono (List.subset_append_left _ _)
    · have hmem := (List.mem_insertionSort _).mp (List.mem_of_mem_take hid)
      obtain ⟨hlocked, hchecks⟩ := List.mem_filter.mp hmem
      obtain ⟨hwindow, hfree⟩ := Bool.and_eq_true_iff.mp hchecks
      exact (cleared_of_view h.whole hok.cleared (hok.locked id hlocked) hwindow hfree).mono
        (List.subset_append_left _ _)
  · exact h

theorem Sound.pruneFast (h : s.Sound) (conn : Nat) (seen : TaskId → Bool) : (s.pruneFast conn seen).Sound := by
  rw [RefState.pruneFast]
  split
  · exact h
  rename_i forUpdate deleted htx
  dsimp only
  split
  · exact h.erase conn
  rename_i hallowed
  have hok := (h.pruning htx).1
  refine h.put_pruning htx (fun id hid => ?_) ⟨fun id hid => ?_, fun id hid => ?_, fun id hid => ?_⟩
  · refine (List.mem_append.mp hid).imp_right fun hid => ?_
    exact (Bool.and_eq_true_iff.mp (List.mem_filter.mp hid).2).2
  · obtain hid | hid := List.mem_append.mp hid
    · exact hok.locked id hid
    · exact (lockable_cases (Bool.and_eq_true_iff.mp (List.mem_filter.mp hid).2).2).1
  · exact (List.mem_append.mp hid).elim (fun hid => List.mem_append_left _ (hok.subset id hid))
      fun hid => List.mem_append_right _ hid
  · obtain hid | hid := List.mem_append.mp hid
    · exact (hok.cleared id hid).mono (List.subset_append_left _ _)
    -- A fast task has no member row and no child, and the foreign keys let it go.
    have hout := (List.mem_filter.mp hid).1
    have hfast := h.whole.fastOutcomes id hout
    have hkeys := List.any_eq_false.mp (Bool.eq_false_of_not_eq_true hallowed) id hid
    simp only [Bool.or_eq_true, not_or, TerminalDb.isPrerequisite, Bool.not_eq_true, List.any_eq_false] at hkeys
    constructor
    · simp [live, hout]
    · intro e he heq
      by_contra hne
      refine absurd heq (decide_eq_false_iff_not.mp (hkeys.1 e (List.mem_filter.mpr ⟨he, ?_⟩)))
      simpa only [Bool.not_eq_true', List.contains_eq_mem, decide_eq_false_iff_not] using hne
    · intro r hr heq
      by_contra hne
      refine absurd heq (decide_eq_false_iff_not.mp (hkeys.2 r (List.mem_filter.mpr ⟨hr, ?_⟩)))
      simpa only [Bool.not_eq_true', List.contains_eq_mem, decide_eq_false_iff_not] using hne
    · intro m hm heq
      exact absurd (heq ▸ hfast) (h.whole.members m hm).1
    · intro e he heq
      exact absurd (heq ▸ hfast) (h.whole.parents e he).1

end RefState

end Workhorse
