import Workhorse.Tier.Switch

/-!
# The tier locks keep placement and tier together

Every open transaction sees a placement that agrees with the tiers, and holds the lock of every queue
that it has written for. A commit changes the rows under the other transactions, but not the tier of a
queue that one of them has a lock on.
-/

namespace Workhorse

variable {c : Placement} {w : TierWrites} {id : TaskId} {queue : String}

theorem Table.contains_overlay {κ ν : Type} [DecidableEq κ] (t u : Table κ ν) (k : κ) :
    (t.overlay u).contains k = (u.contains k || t.contains k) := by
  simp only [Table.contains, Table.get?_overlay, Option.isSome_or]

namespace Placement

theorem contains_tasks_withWrites : (c.withWrites w).tasks.contains id = (w.creates id || c.tasks.contains id) := by
  simp only [withWrites, Table.contains_overlay, TierWrites.creates]
  cases w.runtime.contains id <;> cases w.fastRuntime.contains id <;> rfl

theorem isFast_withWrites : (c.withWrites w).isFast id = (w.fastRuntime.contains id || c.isFast id) := by
  simp only [withWrites, isFast, Table.contains_overlay, Bool.or_assoc]

theorem Agrees.of_tiers (full : ∀ id queue, c.runtime.get? id = some queue → c.tiers queue = .full)
    (fast : ∀ id queue, c.fastRuntime.get? id = some queue → c.tiers queue = .fast)
    (policies : ∀ kind queue, c.tiers queue = .fast → c.policies kind queue = none)
    (prerequisites : ∀ e ∈ c.dependencies, c.isFast e.2 = false)
    (children : ∀ e ∈ c.children, c.isFast e.2 = false) : c.Agrees := by
  refine ⟨fun queue id id' hid hid' => ?_, full, fast, policies, prerequisites, children⟩
  have h := (full id queue hid).symm.trans (fast id' queue hid')
  cases h

structure Known (c : Placement) : Prop where
  prerequisites : ∀ e ∈ c.dependencies, c.tasks.contains e.2 = true
  children : ∀ e ∈ c.children, c.tasks.contains e.2 = true
  fast : ∀ id, c.isFast id = true → c.tasks.contains id = true

end Placement

structure TierTx.Sound (c : Placement) (t : TierTx) : Prop where
  readCommitted : t.snapshot = none
  agrees : (c.withWrites t.writes).Agrees
  known : (c.withWrites t.writes).Known
  switched : ∀ queue tier, t.writes.tiers queue = some tier → queue ∈ t.exclusive
  placed : ∀ id queue, t.writes.runtime.get? id = some queue → t.holds queue = true
  fastPlaced : ∀ id queue, t.writes.fastRuntime.get? id = some queue → t.holds queue = true
  synced : ∀ kind queue ns, t.writes.policies kind queue = some (some ns) → t.holds queue = true
  /-- The tiers that the call at hand has read are still those of its queues. -/
  call : ∀ queues fast, t.call = some (queues, fast) → ∀ q ∈ queues, t.holds q = true ∧
    (q ∈ fast ↔ (c.withWrites t.writes).tiers q = .fast)
  fresh : ∀ id, t.writes.creates id = true → c.tasks.contains id = false

/-- No lock that a transaction has alone is held by the other, and they create different tasks. -/
structure TierTx.Separate (t u : TierTx) : Prop where
  locks : ∀ queue ∈ t.exclusive, u.holds queue = false
  ids : ∀ id, t.writes.creates id = true → u.writes.creates id = false

namespace TierTx

variable {t u : TierTx}

theorem Separate.untouched (h : t.Separate u) (ht : t.Sound c) (hu : u.Sound c) {tier : Tier}
    (hq : t.writes.tiers queue = some tier) :
    u.writes.tiers queue = none ∧ (∀ id, u.writes.runtime.get? id ≠ some queue) ∧
      (∀ id, u.writes.fastRuntime.get? id ≠ some queue) ∧ ∀ kind ns, u.writes.policies kind queue ≠ some (some ns) := by
  have hno := h.locks queue (ht.switched queue tier hq)
  refine ⟨?_, fun id hid => ?_, fun id hid => ?_, fun kind ns hk => ?_⟩
  · cases hu' : u.writes.tiers queue with
    | none => rfl
    | some tier' =>
      have hmem := hu.switched queue tier' hu'
      simp [holds, hmem] at hno
  · rw [hu.placed id queue hid] at hno
    cases hno
  · rw [hu.fastPlaced id queue hid] at hno
    cases hno
  · rw [hu.synced kind queue ns hk] at hno
    cases hno

theorem Separate.tiers_commit (h : t.Separate u) (ht : t.Sound c) (hq : u.holds queue = true) :
    (c.withWrites t.writes).tiers queue = c.tiers queue := by
  cases htier : t.writes.tiers queue with
  | none => simp [Placement.withWrites, htier]
  | some tier =>
    rw [h.locks queue (ht.switched queue tier htier)] at hq
    cases hq

theorem Separate.tiers_rebase (h : t.Separate u) (ht : t.Sound c) (hq : u.holds queue = true) :
    ((c.withWrites t.writes).withWrites u.writes).tiers queue = (c.withWrites u.writes).tiers queue := by
  change (u.writes.tiers queue).getD _ = (u.writes.tiers queue).getD _
  rw [h.tiers_commit ht hq]

theorem tiers_of_not_switched (hq : u.writes.tiers queue = none) :
    (c.withWrites u.writes).tiers queue = c.tiers queue := by
  simp [Placement.withWrites, hq]

section Rebase

variable (h : t.Separate u) (h' : u.Separate t) (ht : t.Sound c) (hu : u.Sound c)
include h h' ht hu

/-- One of the two tables of live tasks: where each transaction sees its rows in queues of one tier, both
together do. -/
theorem rows_rebase {tier : Tier} {rows rowsₜ rowsᵤ : Table TaskId String}
    (heldₜ : ∀ id queue, rowsₜ.get? id = some queue → t.holds queue = true)
    (heldᵤ : ∀ id queue, rowsᵤ.get? id = some queue → u.holds queue = true)
    (hrowsₜ : ∀ id queue, (rows.overlay rowsₜ).get? id = some queue → (c.withWrites t.writes).tiers queue = tier)
    (hrowsᵤ : ∀ id queue, (rows.overlay rowsᵤ).get? id = some queue → (c.withWrites u.writes).tiers queue = tier)
    (hid : ((rows.overlay rowsₜ).overlay rowsᵤ).get? id = some queue) :
    ((c.withWrites t.writes).withWrites u.writes).tiers queue = tier := by
  rw [Table.get?_overlay, Option.or_eq_some_iff] at hid
  rcases hid with hid | ⟨hnone, hid⟩
  · rw [h.tiers_rebase ht (heldᵤ id queue hid)]
    exact hrowsᵤ id queue (by simp [hid])
  · cases htier : u.writes.tiers queue with
    | none =>
      rw [tiers_of_not_switched htier]
      exact hrowsₜ id queue hid
    | some tier' =>
      -- The row is a committed one, for the other transaction holds no lock of the queue.
      have hno := h'.locks queue (hu.switched queue tier' htier)
      rw [Table.get?_overlay, Option.or_eq_some_iff] at hid
      rcases hid with hid | ⟨-, hid⟩
      · rw [heldₜ id queue hid] at hno
        cases hno
      · have hsees := hrowsᵤ id queue (by simp [hnone, hid])
        simpa [Placement.withWrites, htier] using hsees

theorem policies_rebase {kind : PolicyKind}
    (hfast : ((c.withWrites t.writes).withWrites u.writes).tiers queue = .fast) :
    ((c.withWrites t.writes).withWrites u.writes).policies kind queue = none := by
  have hpolicyₜ := ht.agrees.policies kind queue
  have hpolicyᵤ := hu.agrees.policies kind queue
  cases htier : u.writes.tiers queue with
  | none =>
    rw [tiers_of_not_switched htier] at hfast hpolicyᵤ
    cases hpol : u.writes.policies kind queue with
    | none => simpa [Placement.withWrites, hpol] using hpolicyₜ hfast
    | some written =>
      cases written with
      | none => simp [Placement.withWrites, hpol]
      | some ns =>
        rw [h.tiers_commit ht (hu.synced kind queue ns hpol)] at hfast
        simpa [Placement.withWrites, hpol] using hpolicyᵤ hfast
  | some tier =>
    obtain ⟨-, -, -, hunsynced⟩ := h'.untouched hu ht htier
    have hsees : (c.withWrites u.writes).policies kind queue = none := by
      refine hpolicyᵤ ?_
      simpa [Placement.withWrites, htier] using hfast
    cases hpol : u.writes.policies kind queue with
    | some written => simpa [Placement.withWrites, hpol] using hsees
    | none =>
      cases hpolₜ : t.writes.policies kind queue with
      | none => simpa [Placement.withWrites, hpol, hpolₜ] using hsees
      | some written =>
        cases written with
        | none => simp [Placement.withWrites, hpol, hpolₜ]
        | some ns => exact absurd hpolₜ (hunsynced kind ns)

theorem edges_rebase {p : TaskId} (hp : (c.withWrites t.writes).tasks.contains p = true ∧
      (c.withWrites t.writes).isFast p = false ∨
      (c.withWrites u.writes).tasks.contains p = true ∧ (c.withWrites u.writes).isFast p = false) :
    ((c.withWrites t.writes).withWrites u.writes).isFast p = false := by
  simp only [Placement.contains_tasks_withWrites, Placement.isFast_withWrites, Bool.or_eq_true,
    Bool.or_eq_false_iff] at hp ⊢
  have hcreates {x : TierTx} (hx : x.writes.fastRuntime.contains p = true) : x.writes.creates p = true := by
    simp [TierWrites.creates, hx]
  rcases hp with ⟨hknown, hslow⟩ | ⟨hknown, hslow⟩
  · refine ⟨?_, hslow⟩
    by_contra hfast
    have hc := hcreates (Bool.not_eq_false _ ▸ hfast)
    rcases hknown with hknown | hknown
    · rw [h'.ids p hc] at hknown
      cases hknown
    · rw [hu.fresh p hc] at hknown
      cases hknown
  · refine ⟨hslow.1, ?_, hslow.2⟩
    by_contra hfast
    have hc := hcreates (Bool.not_eq_false _ ▸ hfast)
    rcases hknown with hknown | hknown
    · rw [h.ids p hc] at hknown
      cases hknown
    · rw [ht.fresh p hc] at hknown
      cases hknown

theorem agrees_rebase : ((c.withWrites t.writes).withWrites u.writes).Agrees := by
  refine .of_tiers (fun id queue hid => ?_) (fun id queue hid => ?_)
    (fun kind queue hfast => policies_rebase h h' ht hu hfast) (fun e he => ?_) fun e he => ?_
  · exact rows_rebase h h' ht hu ht.placed hu.placed ht.agrees.full hu.agrees.full hid
  · exact rows_rebase h h' ht hu ht.fastPlaced hu.fastPlaced ht.agrees.fast hu.agrees.fast hid
  · refine edges_rebase h h' ht hu ?_
    rcases List.mem_append.mp he with he | he
    · have he' : e ∈ (c.withWrites u.writes).dependencies := List.mem_append_left _ he
      exact .inr ⟨hu.known.prerequisites e he', hu.agrees.prerequisites e he'⟩
    · exact .inl ⟨ht.known.prerequisites e he, ht.agrees.prerequisites e he⟩
  · refine edges_rebase h h' ht hu ?_
    rcases List.mem_append.mp he with he | he
    · have he' : e ∈ (c.withWrites u.writes).children := List.mem_append_left _ he
      exact .inr ⟨hu.known.children e he', hu.agrees.children e he'⟩
    · exact .inl ⟨ht.known.children e he, ht.agrees.children e he⟩

omit h h' in
theorem known_rebase : ((c.withWrites t.writes).withWrites u.writes).Known := by
  have hmono {p : TaskId} (hp : (c.withWrites u.writes).tasks.contains p = true ∨
      (c.withWrites t.writes).tasks.contains p = true) :
      ((c.withWrites t.writes).withWrites u.writes).tasks.contains p = true := by
    simp only [Placement.contains_tasks_withWrites, Bool.or_eq_true] at hp ⊢
    tauto
  refine ⟨?_, ?_, fun id hid => ?_⟩
  · intro e he
    rcases List.mem_append.mp he with he | he
    · exact hmono (.inl (hu.known.prerequisites e (List.mem_append_left _ he)))
    · exact hmono (.inr (ht.known.prerequisites e he))
  · intro e he
    rcases List.mem_append.mp he with he | he
    · exact hmono (.inl (hu.known.children e (List.mem_append_left _ he)))
    · exact hmono (.inr (ht.known.children e he))
  · rw [Placement.isFast_withWrites, Bool.or_eq_true] at hid
    rcases hid with hid | hid
    · refine hmono (.inl (hu.known.fast id ?_))
      rw [Placement.isFast_withWrites, hid, Bool.true_or]
    · exact hmono (.inr (ht.known.fast id hid))

/-- A transaction stays sound when another one commits. -/
theorem Sound.rebase : u.Sound (c.withWrites t.writes) where
  readCommitted := hu.readCommitted
  agrees := agrees_rebase h h' ht hu
  known := known_rebase ht hu
  switched := hu.switched
  placed := hu.placed
  fastPlaced := hu.fastPlaced
  synced := hu.synced
  call queues fast hcall q hq := by
    obtain ⟨hheld, hiff⟩ := hu.call queues fast hcall q hq
    exact ⟨hheld, by rw [h.tiers_rebase ht hheld]; exact hiff⟩
  fresh id hid := by
    rw [Placement.contains_tasks_withWrites, hu.fresh id hid, h'.ids id hid]
    rfl

end Rebase

end TierTx

end Workhorse
