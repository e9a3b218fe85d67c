import Workhorse.Registry.Pause

/-!
# Results on the operator pause

The rows of a worker id hold a pause of an instance exactly when the requests that were made say that it stands. Every
request keeps that, so every statement of an interleaving does.
-/

namespace Workhorse

/-! ## The pause that the requests leave standing -/

namespace RegistryEntry

/-- A pause request that found the row of an instance. -/
def pauses (i : Nat) (e : RegistryEntry) : Bool :=
  match e.request with
  | .pause => e.found.row.any (·.instanceId = i)
  | _ => false

/-- A resume, a deregistration of the instance, a registration of another one, or the expiry of the kept pause. -/
def ends (i : Nat) (e : RegistryEntry) : Bool :=
  match e.request with
  | .register j _ later _ => j ≠ i || e.found.kept.any (·.expiresAt ≤ later)
  | .deregisterAny => true
  | .deregister j => j = i
  | .pause => false
  | .resume => true
  | .delete _ => false
  | .expire p => p.expires e.found

/-- The instance, the time and the interval of a registration. -/
def registration (e : RegistryEntry) : Option (Nat × Time × Nat) :=
  match e.request with
  | .register i now _ intervalMs => some (i, now, intervalMs)
  | _ => none

end RegistryEntry

/-- The last pause request that found the row of an instance was not followed by an end. -/
def PauseStands (i : Nat) (history : List RegistryEntry) : Prop :=
  ∃ before e after, history = before ++ e :: after ∧ e.pauses i = true ∧
    ∀ e' ∈ after, e'.pauses i = false ∧ e'.ends i = false

def lastRegistration (history : List RegistryEntry) : Option (Nat × Time × Nat) :=
  history.reverse.findSome? RegistryEntry.registration

/-- A prune kept the pause for a day, or for three intervals of the last registration before it. -/
def KeptBy (history : List RegistryEntry) (t : KeptPause) : Prop :=
  ∃ before p found after now intervalMs, history = before ++ ⟨.delete p, found⟩ :: after ∧
    lastRegistration before = some (t.instanceId, now, intervalMs) ∧
    t.expiresAt = p.now + max (milliseconds 86400000) (milliseconds (intervalMs * 3))

theorem not_pauseStands_nil (i : Nat) : ¬PauseStands i [] := by
  rintro ⟨before, e, after, h, -⟩
  simp at h

theorem pauseStands_snoc {i : Nat} {history : List RegistryEntry} {e : RegistryEntry} :
    PauseStands i (history ++ [e]) ↔ e.pauses i = true ∨ (PauseStands i history ∧ e.ends i = false) := by
  constructor
  · rintro ⟨before, e₀, after, hhistory, hpauses, hafter⟩
    rcases List.eq_nil_or_concat after with rfl | ⟨after, e', rfl⟩
    · obtain rfl := List.singleton_inj.mp (List.append_inj_right' hhistory rfl)
      exact .inl hpauses
    · rw [List.concat_eq_append, ← List.cons_append, ← List.append_assoc] at hhistory
      obtain ⟨rfl, he⟩ := List.append_inj' hhistory rfl
      obtain rfl := List.singleton_inj.mp he
      simp only [List.concat_eq_append, List.forall_mem_append, List.forall_mem_singleton] at hafter
      exact .inr ⟨⟨before, e₀, after, rfl, hpauses, hafter.1⟩, hafter.2.2⟩
  · intro h
    by_cases he : e.pauses i = true
    · exact ⟨history, e, [], rfl, he, fun x hx => absurd hx List.not_mem_nil⟩
    · obtain ⟨⟨before, e₀, after, rfl, hpauses, hafter⟩, hend⟩ := h.resolve_left he
      refine ⟨before, e₀, after ++ [e], by simp, hpauses, ?_⟩
      rw [List.forall_mem_append, List.forall_mem_singleton]
      exact ⟨hafter, Bool.eq_false_iff.mpr he, hend⟩

theorem lastRegistration_snoc (history : List RegistryEntry) (e : RegistryEntry) :
    lastRegistration (history ++ [e]) = e.registration.or (lastRegistration history) := by
  cases h : e.registration <;> simp [lastRegistration, h]

theorem KeptBy.snoc {history : List RegistryEntry} {t : KeptPause} (h : KeptBy history t) (e : RegistryEntry) :
    KeptBy (history ++ [e]) t := by
  obtain ⟨before, p, found, after, now, intervalMs, rfl, hlast, hexpires⟩ := h
  exact ⟨before, p, found, after ++ [e], now, intervalMs, by simp, hlast, hexpires⟩

/-! ## What the rows hold -/

namespace WorkerRows

variable {c : WorkerRows} {i : Nat}

def Holds (c : WorkerRows) (i : Nat) : Prop :=
  (∃ r, c.row = some r ∧ r.instanceId = i ∧ r.paused = true) ∨ ∃ t, c.kept = some t ∧ t.instanceId = i

abbrev Exclusive (c : WorkerRows) : Prop := c.row.isSome = true → c.kept = none

theorem register_row (c : WorkerRows) (i : Nat) (now later : Time) (intervalMs : Nat) :
    (c.register i now later intervalMs).2.kept = none ∧
      ∃ r, (c.register i now later intervalMs).2.row = some r ∧ r.instanceId = i ∧ r.lastHeartbeatAt = now ∧
        r.registryIntervalMs = intervalMs ∧ r.paused = (c.register i now later intervalMs).1 := by
  have hupsert : (c.upsert i now intervalMs).instanceId = i ∧ (c.upsert i now intervalMs).lastHeartbeatAt = now ∧
      (c.upsert i now intervalMs).registryIntervalMs = intervalMs := by
    unfold upsert
    split <;> exact ⟨rfl, rfl, rfl⟩
  obtain ⟨hi, hnow, hinterval⟩ := hupsert
  unfold register
  dsimp only
  split
  · exact ⟨rfl, _, rfl, hi, hnow, hinterval, rfl⟩
  · split
    · exact ⟨rfl, _, rfl, hi, hnow, hinterval, rfl⟩
    · split
      · exact ⟨rfl, _, rfl, hi, hnow, hinterval, rfl⟩
      · exact ⟨rfl, _, rfl, hi, hnow, hinterval, rfl⟩

theorem Exclusive.register_returns (h : c.Exclusive) (i : Nat) (now later : Time) (intervalMs : Nat) :
    (c.register i now later intervalMs).1 = true ↔ c.Holds i ∧ c.kept.any (·.expiresAt ≤ later) = false := by
  cases hrow : c.row with
  | some r =>
    have hkept : c.kept = none := h (by simp [hrow])
    simp [register, upsert, Holds, hrow, hkept]
  | none =>
    cases hkept : c.kept with
    | none => simp [register, upsert, Holds, hrow, hkept]
    | some t =>
      by_cases hexpired : t.expiresAt ≤ later <;> by_cases hi : t.instanceId = i <;>
        simp [register, upsert, Holds, hrow, hkept, hexpired, hi]

theorem Exclusive.register_holds (h : c.Exclusive) (i j : Nat) (now later : Time) (intervalMs : Nat) :
    (c.register i now later intervalMs).2.Holds j ↔
      c.Holds j ∧ i = j ∧ c.kept.any (·.expiresAt ≤ later) = false := by
  obtain ⟨hkept, r, hrow, hinstance, -, -, hpaused⟩ := register_row c i now later intervalMs
  simp only [Holds, hkept, hrow, Option.some.injEq, exists_eq_left', hinstance, hpaused, reduceCtorEq,
    false_and, exists_false, or_false, h.register_returns]
  constructor
  · rintro ⟨rfl, hheld, hlive⟩
    exact ⟨hheld, rfl, hlive⟩
  · rintro ⟨hheld, rfl, hlive⟩
    exact ⟨rfl, hheld, hlive⟩

theorem deregister_holds (c : WorkerRows) (i j : Nat) : (c.deregister i).Holds j ↔ c.Holds j ∧ i ≠ j := by
  simp only [Holds, deregister, Option.filter_eq_some_iff, decide_eq_true_eq]
  constructor
  · rintro (⟨r, ⟨hr, hne⟩, rfl, hp⟩ | ⟨t, ⟨ht, hne⟩, rfl⟩)
    · exact ⟨.inl ⟨r, hr, rfl, hp⟩, Ne.symm hne⟩
    · exact ⟨.inr ⟨t, ht, rfl⟩, Ne.symm hne⟩
  · rintro ⟨⟨r, hr, rfl, hp⟩ | ⟨t, ht, rfl⟩, hne⟩
    · exact .inl ⟨r, ⟨hr, Ne.symm hne⟩, rfl, hp⟩
    · exact .inr ⟨t, ⟨ht, Ne.symm hne⟩, rfl⟩

theorem Exclusive.pause_holds (h : c.Exclusive) (i : Nat) :
    c.pause.Holds i ↔ c.row.any (·.instanceId = i) = true ∨ c.Holds i := by
  cases hrow : c.row with
  | none => simp [Holds, pause, hrow]
  | some r =>
    -- The row is the only place for a pause, and its instance is paused now.
    simp [Holds, pause, hrow, h (by simp [hrow])]
    tauto

theorem Exclusive.delete_holds (h : c.Exclusive) (p : PrunePass) (i : Nat) : (p.delete c).Holds i ↔ c.Holds i := by
  unfold PrunePass.delete
  split
  · rename_i r r' hr hr'
    split
    · cases hp : r'.paused <;> simp [Holds, hr', h (by simp [hr']), hp]
    · rfl
  · rfl

theorem Exclusive.expire_holds (h : c.Exclusive) (p : PrunePass) (i : Nat) :
    (p.expire c).Holds i ↔ c.Holds i ∧ p.expires c = false := by
  unfold PrunePass.expire
  split
  · rename_i hexpires
    -- There is a kept pause, so there is no row.
    have hrow : c.row = none := by
      by_contra hrow
      simp [PrunePass.expires, h (Option.isSome_iff_ne_none.mpr hrow)] at hexpires
    simp [Holds, hrow, hexpires]
  · rename_i hexpires
    simp [hexpires]

theorem Exclusive.apply_holds (h : c.Exclusive) (request : RegistryRequest) (i : Nat) :
    (request.apply c).Holds i ↔ RegistryEntry.pauses i ⟨request, c⟩ = true ∨
      (c.Holds i ∧ RegistryEntry.ends i ⟨request, c⟩ = false) := by
  cases request with
  | register j now later intervalMs =>
    simp [RegistryRequest.apply, h.register_holds, RegistryEntry.pauses, RegistryEntry.ends]
  | deregisterAny =>
    simp [RegistryRequest.apply, deregisterAny, Holds, RegistryEntry.pauses, RegistryEntry.ends]
  | deregister j => simp [RegistryRequest.apply, deregister_holds, RegistryEntry.pauses, RegistryEntry.ends]
  | pause => simp [RegistryRequest.apply, h.pause_holds, RegistryEntry.pauses, RegistryEntry.ends]
  | resume =>
    cases hrow : c.row <;> simp [RegistryRequest.apply, resume, Holds, hrow, RegistryEntry.pauses, RegistryEntry.ends]
  | delete p => simp [RegistryRequest.apply, h.delete_holds, RegistryEntry.pauses, RegistryEntry.ends]
  | expire p => simp [RegistryRequest.apply, h.expire_holds, RegistryEntry.pauses, RegistryEntry.ends]

theorem Exclusive.apply (h : c.Exclusive) (request : RegistryRequest) : (request.apply c).Exclusive := by
  intro hsome
  cases request with
  | register j now later intervalMs => exact (register_row c j now later intervalMs).1
  | deregisterAny => rfl
  | deregister j =>
    obtain ⟨r, hr⟩ := Option.isSome_iff_exists.mp hsome
    have hrow := (Option.filter_eq_some_iff.mp hr).1
    simp [RegistryRequest.apply, deregister, h (by simp [hrow])]
  | pause => exact h (by simpa [RegistryRequest.apply, WorkerRows.pause] using hsome)
  | resume => rfl
  | delete p =>
    simp only [RegistryRequest.apply, PrunePass.delete] at hsome ⊢
    split at hsome
    · split at hsome
      · cases hsome
      · rename_i hnot
        rw [if_neg hnot]
        exact h hsome
    · exact h hsome
  | expire p =>
    simp only [RegistryRequest.apply, PrunePass.expire] at hsome ⊢
    split at hsome
    · rw [if_pos ‹_›]
    · rw [if_neg ‹_›]
      exact h hsome

/-- The row after a request is that of a registration, or the row before it up to the pause. -/
theorem apply_row {request : RegistryRequest} {r : Registration} (h : (request.apply c).row = some r) :
    RegistryEntry.registration ⟨request, c⟩ = some (r.instanceId, r.lastHeartbeatAt, r.registryIntervalMs) ∨
      RegistryEntry.registration ⟨request, c⟩ = none ∧ ∃ r₀, c.row = some r₀ ∧ r₀.instanceId = r.instanceId ∧
        r₀.lastHeartbeatAt = r.lastHeartbeatAt ∧ r₀.registryIntervalMs = r.registryIntervalMs := by
  cases request with
  | register j now later intervalMs =>
    obtain ⟨-, r', hr', rfl, rfl, rfl, -⟩ := register_row c j now later intervalMs
    cases h.symm.trans hr'
    exact .inl rfl
  | deregisterAny => cases h
  | deregister j => exact .inr ⟨rfl, r, (Option.filter_eq_some_iff.mp h).1, rfl, rfl, rfl⟩
  | pause =>
    obtain ⟨r₀, hr₀, rfl⟩ := Option.map_eq_some_iff.mp h
    exact .inr ⟨rfl, r₀, hr₀, rfl, rfl, rfl⟩
  | resume =>
    obtain ⟨r₀, hr₀, rfl⟩ := Option.map_eq_some_iff.mp h
    exact .inr ⟨rfl, r₀, hr₀, rfl, rfl, rfl⟩
  | delete p =>
    refine .inr ⟨rfl, r, ?_, rfl, rfl, rfl⟩
    simp only [RegistryRequest.apply, PrunePass.delete] at h
    split at h
    · split at h
      · cases h
      · exact h
    · exact h
  | expire p =>
    refine .inr ⟨rfl, r, ?_, rfl, rfl, rfl⟩
    simp only [RegistryRequest.apply, PrunePass.expire] at h
    split at h <;> exact h

/-- A kept pause was kept before, or a prune has just kept the pause of the row. -/
theorem apply_kept {request : RegistryRequest} {t : KeptPause} (h : (request.apply c).kept = some t) :
    c.kept = some t ∨ ∃ p r, request = .delete p ∧ c.row = some r ∧ t.instanceId = r.instanceId ∧
      t.expiresAt = p.keptUntil r := by
  cases request with
  | register j now later intervalMs => simp [RegistryRequest.apply, register_row] at h
  | deregisterAny => cases h
  | deregister j => exact .inl (Option.filter_eq_some_iff.mp h).1
  | pause => exact .inl h
  | resume => cases h
  | delete p =>
    simp only [RegistryRequest.apply, PrunePass.delete] at h
    split at h
    · rename_i r r' hr hr'
      split at h
      · dsimp only at h
        split at h
        · cases h
          exact .inr ⟨p, r', rfl, hr', rfl, rfl⟩
        · exact .inl h
      · exact .inl h
    · exact .inl h
  | expire p =>
    simp only [RegistryRequest.apply, PrunePass.expire] at h
    split at h
    · cases h
    · exact .inl h

end WorkerRows

/-- The rows agree with the requests, and every pause that was kept, now or at an earlier request, has its time from
the prune that kept it. -/
structure RegistryView.Correct (v : RegistryView) : Prop where
  exclusive : v.rows.Exclusive
  exact : ∀ i, v.rows.Holds i ↔ PauseStands i v.history
  row : ∀ r, v.rows.row = some r →
    lastRegistration v.history = some (r.instanceId, r.lastHeartbeatAt, r.registryIntervalMs)
  kept : ∀ t, v.rows.kept = some t → KeptBy v.history t
  past : ∀ e ∈ v.history, ∀ t, e.found.kept = some t → KeptBy v.history t

theorem RegistryView.correct_empty : Correct ⟨.empty, []⟩ where
  exclusive := fun _ => rfl
  exact := fun i => by simp [WorkerRows.Holds, WorkerRows.empty, not_pauseStands_nil]
  row := by simp [WorkerRows.empty]
  kept := by simp [WorkerRows.empty]
  past := by simp

theorem RegistryView.Correct.call {v : RegistryView} (h : v.Correct) (request : RegistryRequest) :
    (v.call request).Correct where
  exclusive := h.exclusive.apply request
  exact i := by rw [RegistryView.call, h.exclusive.apply_holds, pauseStands_snoc, h.exact]
  row r hr := by
    rw [RegistryView.call, lastRegistration_snoc]
    rcases WorkerRows.apply_row hr with hnew | ⟨hnone, r₀, hr₀, hi, hnow, hinterval⟩
    · rw [hnew]
      rfl
    · rw [hnone, Option.none_or, h.row r₀ hr₀, hi, hnow, hinterval]
  kept t ht := by
    rcases WorkerRows.apply_kept ht with hold | ⟨p, r, rfl, hr, hi, hexpires⟩
    · exact (h.kept t hold).snoc _
    · exact ⟨v.history, p, v.rows, [], _, _, rfl, hi ▸ h.row r hr, hexpires⟩
  past e he t ht := by
    rcases List.mem_append.mp he with he | he
    · exact (h.past e he t ht).snoc _
    · cases List.mem_singleton.mp he
      exact (h.kept t ht).snoc _

/-! ## Interleavings -/

namespace Registry

variable {σ σ' : Registry}

/-- The invariant of the runs. The transaction with the lock has seen every commit. -/
structure Sound (σ : Registry) : Prop where
  committed : σ.committed.Correct
  holder : ∀ conn v, σ.holder = some (conn, v) → v.Correct ∧ σ.committed.history <+: v.history

theorem initial_sound : initial.Sound where
  committed := RegistryView.correct_empty
  holder := fun _ _ h => by cases h

theorem Sound.view (h : σ.Sound) {conn : Nat} (hlock : σ.mayLock conn = true) :
    (σ.view conn).Correct ∧ σ.committed.history <+: (σ.view conn).history := by
  unfold Registry.view
  split
  · rename_i conn' v hholder
    have hconn : conn' = conn := by simpa [mayLock, hholder] using hlock
    rw [if_pos hconn]
    exact h.holder conn' v hholder
  · exact ⟨h.committed, List.prefix_rfl⟩

theorem Sound.call {conn : Nat} {v : RegistryView} (h : σ.Sound) (hv : v.Correct)
    (hhistory : σ.committed.history <+: v.history) (request : RegistryRequest) :
    Sound { σ with holder := some (conn, v.call request) } where
  committed := h.committed
  holder := fun conn' v' h' => by
    cases h'
    exact ⟨hv.call request, hhistory.trans (List.prefix_append _ _)⟩

theorem Step.sound (hs : Step σ σ') (h : σ.Sound) : σ'.Sound := by
  cases hs with
  | lock conn _ =>
    refine ⟨h.committed, fun conn' v h' => ?_⟩
    cases h'
    exact ⟨h.committed, List.prefix_rfl⟩
  | call request _ hheld =>
    obtain ⟨hv, hhistory⟩ := h.holder _ _ hheld
    exact h.call hv hhistory request
  | prune => exact ⟨h.committed, h.holder⟩
  | delete _ _ hlock =>
    obtain ⟨hv, hhistory⟩ := h.view hlock
    exact h.call hv hhistory _
  | expire _ _ hlock =>
    obtain ⟨hv, hhistory⟩ := h.view hlock
    exact h.call hv hhistory _
  | commit hheld => exact ⟨(h.holder _ _ hheld).1, fun _ _ h' => by cases h'⟩
  | leave => exact ⟨h.committed, h.holder⟩
  | rollback => exact ⟨h.committed, fun _ _ h' => by cases h'⟩

theorem Reaches.sound (h : Reaches σ) : σ.Sound := by
  induction h with
  | initial => exact initial_sound
  | step _ hs ih => exact hs.sound ih

end Registry

/-- In every interleaving a registration or refresh returns paused exactly when, by the requests that were made before
it under the lock, the last pause request that found the row of its instance stands; these extend everything that
was committed. A pause that any of them found kept, and whose expiry may end it, is kept by a prune for a day or for
three intervals. -/
theorem pause_process_scoped {σ : Registry} {conn : Nat} {v : RegistryView} (hreach : Registry.Reaches σ)
    (hheld : σ.holder = some (conn, v)) (i : Nat) (now later : Time) (intervalMs : Nat) :
    σ.committed.history <+: v.history ∧
    ((v.rows.register i now later intervalMs).1 = true ↔
      PauseStands i (v.history ++ [⟨.register i now later intervalMs, v.rows⟩])) ∧
    ∀ e ∈ v.history ++ [⟨.register i now later intervalMs, v.rows⟩], ∀ t, e.found.kept = some t →
      KeptBy v.history t := by
  obtain ⟨hv, hhistory⟩ := hreach.sound.holder conn v hheld
  refine ⟨hhistory, ?_, ?_⟩
  · refine Iff.trans ?_ ((hv.call (.register i now later intervalMs)).exact i)
    simp [hv.exclusive.register_returns, RegistryView.call, RegistryRequest.apply, hv.exclusive.register_holds]
  · rw [List.forall_mem_append, List.forall_mem_singleton]
    exact ⟨hv.past, hv.kept⟩

def pausedWorker : RegistryView := ((RegistryView.mk .empty []).call (.register 7 0 0 1000)).call .pause

def weekLater : PrunePass := ⟨milliseconds 604800000, milliseconds 86400000, pausedWorker.rows⟩

theorem pruned_reaches : Registry.Reaches
    ⟨pausedWorker, some (1, pausedWorker.call (.delete weekLater)), Table.empty.put 1 weekLater⟩ := by
  have hlocked : Registry.Reaches ⟨⟨.empty, []⟩, some (0, ⟨.empty, []⟩), .empty⟩ := .step .initial (.lock 0 rfl)
  have hregistered := Registry.Reaches.step hlocked (.call (.register 7 0 0 1000) rfl rfl)
  have hpaused := Registry.Reaches.step hregistered (.call .pause rfl rfl)
  have hcommitted : Registry.Reaches ⟨pausedWorker, none, .empty⟩ := .step hpaused (.commit rfl)
  have hstarted : Registry.Reaches ⟨pausedWorker, none, Table.empty.put 1 weekLater⟩ :=
    .step hcommitted (.prune _ 1 _ _)
  exact .step hstarted (.delete (p := weekLater) rfl (by decide) rfl)

/-- The prune keeps the pause for the instance, which gets it back within a day. -/
theorem pause_process_scoped_pruned : PauseStands 7 ((pausedWorker.call (.delete weekLater)).history ++
      [⟨.register 7 (milliseconds 608400000) (milliseconds 608400000) 1000, weekLater.delete pausedWorker.rows⟩]) ∧
    ∃ t, (weekLater.delete pausedWorker.rows).kept = some t ∧
      KeptBy (pausedWorker.call (.delete weekLater)).history t := by
  obtain ⟨-, hreturns, hkept⟩ := pause_process_scoped pruned_reaches rfl 7 (milliseconds 608400000)
    (milliseconds 608400000) 1000
  exact ⟨hreturns.mp (by decide), _, rfl, hkept _ (List.mem_append_right _ (List.mem_singleton.mpr rfl)) _ rfl⟩

end Workhorse
