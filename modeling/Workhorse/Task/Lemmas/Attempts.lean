import Workhorse.Task.Lemmas.Runs

/-!
# Attempts

The history of a task has one row for each attempt before the one its row holds, and at most one more
when the task has ended. Every move keeps this. Releases and waits keep the attempt itself.
-/

namespace Workhorse

open Transaction Relation

variable {c c' : Core} {s s' : Session} {id : TaskId}

def Earlier (attempts : Nat → Nat) (current : Nat) : Prop :=
  ∀ n, n ≠ current → attempts n = if 1 ≤ n ∧ n < current then 1 else 0

structure Core.Accounted (c : Core) : Prop where
  live : ∀ id r t, c.runtime.get? id = some r → c.tasks.get? id = some t →
    1 ≤ r.currentAttempt ∧ r.currentAttempt ≤ t.maxAttempts ∧ Earlier (c.attempts id) r.currentAttempt ∧
      c.attempts id r.currentAttempt = 0
  ended : ∀ id o t, c.outcomes.get? id = some o → c.tasks.get? id = some t →
    1 ≤ o.currentAttempt ∧ o.currentAttempt ≤ t.maxAttempts ∧ Earlier (c.attempts id) o.currentAttempt ∧
      c.attempts id o.currentAttempt ≤ 1
  fresh : ∀ id, c.tasks.get? id = none → ∀ n, c.attempts id n = 0

theorem ne_of_absent {ν : Type} {t : Table TaskId ν} {k : TaskId} (h : t.contains id = true)
    (hk : t.get? k = none) : k ≠ id := by
  rintro rfl
  rw [Table.not_contains_iff.mpr hk] at h
  cases h

namespace Core

theorem Accounted.setRuntime (h : c.Accounted) {r r' : Runtime} (hr : c.runtime.get? id = some r)
    (hattempt : r'.currentAttempt = r.currentAttempt) : (c.setRuntime id r').Accounted where
  live k q t hq ht := by
    rcases Table.get?_put_cases hq with ⟨rfl, rfl⟩ | ⟨-, hq⟩
    · rw [hattempt]
      exact h.live k r t hr ht
    · exact h.live k q t hq ht
  ended := h.ended
  fresh := h.fresh

@[simp] theorem record_self (n : Nat) : (c.record id n).attempts id n = c.attempts id n + 1 := by
  simp [record]

theorem record_other {k : TaskId} {m n : Nat} (h : k ≠ id ∨ m ≠ n) : (c.record id n).attempts k m = c.attempts k m := by
  simp only [record]
  rw [if_neg, Nat.add_zero]
  rintro ⟨rfl, rfl⟩
  exact h.elim (· rfl) (· rfl)

theorem earlier_record {k : TaskId} {n current : Nat} (hk : k ≠ id ∨ current = n)
    (h : Earlier (c.attempts k) current) : Earlier ((c.record id n).attempts k) current := by
  intro m hm
  rw [record_other (hk.imp_right fun h => h ▸ hm)]
  exact h m hm

theorem Accounted.retry (h : c.Accounted) {r r' : Runtime} (hr : c.runtime.get? id = some r)
    (hattempt : r'.currentAttempt = r.currentAttempt + 1)
    (hmax : ∀ t, c.tasks.get? id = some t → r.currentAttempt < t.maxAttempts)
    (hnew : c.outcomes.get? id = none) (htask : c.tasks.contains id = true) :
    ((c.setRuntime id r').record id r.currentAttempt).Accounted where
  live k q t hq ht := by
    rcases Table.get?_put_cases hq with ⟨rfl, rfl⟩ | ⟨hne, hq⟩
    · obtain ⟨hone, -, hearlier, hnone⟩ := h.live k r t hr ht
      rw [hattempt]
      refine ⟨by omega, hmax t ht, fun n hn => ?_, ?_⟩
      · by_cases hcur : n = r.currentAttempt
        · subst hcur
          rw [record_self, if_pos ⟨hone, Nat.lt_succ_self _⟩]
          exact congrArg (· + 1) hnone
        · rw [record_other (.inr hcur)]
          refine (hearlier n hcur).trans (if_congr ?_ rfl rfl)
          omega
      · rw [record_other (.inr (Nat.succ_ne_self _))]
        refine (hearlier _ (Nat.succ_ne_self _)).trans (if_neg ?_)
        omega
    · obtain ⟨hone, hmost, hearlier, hnone⟩ := h.live k q t hq ht
      exact ⟨hone, hmost, earlier_record (c := c.setRuntime id r') (.inl hne) hearlier,
        (record_other (c := c.setRuntime id r') (.inl hne)).trans hnone⟩
  ended k o t ho ht := by
    have hne : k ≠ id := (ne_of_absent (Table.contains_of_get? ho) hnew).symm
    obtain ⟨hone, hmost, hearlier, hle⟩ := h.ended k o t ho ht
    exact ⟨hone, hmost, earlier_record (c := c.setRuntime id r') (.inl hne) hearlier,
      (record_other (c := c.setRuntime id r') (.inl hne)).trans_le hle⟩
  fresh k hk n := by
    have hne : k ≠ id := ne_of_absent htask hk
    exact (record_other (c := c.setRuntime id r') (.inl hne)).trans (h.fresh k hk n)

theorem Accounted.fastRecord (h : c.Accounted) (hr : c.runtime.get? id = none)
    (ho : c.outcomes.get? id = none) (htask : c.tasks.contains id = true) (n : Nat) :
    (c.record id n).Accounted where
  live k r t hk ht := by
    have hne : k ≠ id := (ne_of_absent (Table.contains_of_get? hk) hr).symm
    obtain ⟨hone, hmost, hearlier, hnone⟩ := h.live k r t hk ht
    exact ⟨hone, hmost, earlier_record (.inl hne) hearlier, (record_other (.inl hne)).trans hnone⟩
  ended k o t hk ht := by
    have hne : k ≠ id := (ne_of_absent (Table.contains_of_get? hk) ho).symm
    obtain ⟨hone, hmost, hearlier, hle⟩ := h.ended k o t hk ht
    exact ⟨hone, hmost, earlier_record (.inl hne) hearlier, (record_other (.inl hne)).trans_le hle⟩
  fresh k hk m := by
    have hne : k ≠ id := ne_of_absent htask hk
    exact (record_other (.inl hne)).trans (h.fresh k hk m)

theorem note_other {k : TaskId} {n : Nat} {recorded : Bool} (h : k ≠ id) (m : Nat) :
    (c.note id n recorded).attempts k m = c.attempts k m := by
  cases recorded with
  | false => rfl
  | true => exact record_other (.inl h)

theorem Accounted.close (h : c.Accounted) {r : Runtime} (hr : c.runtime.get? id = some r) {o : Outcome}
    (ho : o.currentAttempt = r.currentAttempt) (recorded : Bool) (htask : c.tasks.contains id = true) :
    ((c.note id r.currentAttempt recorded).close id o).Accounted where
  live k q t hq ht := by
    obtain ⟨hne, hq⟩ := Table.get?_erase_eq_some hq
    obtain ⟨hone, hmost, hearlier, hnone⟩ := h.live k q t hq ht
    exact ⟨hone, hmost, fun n hn => (note_other hne n).trans (hearlier n hn), (note_other hne _).trans hnone⟩
  ended k o' t ho' ht := by
    rcases Table.get?_put_cases ho' with ⟨rfl, rfl⟩ | ⟨hne, ho'⟩
    · obtain ⟨hone, hmost, hearlier, hnone⟩ := h.live k r t hr ht
      rw [ho]
      refine ⟨hone, hmost, ?_, ?_⟩
      · cases recorded with
        | false => exact hearlier
        | true => exact earlier_record (.inr rfl) hearlier
      · cases recorded with
        | false => exact hnone.trans_le (Nat.zero_le 1)
        | true =>
          change (c.record k r.currentAttempt).attempts k r.currentAttempt ≤ 1
          rw [record_self, hnone]
    · obtain ⟨hone, hmost, hearlier, hle⟩ := h.ended k o' t ho' ht
      exact ⟨hone, hmost, fun n hn => (note_other hne n).trans (hearlier n hn), (note_other hne _).trans_le hle⟩
  fresh k hk n := by
    have hne : k ≠ id := ne_of_absent htask hk
    exact (note_other hne n).trans (h.fresh k hk n)

theorem Sound.exists_task (hc : c.Sound) (h : 0 < c.places id) : c.tasks.contains id = true := by
  rw [hc.placed id] at h
  cases ht : c.tasks.contains id with
  | true => rfl
  | false => simp [ht] at h

theorem Sound.of_runtime (hc : c.Sound) {r : Runtime} (hr : c.runtime.get? id = some r) :
    c.tasks.contains id = true ∧ c.outcomes.get? id = none := by
  have hcontains := Table.contains_of_get? hr
  refine ⟨hc.exists_task ?_, Table.not_contains_iff.mp (alone (hc.placed id) hcontains).1⟩
  simp only [places, hcontains, Bool.toNat_true]
  omega

theorem Sound.of_fast (hc : c.Sound)
    (h : c.fastRuntime.contains id = true ∨ c.fastOutcomes.contains id = true) :
    c.tasks.contains id = true ∧ c.runtime.get? id = none ∧ c.outcomes.get? id = none := by
  have hplaced := hc.placed id
  have hle := Bool.toNat_le (c.tasks.contains id)
  have hpos : 0 < (c.fastRuntime.contains id).toNat + (c.fastOutcomes.contains id).toNat := by
    rcases h with h | h <;> simp [h]
  refine ⟨hc.exists_task ?_, ?_, ?_⟩
  · unfold places
    omega
  · rw [← Table.not_contains_iff, ← Bool.toNat_eq_zero]
    unfold places at hplaced
    omega
  · rw [← Table.not_contains_iff, ← Bool.toNat_eq_zero]
    unfold places at hplaced
    omega

end Core

theorem Quiet.accounted (h : Quiet c c') (hc : c.Sound) (ha : c.Accounted) : c'.Accounted := by
  cases h with
  | revise hr h => exact ha.setRuntime hr h.attempt
  | claim hr hs worker now expires ht shard =>
    exact Core.Accounted.setRuntime (c := c.draw) ⟨ha.live, ha.ended, ha.fresh⟩ hr rfl
  | retry hr h hmax =>
    obtain ⟨htask, hnone⟩ := hc.of_runtime hr
    exact ha.retry hr h.attempt hmax hnone htask
  | skip | bind | fastRevise | fastClaim | fastClose => exact ⟨ha.live, ha.ended, ha.fresh⟩
  | fastRecord h n =>
    obtain ⟨htask, hr, ho⟩ := hc.of_fast h
    exact ha.fastRecord hr ho htask n

theorem Resolve.accounted (h : Resolve c c') (hc : c.Sound) (ha : c.Accounted) : c'.Accounted := by
  cases h with
  | release hr hs hv hs' hused hattempt => exact ha.setRuntime hr hattempt
  | count hr hs pending rejected =>
    refine ⟨fun k q t hq ht => ?_, ha.ended, ha.fresh⟩
    simp only [Core.setCounters, Table.get?_modify] at hq
    split at hq
    · obtain ⟨q', hq', rfl⟩ := Option.map_eq_some_iff.mp hq
      exact ha.live k q' t hq' ht
    · exact ha.live k q t hq ht
  | close hr ho recorded => exact ha.close hr ho recorded (hc.of_runtime hr).1
  | fastClose | edges => exact ⟨ha.live, ha.ended, ha.fresh⟩
  | fastRecord h n =>
    obtain ⟨htask, hr, ho⟩ := hc.of_fast h
    exact ha.fastRecord hr ho htask n

theorem Write.accounted (h : Write c c') (hc : c.Sound) (ha : c.Accounted) : c'.Accounted := by
  cases h with
  | quiet h => exact h.accounted hc ha
  | resolve h => exact h.accounted hc ha
  | @create id hid t r hr =>
    obtain ⟨-, hnone, -, -⟩ := Core.nowhere (hc.placed id) hid
    have hfresh := ha.fresh id hid
    refine ⟨fun k q u hq hu => ?_, fun k o u ho hu => ?_, fun k hk n => ?_⟩
    · simp only [Core.create, Table.get?_put] at hq hu
      split at hq
      · rename_i heq
        cases hq
        rw [if_pos heq] at hu
        cases hu
        subst heq
        rw [hr.attempt]
        refine ⟨le_rfl, hr.most, fun n hn => (hfresh n).trans (if_neg ?_).symm, hfresh 1⟩
        omega
      · rename_i hne
        rw [if_neg hne] at hu
        exact ha.live k q u hq hu
    · simp only [Core.create, Table.get?_put] at ho hu
      split at hu
      · rename_i heq
        subst heq
        rw [Table.contains_of_get? ho] at hnone
        cases hnone
      · exact ha.ended k o u ho hu
    · simp only [Core.create, Table.get?_put] at hk
      split at hk
      · cases hk
      · exact ha.fresh k hk n
  | @fastCreate id hid t r hr hs =>
    obtain ⟨hrow, hnone, -, -⟩ := Core.nowhere (hc.placed id) hid
    refine ⟨fun k q u hq hu => ?_, fun k o u ho hu => ?_, fun k hk n => ?_⟩
    · simp only [Core.createFast, Table.get?_put] at hq hu
      split at hu
      · rename_i heq
        subst heq
        rw [Table.contains_of_get? hq] at hrow
        cases hrow
      · exact ha.live k q u hq hu
    · simp only [Core.createFast, Table.get?_put] at ho hu
      split at hu
      · rename_i heq
        subst heq
        rw [Table.contains_of_get? ho] at hnone
        cases hnone
      · exact ha.ended k o u ho hu
    · simp only [Core.createFast, Table.get?_put] at hk
      split at hk
      · cases hk
      · exact ha.fresh k hk n
  | delete gone hgone edges =>
    have hsame {k : TaskId} {t : Task} (ht : (c.tasks.filter fun id _ => !gone id).get? k = some t) :
        c.tasks.get? k = some t ∧ gone k = false := by
      simpa [Table.get?_filter, Option.filter_eq_some_iff] using ht
    refine ⟨fun k q t hq ht => ?_, fun k o t ho ht => ?_, fun k hk n => ?_⟩
    · obtain ⟨ht, hk⟩ := hsame ht
      simp only [Table.get?_filter, Option.filter_eq_some_iff] at hq
      simpa [hk] using ha.live k q t hq.1 ht
    · obtain ⟨ht, hk⟩ := hsame ht
      simpa [hk] using ha.ended k o t ho ht
    · cases hg : gone k with
      | true => simp [hg]
      | false =>
        simp only [Table.get?_filter, Option.filter_eq_none_iff] at hk
        simp only [hg, Bool.false_eq_true, if_false]
        refine ha.fresh k (Option.eq_none_iff_forall_ne_some.mpr fun t ht => ?_) n
        simp [hg] at hk
        exact hk t ht

theorem Moves.accounted (h : Moves c c') (hc : c.Sound) (ha : c.Accounted) : c'.Accounted := by
  induction h with
  | refl => exact ha
  | tail hcc h ih =>
    have hsound := hc.moves hcc
    cases h with
    | write h => exact h.accounted hsound ih
    | release hr h hattempt => exact ih.setRuntime hr hattempt

theorem initial_accounted {host : Host} : (initial host).core.Accounted where
  live _ _ _ hr := nomatch hr
  ended _ _ _ ho := nomatch ho
  fresh _ _ _ := rfl

/-! ## Releases and waits -/

def Session.KeepsAttempt (s s' : Session) (id : TaskId) : Prop :=
  ∀ r, s.db.runtime.get? id = some r → (∃ r', s'.db.runtime.get? id = some r' ∧
    r'.currentAttempt = r.currentAttempt) ∧ s'.db.attemptHistory = s.db.attemptHistory

variable {worker name : String} {fence : Nat}

theorem Session.KeepsAttempt.of_setRuntime {r r' : Runtime} (hr : s.db.runtime.get? id = some r)
    (hrow : s'.db.runtime = s.db.runtime.put id r') (hattempt : r'.currentAttempt = r.currentAttempt)
    (hhistory : s'.db.attemptHistory = s.db.attemptHistory) : s.KeepsAttempt s' id := by
  intro q hq
  rw [hr] at hq
  cases hq
  exact ⟨⟨r', by rw [hrow, Table.get?_put, if_pos rfl], hattempt⟩, hhistory⟩

theorem expireOwned_status : Ensures (expireOwned id worker fence) s fun status _ =>
    s.db.fastRuntime.contains id = false → status ≠ .released := by
  simp only [expireOwned, ensures_bind, ensures_database, ensures_ite, ensures_owned]
  refine ⟨fun hfast => ?_, fun _ => ?_⟩
  · intro _ _ _ h
    rw [hfast] at h
    cases h
  · split
    · exact ensures_pure.mpr (by simp)
    · simp only [ensures_ite, ensures_bind, ensures_clockTimestamp, ensures_pure, ensures_perform]
      refine ⟨fun _ => by simp, fun _ => ⟨fun _ => ?_, fun _ => ⟨fun _ => ?_, fun _ => ⟨fun _ => ?_,
        fun _ => by simp⟩⟩⟩⟩
      · exact ⟨fun _ => by simp, fun _ => by simp⟩
      · exact fun _ _ _ => ⟨fun _ => by simp, fun _ => by simp⟩
      · exact ⟨fun _ => by simp, fun _ => by simp⟩

theorem releaseOwned_keeps (hfast : s.db.fastRuntime.contains id = false) :
    Ensures (releaseOwned id worker fence) s fun status s' =>
      status = .released → s.KeepsAttempt s' id := by
  simp only [releaseOwned, ensures_bind, ensures_database, ensures_ite, ensures_owned]
  refine ⟨fun h => ?_, fun _ => ?_⟩
  · rw [hfast] at h
    cases h
  · split
    · exact ensures_pure.mpr (by simp)
    · rename_i r h
      obtain ⟨hr, -⟩ := owned_some h
      simp only [ensures_ite, ensures_bind, ensures_clockTimestamp, ensures_pure, ensures_unexpired,
        ensures_nextReadySequence, ensures_write]
      have hexpire {t : Session} (ht : t.db = s.db) : Ensures (expireOwned id worker fence) t
          fun status s' => status = .released → s.KeepsAttempt s' id :=
        expireOwned_status.mono fun status _ h hreleased => absurd hreleased (h (ht ▸ hfast))
      refine ⟨fun _ => by simp, fun _ => ⟨fun _ => by simp, fun _ => ⟨fun _ => hexpire rfl, fun _ =>
        ⟨fun _ => hexpire rfl, fun _ => ⟨fun _ => by simp, fun _ _ => ?_⟩⟩⟩⟩⟩
      exact .of_setRuntime hr rfl rfl rfl

theorem scheduleWait_keeps {durationMs : Option Nat} {wakeAt : Option Time} :
    Ensures (scheduleWait id worker fence name durationMs wakeAt) s fun reply s' =>
      reply.1 = .scheduled → s.KeepsAttempt s' id := by
  simp only [scheduleWait, ensureName, ensures_bind, ensures_ensure, ensures_owned, ensures_clockTimestamp]
  refine fun _ _ _ => ?_
  split
  · exact ensures_pure.mpr (by simp)
  · rename_i r h
    obtain ⟨hr, -⟩ := boundary_some (s := s) h
    rw [ensures_bind, ensures_database]
    split
    · simp only [ensures_ite, ensures_bind, ensures_pure, ensures_write]
      exact ⟨fun _ => by simp, fun _ => by simp⟩
    · simp only [ensures_ite, ensures_bind, ensures_ensure, ensures_pure, ensures_write,
        ensures_clockTimestamp, ensures_unexpired]
      refine fun _ => ⟨fun _ => by simp, fun _ => ⟨fun _ => by simp, fun _ =>
        ⟨fun _ _ => ?_, fun _ => by simp⟩⟩⟩
      exact .of_setRuntime hr rfl rfl rfl

theorem waitForSignal_keeps {timeoutMs : Option Nat} :
    Ensures (waitForSignal id worker fence name timeoutMs) s fun reply s' =>
      reply.1 = .waiting → s.KeepsAttempt s' id := by
  simp only [waitForSignal, ensureName, ensureTrimmed, ensureWorker, ensures_bind, ensures_ensure, ensures_database]
  refine fun _ _ _ _ => ?_
  split
  · simp only [ensures_ite, ensures_pure]
    exact ⟨fun _ => by simp, fun _ => by simp⟩
  · rw [ensures_bind, ensures_owned, ensures_bind, ensures_clockTimestamp]
    split
    · exact ensures_pure.mpr (by simp)
    · rename_i r h
      obtain ⟨hr, -⟩ := boundary_some (s := s) h
      split
      · simp only [ensures_bind, ensures_write, ensures_pure]
        exact by simp
      · simp only [ensures_ite, ensures_bind, ensures_pure, ensures_write, ensures_database,
          ensures_clockTimestamp, ensures_unexpired]
        refine ⟨fun _ => by simp, fun _ => ⟨fun _ _ => ?_, fun _ => by simp⟩⟩
        exact .of_setRuntime hr rfl rfl rfl

theorem waitForHuman_keeps {context : Jsonb} {timeoutMs : Option Nat} :
    Ensures (waitForHuman id worker fence name context timeoutMs) s fun reply s' =>
      reply.1 = .waiting → s.KeepsAttempt s' id := by
  simp only [waitForHuman, ensureName, ensureTrimmed, ensureWorker, ensures_bind, ensures_ensure, ensures_database]
  refine fun _ _ _ _ _ => ?_
  split
  · simp only [ensures_ite, ensures_pure]
    exact ⟨fun _ => by simp, fun _ => ⟨fun _ => by simp, fun _ => by simp⟩⟩
  · rw [ensures_bind, ensures_owned, ensures_bind, ensures_clockTimestamp]
    split
    · exact ensures_pure.mpr (by simp)
    · rename_i r h
      obtain ⟨hr, -⟩ := boundary_some (s := s) h
      split
      · simp only [ensures_ite, ensures_bind, ensures_write, ensures_pure]
        exact ⟨fun _ => by simp, fun _ => by simp⟩
      · simp only [ensures_ite, ensures_bind, ensures_pure, ensures_write, ensures_database,
          ensures_clockTimestamp, ensures_unexpired]
        refine ⟨fun _ => by simp, fun _ => ⟨fun _ _ => ?_, fun _ => by simp⟩⟩
        exact .of_setRuntime hr rfl rfl rfl

def Exchange.yields (e : Exchange) : Option TaskId :=
  match e.call, e.reply with
  | .releaseOwned id _ _, some (.status .released) => some id
  | .scheduleWait id _ _ _ _ _, some (.wait .scheduled _) => some id
  | .waitForSignal id _ _ _ _, some (.delivery .waiting _) => some id
  | .waitForHuman id _ _ _ _ _, some (.delivery .waiting _) => some id
  | _, _ => none

theorem exec_keepsAttempt {call : Call} (hc : s.core.Sound) : Ensures (exec call) s fun reply s' =>
    ∀ id, Exchange.yields ⟨call, some reply⟩ = some id → s.KeepsAttempt s' id := by
  cases call <;> simp only [exec, ensures_map, ensures_write, Exchange.yields]
  case releaseOwned id worker fence =>
    intro status s' h k hk r hr
    cases status <;> simp at hk
    subst hk
    have hfast := (Core.alone (hc.placed id) (Table.contains_of_get? hr)).2.1
    exact releaseOwned_keeps hfast _ _ h rfl r hr
  case scheduleWait =>
    refine scheduleWait_keeps.mono fun reply s' h k hk => ?_
    obtain ⟨status, wait⟩ := reply
    cases status <;> simp at hk
    exact hk ▸ h rfl
  case waitForSignal =>
    refine waitForSignal_keeps.mono fun reply s' h k hk => ?_
    obtain ⟨status, payload⟩ := reply
    cases status <;> simp at hk
    exact hk ▸ h rfl
  case waitForHuman =>
    refine waitForHuman_keeps.mono fun reply s' h k hk => ?_
    obtain ⟨status, payload⟩ := reply
    cases status <;> simp at hk
    exact hk ▸ h rfl
  case configure => simp
  all_goals exact fun _ _ _ => by simp

end Workhorse
