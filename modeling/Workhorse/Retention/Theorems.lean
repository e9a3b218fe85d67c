import Workhorse.Retention.History
import Workhorse.Stats.Watermark

/-!
# Results on the retention of history

A rollup pass starts behind the watermark by the recompute depth. While retention stays below that depth,
and keeps the enqueue events of the claims above it, a pass finds every raw row of the minutes that it
writes.
-/

namespace Workhorse

open Table

variable {index : Time → Int} {pass : RollupPass} {s : StatState}

/-! ## Buckets of the rows that are there -/

theorem get?_groupSum_of_filter {α : Type} [AddCommMonoid α] {rows rows' : List (BucketKey × α)} {k : BucketKey}
    (h : rows.filter (fun e => e.1 = k) = rows'.filter fun e => e.1 = k) :
    (groupSum id rows).get? k = (groupSum id rows').get? k := by
  refine get?_groupSum_congr (fun e he => ?_) ?_
  · have hmem (l : List (BucketKey × α)) : e ∈ l ↔ e ∈ l.filter fun e => e.1 = k := by
      simp [show e.1 = k from he]
    rw [hmem rows, hmem rows', h]
  · unfold total
    exact congrArg (fun l => (l.map Prod.snd).sum) h

def Joined (recorded : List RecordedRow) (r : RawRow) : Prop :=
  ∀ task, r.fact = .claimed task → ∀ e ∈ recorded, e.row.fact = .enqueued task → e.present = true

theorem samples_of_joined {h : History} {r : RawRow} (hr : Joined h.recorded r) :
    r.samples index h.rows = r.samples index h.ever := by
  unfold RawRow.samples
  split
  · rfl
  · rename_i task hfact
    congr 1
    unfold History.rows History.ever
    rw [List.filter_map, List.filter_map, List.filter_filter]
    congr 1
    refine List.filter_congr fun e he => ?_
    by_cases hmatch : e.row.fact = .enqueued task
    · simp [hr task hfact e he hmatch]
    · simp [hmatch]
  · rfl
  · rfl

theorem get?_rawBuckets {h : History} {horizon : Time}
    (hpresent : ∀ e ∈ h.recorded, horizon ≤ e.row.occurredAt → e.present = true)
    (hjoined : ∀ e ∈ h.recorded, horizon ≤ e.row.occurredAt → Joined h.recorded e.row) {k : BucketKey}
    (hk : horizon ≤ k.bucketStart) :
    (rawBuckets index h.rows).get? k = (rawBuckets index h.ever).get? k := by
  refine get?_groupSum_of_filter ?_
  -- A row that counts for the bucket is not before it.
  have hafter {e : RecordedRow} (he : e.row.key = k) : horizon ≤ e.row.occurredAt := by
    have hle : dateBin oneMinute e.row.occurredAt ≤ e.row.occurredAt := dateBin_le oneMinute_pos
    rw [← he] at hk
    exact le_trans hk hle
  have hentries (rows : List RawRow) (r : RawRow) :
      (r.entries index rows).filter (fun e => e.1 = k) = if r.key = k then r.entries index rows else [] := by
    unfold RawRow.entries
    rw [List.filter_map]
    split
    · rename_i hkey
      simp [Function.comp_def, hkey]
    · rename_i hkey
      simp [Function.comp_def, hkey]
  simp only [List.filter_flatMap, hentries]
  have hlists : ∀ l ⊆ h.recorded, ((l.filter RecordedRow.present).map RecordedRow.row).flatMap
        (fun r => if r.key = k then r.entries index h.rows else []) =
      (l.map RecordedRow.row).flatMap fun r => if r.key = k then r.entries index h.ever else [] := by
    intro l hl
    induction l with
    | nil => rfl
    | cons e l ih =>
      have ih := ih fun x hx => hl (List.mem_cons_of_mem e hx)
      have he : e ∈ h.recorded := hl List.mem_cons_self
      by_cases hkey : e.row.key = k
      · have hsame : e.row.entries index h.rows = e.row.entries index h.ever := by
          unfold RawRow.entries
          rw [samples_of_joined (hjoined e he (hafter hkey))]
        simp [hpresent e he (hafter hkey), hkey, hsame, ih]
      · cases hp : e.present <;> simp [hp, hkey, ih]
  exact hlists h.recorded (List.Subset.refl _)

/-! ## The condition on the steps -/

/-- The time that is `depth` minutes below the watermark. -/
def History.floor (h : History) (depth : Nat) : Time := h.stats.rolledUpThrough - depth * oneMinute

def HistoryEvent.Meets (depth : Nat) (h : History) : HistoryEvent → Prop
  -- A first claim is recorded while the enqueue events of its task are there.
  | .record r => Joined h.recorded r
  -- A rollup pass recomputes at most `depth` buckets, has room for them, and its clock is not behind.
  | .rollUp pass => pass.policy.recomputeBuckets ≤ depth ∧ pass.policy.recomputeBuckets ≤ pass.maxBuckets ∧
      h.stats.rolledUpThrough ≤ pass.closed
  -- A retention pass retains what is less than `depth` minutes below the watermark, and the enqueue events
  -- of the claims there.
  | .retain pass reaches =>
      (∀ days, pass.eventDays = some days ∨ pass.attemptDays = some days → pass.daysAgo days ≤ h.floor depth) ∧
      ∀ e ∈ h.recorded, (reaches e.row && pass.mayDrop h.stats e.row) = true → ∀ task, e.row.fact = .enqueued task →
        ∀ c ∈ h.recorded, c.row.fact = .claimed task → c.row.occurredAt < h.floor depth

def MeetsAll (index : Time → Int) (depth : Nat) : History → List HistoryEvent → Prop
  | _, [] => True
  | h, e :: events => e.Meets depth h ∧ MeetsAll index depth (h.step index e) events

/-! ## The invariant -/

structure History.Kept (index : Time → Int) (depth : Nat) (h : History) : Prop where
  present : ∀ e ∈ h.recorded, h.floor depth ≤ e.row.occurredAt → e.present = true
  joined : ∀ e ∈ h.recorded, h.floor depth ≤ e.row.occurredAt → Joined h.recorded e.row
  counted : ∀ m, h.counted m <+: h.ever
  stored : ∀ k v, h.stats.minute.get? k = some v → (rawBuckets index (h.counted k.bucketStart)).get? k = some v

namespace History

variable {depth : Nat} {h : History}

theorem installed_kept (index : Time → Int) (depth : Nat) (now : Time) : (installed now).Kept index depth where
  present := fun e he => absurd he List.not_mem_nil
  joined := fun e he => absurd he List.not_mem_nil
  counted := fun _ => List.prefix_rfl
  stored := fun _ _ hv => by cases hv

theorem Kept.record (hh : h.Kept index depth) {r : RawRow} (hr : Joined h.recorded r) :
    (h.step index (.record r)).Kept index depth := by
  have hnew {r' : RawRow} (hr' : Joined h.recorded r') : Joined (h.recorded ++ [⟨r, true⟩]) r' := by
    intro task hfact e he hmatch
    rcases List.mem_append.mp he with he | he
    · exact hr' task hfact e he hmatch
    · rw [List.mem_singleton.mp he]
  refine ⟨fun e he hfloor => ?_, fun e he hfloor => ?_, fun m => ?_, hh.stored⟩
  · rcases List.mem_append.mp he with he | he
    · exact hh.present e he hfloor
    · rw [List.mem_singleton.mp he]
  · rcases List.mem_append.mp he with he | he
    · exact hnew (hh.joined e he hfloor)
    · rw [List.mem_singleton.mp he]
      exact hnew hr
  · refine (hh.counted m).trans ?_
    simp [ever, step]

end History

theorem HistoryPass.cutoff_le {p : HistoryPass} {fact : RawFact} {before : Time} (h : p.cutoff s fact = some before) :
    ∃ days, (p.eventDays = some days ∨ p.attemptDays = some days) ∧ before ≤ p.daysAgo days := by
  have hevents (days : Nat) (hdays : p.eventDays = some days) : p.eventBefore s ≤ p.daysAgo days := by
    unfold eventBefore
    rw [hdays]
    cases p.exportedThrough with
    | none => exact min_le_left _ _
    | some e => exact le_trans (min_le_left _ _) (min_le_left _ _)
  have hattempts (days : Nat) (hdays : p.attemptDays = some days) : p.attemptBefore s ≤ p.daysAgo days := by
    unfold attemptBefore
    rw [hdays]
    cases p.exportedThrough with
    | none => exact min_le_left _ _
    | some e => exact le_trans (min_le_left _ _) (min_le_left _ _)
  cases fact with
  | enqueued task =>
    obtain ⟨days, hdays, rfl⟩ := Option.map_eq_some_iff.mp h
    exact ⟨days, .inl hdays, hevents days hdays⟩
  | claimed task =>
    obtain ⟨days, hdays, rfl⟩ := Option.map_eq_some_iff.mp h
    exact ⟨days, .inl hdays, hevents days hdays⟩
  | attempt outcome durationMs =>
    obtain ⟨days, hdays, rfl⟩ := Option.map_eq_some_iff.mp h
    exact ⟨days, .inr hdays, hattempts days hdays⟩
  | other measure amount => cases h

theorem HistoryPass.mayDrop_lt {p : HistoryPass} {r : RawRow} (h : p.mayDrop s r = true) :
    ∃ days, (p.eventDays = some days ∨ p.attemptDays = some days) ∧ r.occurredAt < p.daysAgo days := by
  obtain ⟨before, hbefore, hr⟩ := (Option.any_eq_true _ _).mp h
  obtain ⟨days, hdays, hle⟩ := cutoff_le hbefore
  refine ⟨days, hdays, lt_of_lt_of_le ?_ hle⟩
  split at hr
  · have hday : r.occurredAt < dateBin oneDay r.occurredAt + oneDay := by
      have := Int.lt_ediv_add_one_mul_self r.occurredAt oneDay_pos
      unfold dateBin
      linarith
    exact lt_of_lt_of_le hday (of_decide_eq_true hr)
  · exact of_decide_eq_true hr

namespace History

variable {depth : Nat} {h : History}

theorem Kept.retain (hh : h.Kept index depth) {pass : HistoryPass} {reaches : RawRow → Bool}
    (hmeets : HistoryEvent.Meets depth h (.retain pass reaches)) :
    (h.step index (.retain pass reaches)).Kept index depth := by
  obtain ⟨hdays, hclaims⟩ := hmeets
  have hever : (h.step index (.retain pass reaches)).ever = h.ever := by
    simp [ever, step, Function.comp_def]
  -- What is deleted now is below the floor.
  have hdropped {r : RawRow} (hdrop : pass.mayDrop h.stats r = true) : r.occurredAt < h.floor depth := by
    obtain ⟨days, hpolicy, hlt⟩ := HistoryPass.mayDrop_lt hdrop
    exact lt_of_lt_of_le hlt (hdays days hpolicy)
  refine ⟨fun e he hfloor => ?_, fun e he hfloor => ?_, fun m => hever ▸ hh.counted m, hh.stored⟩
  · obtain ⟨e₀, he₀, rfl⟩ := List.mem_map.mp he
    have hnot : pass.mayDrop h.stats e₀.row = false := by
      cases hdrop : pass.mayDrop h.stats e₀.row with
      | false => rfl
      | true => exact absurd (hdropped hdrop) (not_lt.mpr hfloor)
    simp [hh.present e₀ he₀ hfloor, hnot]
  · obtain ⟨c, hc, rfl⟩ := List.mem_map.mp he
    intro task hfact e he hmatch
    obtain ⟨e₀, he₀, rfl⟩ := List.mem_map.mp he
    have hpresent := hh.joined c hc hfloor task hfact e₀ he₀ hmatch
    have hnot : (reaches e₀.row && pass.mayDrop h.stats e₀.row) = false := by
      cases hreach : reaches e₀.row && pass.mayDrop h.stats e₀.row with
      | false => rfl
      | true => exact absurd (hclaims e₀ he₀ hreach task hmatch c hc hfact) (not_lt.mpr hfloor)
    simp [hpresent, hnot]

end History

theorem RollupPass.start_of_writes (hwrites : pass.start s < pass.stop s) :
    pass.start s = s.rolledUpThrough - pass.policy.recomputeBuckets * oneMinute := by
  have hclosed : pass.stop s ≤ pass.closed := min_le_left _ _
  refine min_eq_left (le_of_lt ?_)
  by_contra hle
  have hstart : pass.start s = pass.closed := min_eq_right (not_lt.mp hle)
  exact absurd (hstart ▸ hwrites) (not_lt.mpr hclosed)

theorem RollupPass.le_stop (hwrites : pass.start s < pass.stop s)
    (hroom : pass.policy.recomputeBuckets ≤ pass.maxBuckets) (hclosed : s.rolledUpThrough ≤ pass.closed) :
    s.rolledUpThrough ≤ pass.stop s := by
  refine le_min hclosed ?_
  rw [start_of_writes hwrites]
  have hcast : (pass.policy.recomputeBuckets : Int) ≤ pass.maxBuckets := by exact_mod_cast hroom
  have := mul_le_mul_of_nonneg_right hcast oneMinute_pos.le
  linarith

namespace History

variable {depth : Nat} {h : History}

theorem floor_mono (hh : h.Kept index depth) {h' : History} (hrecorded : h'.recorded = h.recorded)
    (hfloor : h.floor depth ≤ h'.floor depth) (hcounted : ∀ m, h'.counted m <+: h'.ever)
    (hstored : ∀ k v, h'.stats.minute.get? k = some v →
      (rawBuckets index (h'.counted k.bucketStart)).get? k = some v) : h'.Kept index depth where
  present e he hle := hh.present e (hrecorded ▸ he) (le_trans hfloor hle)
  joined e he hle := by
    rw [hrecorded] at he ⊢
    exact hh.joined e he (le_trans hfloor hle)
  counted := hcounted
  stored := hstored

/-- The minutes that a pass writes are those of all rows. -/
theorem Kept.minutes (hh : h.Kept index depth)
    (hmeets : HistoryEvent.Meets depth h (.rollUp pass)) (hwrites : pass.start h.stats < pass.stop h.stats)
    {k : BucketKey} {v : StatRow} (hv : (pass.minutes h.stats (rawBuckets index h.rows)).get? k = some v) :
    (rawBuckets index (if pass.start h.stats ≤ k.bucketStart ∧ k.bucketStart < pass.stop h.stats then h.ever
      else h.counted k.bucketStart)).get? k = some v := by
  have hfloor : h.floor depth ≤ pass.start h.stats := by
    have hcast : (pass.policy.recomputeBuckets : Int) ≤ depth := by exact_mod_cast hmeets.1
    have := mul_le_mul_of_nonneg_right hcast oneMinute_pos.le
    rw [RollupPass.start_of_writes hwrites, floor]
    linarith
  rw [RollupPass.minutes, get?_rewrite, get?_aggregateStats] at hv
  by_cases hwithin : pass.start h.stats ≤ k.bucketStart ∧ k.bucketStart < pass.stop h.stats
  · rw [if_pos hwithin]
    rw [if_pos (within_iff.mpr hwithin)] at hv
    rw [← get?_rawBuckets hh.present hh.joined (le_trans hfloor hwithin.1)]
    cases hraw : (rawBuckets index h.rows).get? k with
    | none => simp [hraw, within_iff.mpr hwithin] at hv
    | some w => simpa [hraw] using hv
  · rw [if_neg hwithin]
    have hout : k.within (pass.start h.stats) (pass.stop h.stats) = false := by
      simpa using fun hw => hwithin (within_iff.mp hw)
    rw [hout] at hv
    exact hh.stored k v (by simpa using hv)

theorem Kept.rollUp (hh : h.Kept index depth) (hmeets : HistoryEvent.Meets depth h (.rollUp pass)) :
    (h.step index (.rollUp pass)).Kept index depth := by
  unfold step
  dsimp only
  split
  · exact hh
  · rename_i s hrun
    split
    · exact hh
    · rename_i hdue
      have hs : s = pass.retain (pass.rollUp h.stats (rawBuckets index h.rows)) := by
        unfold RollupPass.run at hrun
        split at hrun
        · cases hrun
        · exact (Except.ok.inj hrun).symm
      have hcounted (m : Time) : (if pass.start h.stats ≤ m ∧ m < pass.stop h.stats then h.ever
          else h.counted m) <+: h.ever := by
        split
        · exact List.prefix_rfl
        · exact hh.counted m
      have hexpired {k : BucketKey} {v : StatRow} (hv : s.minute.get? k = some v) :
          (pass.rollUp h.stats (rawBuckets index h.rows)).minute.get? k = some v := by
        rw [hs] at hv
        exact get?_of_expire hv
      have hwatermark : s.rolledUpThrough = (pass.rollUp h.stats (rawBuckets index h.rows)).rolledUpThrough := by
        rw [hs]
        rfl
      by_cases hwrites : pass.start h.stats < pass.stop h.stats
      · refine floor_mono hh rfl ?_ hcounted fun k v hv => ?_
        · have hle := RollupPass.le_stop hwrites hmeets.2.1 hmeets.2.2
          have hstop : s.rolledUpThrough = pass.stop h.stats := by
            rw [hwatermark, RollupPass.rollUp, if_pos hwrites]
          simp only [floor, hstop]
          linarith
        · have hv := hexpired hv
          rw [RollupPass.rollUp, if_pos hwrites] at hv
          exact hh.minutes hmeets hwrites hv
      · refine floor_mono hh rfl ?_ hcounted fun k v hv => ?_
        · have hsame : s.rolledUpThrough = h.stats.rolledUpThrough := by
            rw [hwatermark, RollupPass.rollUp, if_neg hwrites]
          simp only [floor, hsame]
          exact le_refl _
        · have hv := hexpired hv
          rw [RollupPass.rollUp, if_neg hwrites] at hv
          have hempty : ¬(pass.start h.stats ≤ k.bucketStart ∧ k.bucketStart < pass.stop h.stats) :=
            fun hw => hwrites (lt_of_le_of_lt hw.1 hw.2)
          simp only [if_neg hempty]
          exact hh.stored k v hv

theorem Kept.step (hh : h.Kept index depth) {e : HistoryEvent} (hmeets : e.Meets depth h) :
    (h.step index e).Kept index depth := by
  cases e with
  | record r => exact hh.record hmeets
  | rollUp pass => exact hh.rollUp hmeets
  | retain pass reaches => exact hh.retain hmeets

theorem Kept.run (hh : h.Kept index depth) {events : List HistoryEvent}
    (hmeets : MeetsAll index depth h events) : (h.run index events).Kept index depth := by
  induction events generalizing h with
  | nil => exact hh
  | cons e events ih => exact ih (hh.step hmeets.1) hmeets.2

end History

/-- In every run whose steps meet the condition, a stored minute is the aggregate of all rows that had ever
been recorded when it was last written, and the next pass finds every row of the minutes that it writes. -/
theorem retention_keeps_rewritten {depth : Nat} {now : Time} {events : List HistoryEvent}
    (index : Time → Int) (hmeets : MeetsAll index depth (.installed now) events) :
    (∀ k v, ((History.installed now).run index events).stats.minute.get? k = some v →
      (rawBuckets index (((History.installed now).run index events).counted k.bucketStart)).get? k = some v) ∧
    (∀ m, ((History.installed now).run index events).counted m <+:
      ((History.installed now).run index events).ever) ∧
    ∀ pass : RollupPass, pass.policy.recomputeBuckets ≤ depth →
      ∀ e ∈ ((History.installed now).run index events).recorded,
        pass.start ((History.installed now).run index events).stats ≤ e.row.occurredAt →
        e.row.occurredAt < pass.stop ((History.installed now).run index events).stats → e.present = true := by
  have hkept := (History.installed_kept index depth now).run hmeets
  refine ⟨hkept.stored, hkept.counted, fun pass hdepth e he hstart hstop => ?_⟩
  refine hkept.present e he (le_trans ?_ hstart)
  have hcast : (pass.policy.recomputeBuckets : Int) ≤ depth := by exact_mod_cast hdepth
  have := mul_le_mul_of_nonneg_right hcast oneMinute_pos.le
  rw [RollupPass.start_of_writes (lt_of_le_of_lt hstart hstop), History.floor]
  linarith

/-! ## A stalled rollup -/

def lastEnqueue : RawRow := ⟨.enqueued 1, 10 * oneDay - 30000000, "default", "report", true⟩

def lastAttempt : RawRow := ⟨.attempt .attemptSucceeded 5, 10 * oneDay - 20000000, "default", "report", true⟩

def rollupAt (now : Time) : RollupPass := ⟨true, now, 240, ⟨60000, 5, none, 1000⟩, fun _ => some 0⟩

def retentionAt (now : Time) : HistoryPass := ⟨now, some 1, none, none⟩

def stalledRollup : List HistoryEvent :=
  [.record lastEnqueue, .record lastAttempt, .rollUp (rollupAt (10 * oneDay + oneMinute)),
    .retain (retentionAt (11 * oneDay + oneHour)) fun _ => true, .rollUp (rollupAt (11 * oneDay + oneHour))]

/-- The last pass writes the minute again without the enqueue that retention has deleted. -/
theorem retention_erases_rewritten :
    (((History.installed (10 * oneDay - oneMinute)).run (fun _ => 0) stalledRollup).stats.minute.get?
      lastEnqueue.key).map (fun v => (v .enqueued, v .attemptSucceeded)) = some (0, 1) ∧
    ((rawBuckets (fun _ => 0) [lastEnqueue, lastAttempt]).get? lastEnqueue.key).map
      (fun v => (v .enqueued, v .attemptSucceeded)) = some (1, 1) ∧
    ((History.installed (10 * oneDay - oneMinute)).run (fun _ => 0) stalledRollup).counted
      lastEnqueue.key.bucketStart = [lastEnqueue, lastAttempt] := by
  decide +kernel

def steadyRollup : List HistoryEvent :=
  [.record lastEnqueue, .rollUp (rollupAt (10 * oneDay + oneMinute)),
    .rollUp { rollupAt (11 * oneDay) with maxBuckets := 2000 },
    .retain (retentionAt (11 * oneDay + oneHour)) fun _ => true,
    .rollUp (rollupAt (11 * oneDay + oneHour))]

theorem steadyRollup_meets : MeetsAll (fun _ => 0) 5 (.installed (10 * oneDay - oneMinute)) steadyRollup := by
  refine ⟨?_, ⟨by decide, by decide, by decide⟩, ⟨by decide, by decide, by decide +kernel⟩, ⟨?_, ?_⟩,
    ⟨by decide, by decide, by decide +kernel⟩, trivial⟩
  · intro task h
    cases h
  · rintro days (h | h)
    · cases h
      decide +kernel
    · cases h
  · intro e he hreach task hfact c hc hclaim
    obtain rfl := List.mem_singleton.mp hc
    cases hclaim

/-- Retention deletes the day of the enqueue, and the minute that counts it stays as recorded. -/
theorem retention_keeps_rewritten_steadyRollup :
    ((History.installed (10 * oneDay - oneMinute)).run (fun _ => 0) steadyRollup).rows = [] ∧
    ∃ v, ((History.installed (10 * oneDay - oneMinute)).run (fun _ => 0) steadyRollup).stats.minute.get?
        lastEnqueue.key = some v ∧
      (rawBuckets (fun _ => 0) (((History.installed (10 * oneDay - oneMinute)).run (fun _ => 0)
        steadyRollup).counted lastEnqueue.key.bucketStart)).get? lastEnqueue.key = some v := by
  have hstored : (((History.installed (10 * oneDay - oneMinute)).run (fun _ => 0) steadyRollup).stats.minute.get?
      lastEnqueue.key).isSome = true := by decide +kernel
  obtain ⟨v, hv⟩ := Option.isSome_iff_exists.mp hstored
  exact ⟨by decide +kernel, v, hv, (retention_keeps_rewritten (fun _ => 0) steadyRollup_meets).1 _ v hv⟩

end Workhorse
