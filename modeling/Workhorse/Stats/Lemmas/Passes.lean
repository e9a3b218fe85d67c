import Workhorse.Stats.Lemmas.Buckets

/-!
# Rollup passes

A pass adds up minutes to hours and hours to days. The sums are those of the raw minutes when the rows
that it reads and does not write itself are still there.
-/

namespace Workhorse

open Table

variable {raw : Buckets} {pass : RollupPass} {s s' : StatState} {k : BucketKey} {v : StatRow} {unit lo hi : Time}

/-! ## Rewritten ranges -/

theorem get?_rewrite {t new : Buckets} {lo hi : Time} : (rewrite t lo hi new).get? k = match new.get? k with
    | some v => some v
    | none => if k.within lo hi then none else t.get? k := by
  rw [rewrite, get?_overlay, get?_filter]
  cases new.get? k with
  | some v => rfl
  | none => cases k.within lo hi <;> cases t.get? k <;> rfl

theorem get?_aggregateStats {lo hi : Time} :
    (aggregateStats raw lo hi).get? k = if k.within lo hi then raw.get? k else none := by
  rw [aggregateStats, get?_filter]
  cases k.within lo hi <;> cases raw.get? k <;> rfl

theorem within_iff {lo hi : Time} : k.within lo hi = true ↔ lo ≤ k.bucketStart ∧ k.bucketStart < hi := by
  simp [BucketKey.within]

theorem within_bin (hu : 0 < unit) (hlo : unit ∣ lo) (hhi : unit ∣ hi) :
    (k.bin unit).within lo hi = k.within lo hi := by
  rw [Bool.eq_iff_iff, within_iff, within_iff]
  exact and_congr (le_dateBin_iff hu hlo) (dateBin_lt_iff hu hhi)

theorem bin_bin {fine unit : Time} (hf : 0 < fine) (hu : 0 < unit) (h : fine ∣ unit) :
    (k.bin fine).bin unit = k.bin unit := by
  simp [BucketKey.bin, dateBin_dateBin hf hu h]

theorem get?_regroup {source other : Buckets} (hu : 0 < unit) (hlo : unit ∣ lo)
    (hhi : unit ∣ hi) (hsame : ∀ k, k.within lo hi = true → source.get? k = other.get? k) (hk : k.within lo hi = true) :
    (regroup unit source lo hi).get? k = (groupSum (·.bin unit) other.rows).get? k := by
  have hbin {k' : BucketKey} (h : k'.bin unit = k) : k'.within lo hi = true := by
    rw [← within_bin hu hlo hhi, h, hk]
  refine get?_groupSum_congr (fun e he => ?_) ?_
  · have hwithin := hbin he
    simp only [Table.filter, List.mem_filter, hwithin, and_true]
    rw [← get?_eq_some_iff (k := e.1) (v := e.2), ← get?_eq_some_iff (k := e.1) (v := e.2), hsame _ hwithin]
  · have hrows := total_filter (fun k' => decide (k'.bin unit = k)) (fun k => k.within lo hi)
      source.rows
    have hselect : total (fun k' => decide (k'.bin unit = k) && k'.within lo hi) source.rows =
        total (fun k' => decide (k'.bin unit = k)) source.rows := by
      refine total_congr fun e _ => ?_
      by_cases he : e.1.bin unit = k
      · simp [he, hbin he]
      · simp [he]
    refine (hrows.trans hselect).trans (total_eq_of_get? fun k' hk' => hsame k' (hbin (of_decide_eq_true hk')))

theorem within_of_regroup {source : Buckets} (hu : 0 < unit) (hlo : unit ∣ lo)
    (hhi : unit ∣ hi) (h : (regroup unit source lo hi).get? k = some v) : k.within lo hi = true := by
  obtain ⟨e, he, hk⟩ := contains_groupSum.mp ⟨v, h⟩
  simp only [Table.filter, List.mem_filter] at he
  rw [← hk, within_bin hu hlo hhi]
  exact he.2

/-! ## What a pass reads -/

def RollupPass.writesHour (pass : RollupPass) (s : StatState) (k : BucketKey) : Bool :=
  decide (pass.hourFrom s < dateBin oneHour (pass.stop s)) && k.within (pass.hourFrom s) (pass.hourTo s)

/-- The rows that a pass adds up and does not write itself are those of the raw history: none of them has
been deleted. -/
structure RollupPass.Sourced (pass : RollupPass) (raw : Buckets) (s : StatState) : Prop where
  minute : ∀ k, k.within (pass.hourFrom s) (pass.start s) = true → s.minute.get? k = raw.get? k
  hour : ∀ k, k.within (pass.dayFrom s) (pass.dayTo s) = true → pass.writesHour s k = false →
    s.hour.get? k = (groupSum (·.bin oneHour) raw.rows).get? k

structure Summed (raw : Buckets) (s : StatState) : Prop where
  hour : ∀ k v, s.hour.get? k = some v → v = total (fun k' => k'.bin oneHour = k) raw.rows
  day : ∀ k v, s.day.get? k = some v → v = total (fun k' => k'.bin oneDay = k) raw.rows
  hourly : oneHour ∣ s.hourlyRolledUpThrough
  daily : oneDay ∣ s.dailyRolledUpThrough

section Pass

variable (h : Summed raw s) (hsourced : pass.Sourced raw s)

theorem dvd_min {unit a b : Time} (ha : unit ∣ a) (hb : unit ∣ b) : unit ∣ min a b := by
  rcases min_choice a b with hab | hab <;> rw [hab] <;> assumption

theorem dvd_max {unit a b : Time} (ha : unit ∣ a) (hb : unit ∣ b) : unit ∣ max a b := by
  rcases max_choice a b with hab | hab <;> rw [hab] <;> assumption

include h in
theorem hourFrom_dvd : oneHour ∣ pass.hourFrom s := dvd_min h.hourly dvd_dateBin

include h in
theorem hourTo_dvd : oneHour ∣ pass.hourTo s := by
  unfold RollupPass.hourTo
  split
  · exact dvd_dateBin
  · exact h.hourly

include h in
theorem dayFrom_dvd : oneDay ∣ pass.dayFrom s := dvd_min h.daily dvd_dateBin

include h in
theorem dayTo_dvd : oneDay ∣ pass.dayTo s := by
  unfold RollupPass.dayTo
  split
  · exact dvd_dateBin
  · exact h.daily

include hsourced in
theorem minutes_eq (hwrites : pass.hourFrom s < dateBin oneHour (pass.stop s))
    (hk : k.within (pass.hourFrom s) (pass.hourTo s) = true) :
    (pass.minutes s raw).get? k = raw.get? k := by
  obtain ⟨hlo, hhi⟩ := within_iff.mp hk
  rw [RollupPass.hourTo, if_pos hwrites] at hhi
  have hstop : k.bucketStart < pass.stop s := hhi.trans_le (dateBin_le oneHour_pos)
  rw [RollupPass.minutes, get?_rewrite, get?_aggregateStats]
  by_cases hstart : pass.start s ≤ k.bucketStart
  · have hwithin : k.within (pass.start s) (pass.stop s) = true := within_iff.mpr ⟨hstart, hstop⟩
    rw [hwithin]
    cases raw.get? k <;> rfl
  · have hwithin : k.within (pass.start s) (pass.stop s) = false := by
      rw [← Bool.not_eq_true, within_iff]
      exact fun h => hstart h.1
    have hsame := hsourced.minute k (within_iff.mpr ⟨hlo, not_le.mp hstart⟩)
    rw [hwithin]
    exact hsame

include h hsourced in
/-- The hours that a pass leaves. Those of its days are the sums of their raw minutes. -/
theorem hours_eq (hk : k.within (pass.dayFrom s) (pass.dayTo s) = true ∨ pass.writesHour s k = true) :
    (pass.hours s raw).get? k = (groupSum (·.bin oneHour) raw.rows).get? k := by
  by_cases hwrites : pass.hourFrom s < dateBin oneHour (pass.stop s)
  · rw [RollupPass.hours, if_pos hwrites, get?_rewrite]
    have hgroup := @get?_regroup k oneHour (pass.hourFrom s) (pass.hourTo s) (pass.minutes s raw) raw
      oneHour_pos (hourFrom_dvd h) (hourTo_dvd h) fun k hk => minutes_eq hsourced hwrites hk
    cases hin : k.within (pass.hourFrom s) (pass.hourTo s) with
    | true =>
      rw [← hgroup hin]
      cases (regroup oneHour (pass.minutes s raw) (pass.hourFrom s) (pass.hourTo s)).get? k <;> simp
    | false =>
      have hnot : pass.writesHour s k = false := by simp [RollupPass.writesHour, hin]
      have hnone : (regroup oneHour (pass.minutes s raw) (pass.hourFrom s) (pass.hourTo s)).get? k = none := by
        cases hr : (regroup oneHour (pass.minutes s raw) (pass.hourFrom s) (pass.hourTo s)).get? k with
        | none => rfl
        | some v =>
          rw [within_of_regroup oneHour_pos (hourFrom_dvd h) (hourTo_dvd h) hr] at hin
          cases hin
      rw [hnone]
      rcases hk with hk | hk
      · simpa using hsourced.hour k hk hnot
      · rw [hnot] at hk
        cases hk
  · have hnot : pass.writesHour s k = false := by simp [RollupPass.writesHour, hwrites]
    rw [RollupPass.hours, if_neg hwrites]
    rcases hk with hk | hk
    · exact hsourced.hour k hk hnot
    · rw [hnot] at hk
      cases hk

include h hsourced in
theorem hours_summed (hv : (pass.hours s raw).get? k = some v) : v = total (fun k' => k'.bin oneHour = k) raw.rows := by
  cases hw : pass.writesHour s k with
  | true =>
    rw [hours_eq h hsourced (.inr hw)] at hv
    exact get?_groupSum hv
  | false =>
    refine h.hour k v ?_
    by_cases hwrites : pass.hourFrom s < dateBin oneHour (pass.stop s)
    · have hin : k.within (pass.hourFrom s) (pass.hourTo s) = false := by
        simpa [RollupPass.writesHour, hwrites] using hw
      rw [RollupPass.hours, if_pos hwrites, get?_rewrite] at hv
      cases hr : (regroup oneHour (pass.minutes s raw) (pass.hourFrom s) (pass.hourTo s)).get? k with
      | none => simpa [hr, hin] using hv
      | some w =>
        rw [within_of_regroup oneHour_pos (hourFrom_dvd h) (hourTo_dvd h) hr] at hin
        cases hin
    · rwa [RollupPass.hours, if_neg hwrites] at hv

include h hsourced in
theorem days_summed (hv : (pass.days s raw).get? k = some v) : v = total (fun k' => k'.bin oneDay = k) raw.rows := by
  by_cases hwrites : pass.dayFrom s < dateBin oneDay (pass.hourTo s)
  · rw [RollupPass.days, if_pos hwrites, get?_rewrite] at hv
    cases hr : (regroup oneDay (pass.hours s raw) (pass.dayFrom s) (pass.dayTo s)).get? k with
    | none =>
      simp only [hr] at hv
      split at hv
      · cases hv
      · exact h.day k v hv
    | some w =>
      rw [hr] at hv
      cases hv
      have hin := within_of_regroup oneDay_pos (dayFrom_dvd h) (dayTo_dvd h) hr
      rw [get?_regroup oneDay_pos (dayFrom_dvd h) (dayTo_dvd h)
        (fun k hk => hours_eq h hsourced (.inl hk)) hin] at hr
      rw [get?_groupSum hr, total_groupSum]
      refine total_congr fun e _ => ?_
      rw [bin_bin oneHour_pos oneDay_pos oneHour_dvd_oneDay]
  · rw [RollupPass.days, if_neg hwrites] at hv
    exact h.day k v hv

include h hsourced in
theorem Summed.rollUp : Summed raw (pass.rollUp s raw) := by
  unfold RollupPass.rollUp
  split
  · exact ⟨fun k v hv => hours_summed h hsourced hv, fun k v hv => days_summed h hsourced hv,
      dvd_max h.hourly (hourTo_dvd h), dvd_max h.daily (dayTo_dvd h)⟩
  · exact ⟨h.hour, h.day, h.hourly, h.daily⟩

end Pass

theorem get?_of_expire {t : Buckets} {before : Time} {limit : Nat}
    (h : (pass.expire t before limit).get? k = some v) : t.get? k = some v := by
  rw [RollupPass.expire, get?_filter, Option.filter_eq_some_iff] at h
  exact h.1

theorem Summed.retain (h : Summed raw s) : Summed raw (pass.retain s) := by
  refine ⟨fun k v hv => h.hour k v (get?_of_expire hv), fun k v hv => h.day k v ?_, h.hourly, h.daily⟩
  simp only [RollupPass.retain] at hv
  split at hv
  · exact get?_of_expire hv
  · exact hv

theorem Summed.run (h : Summed raw s) (hsourced : pass.Sourced raw s) (hrun : pass.run s raw = .ok s') :
    Summed raw s' := by
  simp only [RollupPass.run] at hrun
  split at hrun
  · cases hrun
  · split at hrun
    · cases hrun
      exact h
    · cases hrun
      exact (h.rollUp hsourced).retain

end Workhorse
