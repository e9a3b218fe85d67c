import Workhorse.Stats.Lemmas.Passes
import Workhorse.Stats.Lemmas.Stitching

/-!
# Results on statistics
-/

namespace Workhorse

open Table

/-- Reads of exact tables. For every raw history the totals of a window are the sums of its raw minutes,
if and only if no minute of the window's whole hours (days) lies between the minute watermark and that of
the hours (days). -/
theorem stitched_totals_iff {lo hi minute hour day : Time} {tier : StatTier} (hminute : oneMinute ∣ minute)
    (hhour : oneHour ∣ hour) (hday : oneDay ∣ day)
    (htier : statWindowTier lo hi = .ok tier) :
    (∀ raw s, ByMinute raw → s.rolledUpThrough = minute → s.hourlyRolledUpThrough = hour →
      s.dailyRolledUpThrough = day → Exact raw s → ∀ queue type rows, statBuckets raw s lo hi = .ok rows →
        total (BucketKey.ofGroup queue type) rows = total (fun k => k.ofGroup queue type && k.within lo hi) raw.rows) ↔
    Seamless tier lo hi minute hour day := by
  constructor
  · intro h
    -- One task enqueued in a minute of the window is counted once.
    have hone {t : Int} (ht : oneMinute ∣ t) (hlo : lo ≤ t) (hthi : t < hi) :
        counted tier lo hi minute hour day t = 1 := by
      have hbyMinute : ByMinute (enqueuedAt t) := by
        intro e he
        cases List.mem_singleton.mp he
        exact ht
      have hex := exact_exactly (enqueuedAt t) minute hour day
      have hsum := h (enqueuedAt t) _ hbyMinute rfl rfl rfl hex "q" "t" _ (statBuckets_eq htier)
      rw [total_statBuckets hex htier (statBuckets_eq htier) fun _ _ => rfl] at hsum
      have hsum := congrFun hsum .enqueued
      have hgroup : (⟨t, "q", "t"⟩ : BucketKey).ofGroup "q" "t" = true := rfl
      have hwithin : (⟨t, "q", "t"⟩ : BucketKey).within lo hi = true := by
        simp [BucketKey.within, hlo, hthi]
      simp only [Pi.add_apply, total_enqueuedAt, hgroup, hwithin, Bool.true_and, if_true] at hsum
      exact hsum
    have hhe : dateBin oneHour hi ≤ hi := dateBin_le oneHour_pos
    have hde : dateBin oneDay hi ≤ dateBin oneHour hi :=
      (le_dateBin_iff oneHour_pos (oneHour_dvd_oneDay.trans dvd_dateBin)).mpr (dateBin_le oneDay_pos)
    have hlo := (statWindowTier_cases htier).2
    have hhour' := oneMinute_dvd_oneHour.trans hhour
    have hday' := (oneMinute_dvd_oneHour.trans oneHour_dvd_oneDay).trans hday
    cases tier with
    | minute => trivial
    | hour =>
      by_contra hseam
      obtain ⟨t, hcase, htlo, htend, hbetween⟩ := exists_of_not_clear hseam
      have ht : oneMinute ∣ t := by
        rcases hcase with rfl | rfl | rfl
        · exact oneMinute_dvd_oneHour.trans hlo
        · exact hminute
        · exact hhour'
      refine counted_ne_one hhour hday htier htlo (htend.trans_le hhe) (.inl ⟨by simp, htend, ?_, hbetween⟩)
        (hone ht htlo (htend.trans_le hhe))
      simp
    | day =>
      have hdayEnd : oneMinute ∣ dateBin oneDay hi := (oneMinute_dvd_oneHour.trans oneHour_dvd_oneDay).trans dvd_dateBin
      refine ⟨?_, ?_⟩
      · by_contra hseam
        obtain ⟨t, hcase, htlo, htend, hbetween⟩ := exists_of_not_clear hseam
        have ht : oneMinute ∣ t := by
          rcases hcase with rfl | rfl | rfl
          · exact hdayEnd
          · exact hminute
          · exact hhour'
        have hlo' : lo ≤ dateBin oneDay hi := (le_dateBin_iff oneDay_pos hlo).mpr (statWindowTier_cases htier).1.le
        refine counted_ne_one hhour hday htier (hlo'.trans htlo) (htend.trans_le hhe)
          (.inl ⟨by simp, htend, fun _ => htlo, hbetween⟩) (hone ht (hlo'.trans htlo) (htend.trans_le hhe))
      · by_contra hseam
        obtain ⟨t, hcase, htlo, htend, hbetween⟩ := exists_of_not_clear hseam
        have ht : oneMinute ∣ t := by
          rcases hcase with rfl | rfl | rfl
          · exact (oneMinute_dvd_oneHour.trans oneHour_dvd_oneDay).trans hlo
          · exact hminute
          · exact hday'
        refine counted_ne_one hhour hday htier htlo ((htend.trans_le hde).trans_le hhe)
          (.inr ⟨rfl, htend, hbetween⟩) (hone ht htlo ((htend.trans_le hde).trans_le hhe))
  · rintro hseam raw s hraw rfl rfl rfl hex queue type rows hrows
    rw [total_statBuckets hex htier hrows fun _ _ => rfl]
    exact partition hhour hday htier hseam _ _

/-! ## A read across an hour boundary -/

def eleven : Time := 10 * oneDay + 11 * oneHour

def defaultPolicy : StatPolicy := ⟨60000, 2, some 14, 10000⟩

def beforeTwelve : RollupPass := ⟨false, eleven + 59 * oneMinute, 240, defaultPolicy, fun _ => some 0⟩

theorem beforeTwelve_run : (match beforeTwelve.run (.installed eleven) (enqueuedAt (eleven + 30 * oneMinute)) with
    | .ok s => s.rolledUpThrough == eleven + 59 * oneMinute && s.hourlyRolledUpThrough == eleven &&
        s.dailyRolledUpThrough == 10 * oneDay
    | .error _ => false) = true := by
  decide +kernel

/-- A window of two days to twelve o'clock loses what was enqueued at half past eleven: the minute rows
give way to an hour row that is not written yet, and the live tail begins after them. -/
theorem stitched_read_drops_minute :
    (∃ s, beforeTwelve.run (.installed eleven) (enqueuedAt (eleven + 30 * oneMinute)) = .ok s ∧
      s.rolledUpThrough = eleven + 59 * oneMinute ∧ s.hourlyRolledUpThrough = eleven ∧
      s.dailyRolledUpThrough = 10 * oneDay) ∧ ∃ raw s rows, ByMinute raw ∧ s.rolledUpThrough = eleven + 59 * oneMinute ∧
      s.hourlyRolledUpThrough = eleven ∧ s.dailyRolledUpThrough = 10 * oneDay ∧ Exact raw s ∧
      statBuckets raw s (eleven + oneHour - 2 * oneDay) (eleven + oneHour) = .ok rows ∧
      total (BucketKey.ofGroup "q" "t") rows .enqueued = 0 ∧
      total (fun k => k.ofGroup "q" "t" && k.within (eleven + oneHour - 2 * oneDay) (eleven + oneHour))
        raw.rows .enqueued = 1 := by
  refine ⟨?_, enqueuedAt (eleven + 30 * oneMinute),
    .exactly _ (eleven + 59 * oneMinute) eleven (10 * oneDay), [], ?_, rfl, rfl, rfl, exact_exactly _ _ _ _, ?_,
    rfl, ?_⟩
  · have hrun := beforeTwelve_run
    split at hrun
    · rename_i s hs
      simp only [Bool.and_eq_true, beq_iff_eq] at hrun
      exact ⟨s, hs, hrun.1.1, hrun.1.2, hrun.2⟩
    · cases hrun
  · intro e he
    cases List.mem_singleton.mp he
    exact Dvd.intro_left (10 * 24 * 60 + 11 * 60 + 30) (by decide)
  · rfl
  · decide +kernel

/-- Once the hour is rolled up, the same window is read without a seam. -/
theorem stitched_totals_at_twelve :
    Seamless .hour (eleven + oneHour - 2 * oneDay) (eleven + oneHour) (eleven + oneHour) (eleven + oneHour)
      (10 * oneDay) ∧
    ∀ raw s, ByMinute raw → s.rolledUpThrough = eleven + oneHour →
      s.hourlyRolledUpThrough = eleven + oneHour → s.dailyRolledUpThrough = 10 * oneDay → Exact raw s →
        ∀ queue type rows, statBuckets raw s (eleven + oneHour - 2 * oneDay) (eleven + oneHour) = .ok rows →
          total (BucketKey.ofGroup queue type) rows = total (fun k => k.ofGroup queue type &&
            k.within (eleven + oneHour - 2 * oneDay) (eleven + oneHour)) raw.rows := by
  have hseam : Seamless .hour (eleven + oneHour - 2 * oneDay) (eleven + oneHour) (eleven + oneHour)
      (eleven + oneHour) (10 * oneDay) := by
    unfold Seamless Clear
    decide
  refine ⟨hseam, (stitched_totals_iff ?_ ?_ ?_ rfl).mpr hseam⟩
  · exact Dvd.intro_left (10 * 24 * 60 + 12 * 60) (by decide)
  · exact Dvd.intro_left (10 * 24 + 12) (by decide)
  · exact Dvd.intro_left 10 rfl

/-! ## Passes -/

inductive Rolls (raw : Buckets) (s₀ : StatState) : StatState → Prop
  | refl : Rolls raw s₀ s₀
  | tail {s s' : StatState} {pass : RollupPass} (h : Rolls raw s₀ s) (hsourced : pass.Sourced raw s)
      (hrun : pass.run s raw = .ok s') : Rolls raw s₀ s'

/-- Stored hours and days below their watermarks are the sums of their raw minutes, as long as no pass
adds up hours or days of which retention has deleted rows. -/
theorem rolled_tiers_are_sums {raw : Buckets} {installedAt : Time} {s : StatState}
    (h : Rolls raw (.installed installedAt) s) :
    (∀ k v, s.hour.get? k = some v → k.bucketStart < s.hourlyRolledUpThrough →
      v = total (fun k' => k'.bin oneHour = k) raw.rows) ∧
    ∀ k v, s.day.get? k = some v → k.bucketStart < s.dailyRolledUpThrough →
      v = total (fun k' => k'.bin oneDay = k) raw.rows := by
  have hsummed : Summed raw s := by
    induction h with
    | refl =>
      refine ⟨fun _ _ hv => ?_, fun _ _ hv => ?_, dvd_dateBin, dvd_dateBin⟩
      · cases hv
      · cases hv
    | tail _ hsourced hrun ih => exact ih.run hsourced hrun
  exact ⟨fun k v hv _ => hsummed.hour k v hv, fun k v hv _ => hsummed.day k v hv⟩

def firstHours (n : Int) : RollupPass := ⟨true, 10 * oneDay + n * oneMinute, 240, defaultPolicy, fun _ => some 0⟩

def afterTen : Buckets := enqueuedAt (10 * oneDay + 20 * oneMinute)

def firstMinutes : StatState where
  minute := afterTen
  hour := .empty
  day := .empty
  rolledUpThrough := 10 * oneDay + 30 * oneMinute
  hourlyRolledUpThrough := 10 * oneDay
  dailyRolledUpThrough := 10 * oneDay
  lastRunAt := some (10 * oneDay + 30 * oneMinute)

theorem firstHours_run : (match (firstHours 70).run firstMinutes afterTen with
    | .ok s => (s.hour.get? ⟨10 * oneDay, "q", "t"⟩).isSome
    | .error _ => false) = true := by
  decide +kernel

/-- The second pass adds up the hour from minutes of its own and of the first pass. -/
theorem rolled_tiers_are_sums_firstHours : ∃ s, Rolls afterTen (.installed (10 * oneDay + 10 * oneMinute)) s ∧
    (∃ v, s.hour.get? ⟨10 * oneDay, "q", "t"⟩ = some v) ∧
    ∀ k v, s.hour.get? k = some v → k.bucketStart < s.hourlyRolledUpThrough →
      v = total (fun k' => k'.bin oneHour = k) afterTen.rows := by
  have hfirst : (firstHours 30).run (.installed (10 * oneDay + 10 * oneMinute)) afterTen = .ok firstMinutes := rfl
  have hday {pass : RollupPass} {s : StatState} (h : pass.dayTo s ≤ pass.dayFrom s) {k : BucketKey}
      (hk : k.within (pass.dayFrom s) (pass.dayTo s) = true) : False := by
    obtain ⟨hlo, hhi⟩ := within_iff.mp hk
    exact absurd (hlo.trans_lt hhi) (not_lt.mpr h)
  have hsourced : (firstHours 30).Sourced afterTen (.installed (10 * oneDay + 10 * oneMinute)) := by
    refine ⟨fun k hk => ?_, fun k hk => (hday (by decide +kernel) hk).elim⟩
    have hne : k ≠ ⟨10 * oneDay + 20 * oneMinute, "q", "t"⟩ := by
      rintro rfl
      exact absurd hk (by decide +kernel)
    simp [afterTen, enqueuedAt, StatState.installed, hne]
  have hsourced' : (firstHours 70).Sourced afterTen firstMinutes :=
    ⟨fun _ _ => rfl, fun k hk => (hday (by decide +kernel) hk).elim⟩
  have hrun := firstHours_run
  split at hrun
  · rename_i s hs
    have hreach := (Rolls.refl.tail hsourced hfirst).tail hsourced' hs
    exact ⟨s, hreach, Option.isSome_iff_exists.mp hrun, (rolled_tiers_are_sums hreach).1⟩
  · cases hrun

def twoMinutes : Buckets :=
  (enqueuedAt (10 * oneDay + 190 * oneMinute)).overlay (enqueuedAt (10 * oneDay + 237 * oneMinute))

def afterOutage (n : Int) : RollupPass := ⟨false, 13 * oneDay + n * oneMinute, 240, defaultPolicy, fun _ => some 0⟩

theorem afterOutage_run : (match (afterOutage 0).run (.installed (10 * oneDay)) twoMinutes with
    | .ok s₁ => match (afterOutage 1).run s₁ twoMinutes with
      | .ok s₂ => (s₂.hour.get? ⟨10 * oneDay + 3 * oneHour, "q", "t"⟩).any (fun v => v .enqueued == 1) &&
          decide (10 * oneDay + 3 * oneHour < s₂.hourlyRolledUpThrough)
      | .error _ => false
    | .error _ => false) = true := by
  decide +kernel

/-- The first pass deletes the minutes of the hour that the second one rebuilds. -/
theorem outage_loses_minutes : ∃ s₁ s₂ v, (afterOutage 0).run (.installed (10 * oneDay)) twoMinutes = .ok s₁ ∧
    (afterOutage 1).run s₁ twoMinutes = .ok s₂ ∧ s₂.hour.get? ⟨10 * oneDay + 3 * oneHour, "q", "t"⟩ = some v ∧
    10 * oneDay + 3 * oneHour < s₂.hourlyRolledUpThrough ∧ v .enqueued = 1 ∧
    total (fun k => k.bin oneHour = ⟨10 * oneDay + 3 * oneHour, "q", "t"⟩) twoMinutes.rows .enqueued = 2 := by
  have hrun := afterOutage_run
  split at hrun
  · rename_i s₁ hs₁
    split at hrun
    · rename_i s₂ hs₂
      obtain ⟨hrow, hmark⟩ := (Bool.and_eq_true _ _).mp hrun
      obtain ⟨v, hv, hone⟩ := (Option.any_eq_true _ _).mp hrow
      exact ⟨s₁, s₂, v, hs₁, hs₂, hv, of_decide_eq_true hmark, beq_iff_eq.mp hone, by decide +kernel⟩
    · cases hrun
  · cases hrun

end Workhorse
