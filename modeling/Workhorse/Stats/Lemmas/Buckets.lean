import Mathlib.Tactic.Linarith
import Workhorse.Stats.Rollup

/-!
# Bins and exact buckets

Bins of a unit, and what it means that the bucket tables hold the sums of the raw minutes below their
watermarks.
-/

namespace Workhorse

/-! ## Bins -/

section Bins

variable {unit a t : Time}

theorem dvd_dateBin : unit ∣ dateBin unit t := Dvd.intro_left _ rfl

theorem dateBin_le (hu : 0 < unit) : dateBin unit t ≤ t := Int.ediv_mul_le t hu.ne'

theorem le_dateBin_iff (hu : 0 < unit) (ha : unit ∣ a) : a ≤ dateBin unit t ↔ a ≤ t := by
  obtain ⟨c, rfl⟩ := ha
  rw [dateBin, mul_comm unit c]
  exact ⟨fun h => h.trans (Int.ediv_mul_le t hu.ne'),
    fun h => Int.mul_le_mul_of_nonneg_right ((Int.le_ediv_iff_mul_le hu).mpr h) hu.le⟩

theorem dateBin_lt_iff (hu : 0 < unit) (ha : unit ∣ a) : dateBin unit t < a ↔ t < a :=
  lt_iff_lt_of_le_iff_le (le_dateBin_iff hu ha)

theorem dateBin_of_dvd (ht : unit ∣ t) : dateBin unit t = t := Int.ediv_mul_cancel ht

theorem dvd_of_dateBin_eq (h : t = dateBin unit t) : unit ∣ t := h ▸ dvd_dateBin

theorem dateBin_dateBin {fine : Time} (hf : 0 < fine) (hu : 0 < unit) (h : fine ∣ unit) :
    dateBin unit (dateBin fine t) = dateBin unit t := by
  have hdvd : fine ∣ dateBin unit t := h.trans dvd_dateBin
  refine le_antisymm ?_ ?_
  · exact (le_dateBin_iff hu dvd_dateBin).mpr ((dateBin_le hu).trans (dateBin_le hf))
  · exact (le_dateBin_iff hu dvd_dateBin).mpr ((le_dateBin_iff hf hdvd).mpr (dateBin_le hu))

theorem oneHour_pos : 0 < oneHour := by decide

theorem oneDay_pos : 0 < oneDay := by decide

theorem oneMinute_dvd_oneHour : oneMinute ∣ oneHour := Dvd.intro_left 60 rfl

theorem oneHour_dvd_oneDay : oneHour ∣ oneDay := Dvd.intro_left 24 rfl

end Bins

/-! ## Windows -/

theorem statWindowTier_cases {lo hi : Time} {tier : StatTier} (h : statWindowTier lo hi = .ok tier) :
    lo < hi ∧ match tier with
      | .minute => oneMinute ∣ lo
      | .hour => oneHour ∣ lo
      | .day => oneDay ∣ lo := by
  simp only [statWindowTier] at h
  split at h
  · cases h
  · rename_i hlt
    refine ⟨not_le.mp hlt, ?_⟩
    split at h
    · split at h
      · cases h
      · rename_i hbin
        cases h
        exact dvd_of_dateBin_eq (not_not.mp hbin)
    · split at h
      · split at h
        · cases h
        · rename_i hbin
          cases h
          exact dvd_of_dateBin_eq (not_not.mp hbin)
      · split at h
        · cases h
        · rename_i hbin
          cases h
          exact dvd_of_dateBin_eq (not_not.mp hbin)

theorem boundaryFrom_of_dvd {unit t : Time} (h : unit ∣ t) : boundaryFrom unit t = t := if_pos (dateBin_of_dvd h).symm

/-! ## Exact tables -/

/-- The minute rows below their watermark are the raw ones, and the hour and day rows are the sums of raw
minutes below theirs. -/
structure Exact (raw : Buckets) (s : StatState) : Prop where
  minute : ∀ k, k.bucketStart < s.rolledUpThrough → s.minute.get? k = raw.get? k
  hour : ∀ k, s.hour.get? k = if k.bucketStart < s.hourlyRolledUpThrough then
    (Table.groupSum (·.bin oneHour) raw.rows).get? k else none
  day : ∀ k, s.day.get? k = if k.bucketStart < s.dailyRolledUpThrough then
    (Table.groupSum (·.bin oneDay) raw.rows).get? k else none

def ByMinute (raw : Buckets) : Prop := ∀ e ∈ raw.rows, oneMinute ∣ e.1.bucketStart

def BucketKey.ofGroup (queue type : String) (k : BucketKey) : Bool := k.queueName = queue && k.taskType = type

section Coarse

open Table

variable {t raw : Buckets} {unit watermark : Time}

theorem total_coarse (ht : ∀ k, t.get? k = if k.bucketStart < watermark then
      (groupSum (·.bin unit) raw.rows).get? k else none) (p : BucketKey → Bool) :
    total p t.rows = total (fun k => p (k.bin unit) && decide (dateBin unit k.bucketStart < watermark))
      raw.rows := by
  rw [total_split fun k => decide (k.bucketStart < watermark)]
  have hnone : total (fun k => p k && !decide (k.bucketStart < watermark)) t.rows = 0 := by
    refine total_eq_zero fun e he => ?_
    have hk := ht e.1
    rw [get?_eq_some_iff.mpr he] at hk
    split at hk
    · rename_i hlt
      simp [hlt]
    · cases hk
  have hsome : total (fun k => p k && decide (k.bucketStart < watermark)) t.rows =
      total (fun k => p k && decide (k.bucketStart < watermark)) (groupSum (·.bin unit) raw.rows).rows := by
    refine total_eq_of_get? fun k hk => ?_
    simp only [Bool.and_eq_true, decide_eq_true_eq] at hk
    rw [ht k, if_pos hk.2]
  rw [hnone, add_zero, hsome, total_groupSum]
  rfl

end Coarse

end Workhorse
