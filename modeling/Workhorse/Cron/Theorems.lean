import Workhorse.Cron.Lemmas.Walk

/-!
# Results on the cron walk
-/

namespace Workhorse

namespace CronCall

variable {c : CronCall} {date : Int}

theorem wallOf_lt {second second' : Nat} (h : second < second') : wallOf date second < wallOf date second' := by
  have hcast : (second : Int) < second' := by exact_mod_cast h
  have hpos : (0 : Int) < oneSecond := by decide
  have hmul := mul_lt_mul_of_pos_right hcast hpos
  unfold wallOf
  linarith

theorem wallOf_le {second second' : Nat} (h : second ≤ second') : wallOf date second ≤ wallOf date second' := by
  rcases h.eq_or_lt with rfl | h
  · exact le_rfl
  · exact (wallOf_lt h).le

theorem wallOf_next (date : Int) : wallOf date 86399 < wallOf (date + 1) 0 := by
  have hday : (oneDay : Int) = 86400 * oneSecond := by decide
  have hpos : (0 : Int) < oneSecond := by decide
  unfold wallOf
  rw [hday]
  push_cast
  linarith

/-! ## The loops of one date -/

theorem block_seconds (hz : c.zone.Steady) (date : Int) (minuteSecond : Nat) :
    c.Block (wallOf date minuteSecond) (wallOf date (minuteSecond + 59)) (c.secondsOf date minuteSecond)
      (c.walkSeconds date minuteSecond) := by
  rw [secondsOf, List.map_eq_flatMap]
  refine block_foldl hz (wallOf_le (by omega)) (fun second _ => ?_) ?_ (fun second _ => wallOf_le (by omega))
    fun second hsecond => wallOf_le (by have := c.fields.seconds_le second hsecond; omega)
  · refine ⟨List.pairwise_singleton _ _, le_rfl, fun wall hwall => ?_, fun w past hgoing h => h.visit hgoing⟩
    rw [List.mem_singleton.mp hwall]
    exact ⟨le_rfl, le_rfl⟩
  · exact c.fields.seconds_ordered.imp fun h => wallOf_lt (by omega)

theorem block_minutes (hz : c.zone.Steady) (date : Int) (hourSecond : Nat) :
    c.Block (wallOf date hourSecond) (wallOf date (hourSecond + 3599)) (c.minutesOf date hourSecond)
      (c.walkMinutes date hourSecond) := by
  refine block_foldl hz (wallOf_le (by omega)) (fun minute _ => block_seconds hz date _) ?_
    (fun minute _ => wallOf_le (by omega))
    fun minute hminute => wallOf_le (by have := c.fields.minutes_le minute hminute; omega)
  exact c.fields.minutes_ordered.imp fun h => wallOf_lt (by omega)

theorem block_hours (hz : c.zone.Steady) (date : Int) :
    c.Block (wallOf date 0) (wallOf date 86399) (c.hoursOf date) (c.walkHours date) := by
  refine block_foldl hz (wallOf_le (by omega)) (fun hour _ => block_minutes hz date _) ?_
    (fun hour _ => wallOf_le (by omega))
    fun hour hhour => wallOf_le (by have := c.fields.hours_le hour hhour; omega)
  exact c.fields.hours_ordered.imp fun h => wallOf_lt (by omega)

/-! ## The loop over the dates -/

def wallsOf (c : CronCall) (date : Int) : List Time := if c.fields.matchesDate date then c.hoursOf date else []

theorem sorted_wallsOf (hz : c.zone.Steady) (date : Int) : (c.wallsOf date).Pairwise (· < ·) := by
  unfold wallsOf
  split
  · exact (block_hours hz date).sorted
  · exact .nil

theorem between_wallsOf (hz : c.zone.Steady) (date : Int) :
    ∀ wall ∈ c.wallsOf date, wallOf date 0 ≤ wall ∧ wall ≤ wallOf date 86399 := by
  intro wall hwall
  unfold wallsOf at hwall
  split at hwall
  · exact (block_hours hz date).between wall hwall
  · exact absurd hwall List.not_mem_nil

theorem Follows.walkDate (hz : c.zone.Steady) {w : CronWalk} {past : List Time} {m : Time}
    (h : c.Follows w past m) (hm : m ≤ wallOf date 0) :
    c.Follows (c.walkDate w date) (past ++ c.wallsOf date) (wallOf (date + 1) 0) := by
  have hblock := block_hours hz date (c := c)
  have hnodup : (c.wallsOf date).Nodup := (sorted_wallsOf hz date).imp ne_of_lt
  have hbetween := between_wallsOf hz date (c := c)
  rw [CronCall.walkDate]
  split
  · rename_i hexit
    exact h.stay hexit hm hnodup hbetween hblock.ordered (wallOf_next date)
  rename_i hgoing
  have hgoing := Bool.eq_false_of_not_eq_true hgoing
  split
  · rename_i hupper
    exact h.exit_upper hz hgoing hm hnodup hbetween hblock.ordered (wallOf_next date) hupper
  split
  · rename_i hmatch
    have hnone : c.wallsOf date = [] := by
      rw [Bool.not_eq_true'] at hmatch
      simp [wallsOf, hmatch]
    rw [hnone, List.append_nil]
    exact h.mono (hm.trans (hblock.ordered.trans (wallOf_next date).le))
  · rename_i hmatch
    have hall : c.wallsOf date = c.hoursOf date := by
      rw [Bool.not_eq_true', Bool.not_eq_false] at hmatch
      simp [wallsOf, hmatch]
    rw [hall]
    exact (hblock.follows w past hgoing (h.mono hm)).mono (Int.add_one_le_of_lt (wallOf_next date))

theorem wallOf_midnight_le {date date' : Int} (h : date ≤ date') : wallOf date 0 ≤ wallOf date' 0 := by
  have hday : (0 : Int) ≤ oneDay := by decide
  have hmul := mul_le_mul_of_nonneg_right h hday
  unfold wallOf
  linarith

theorem follows_dates (hz : c.zone.Steady) {dates : List Int} (hdates : dates.Pairwise (· < ·)) {w : CronWalk}
    {past : List Time} {m : Time} (h : c.Follows w past m) (hm : ∀ date ∈ dates, m ≤ wallOf date 0) :
    ∃ m', c.Follows (dates.foldl c.walkDate w) (past ++ dates.flatMap c.wallsOf) m' := by
  induction dates generalizing w past m with
  | nil => exact ⟨m, by simpa using h⟩
  | cons date dates ih =>
    obtain ⟨hlt, hdates⟩ := List.pairwise_cons.mp hdates
    rw [List.foldl_cons, List.flatMap_cons, ← List.append_assoc]
    refine ih hdates (h.walkDate hz (hm date List.mem_cons_self)) fun date' hdate' => ?_
    exact wallOf_midnight_le (Int.add_one_le_of_lt (hlt date' hdate'))

theorem pairwise_dates (c : CronCall) : c.dates.Pairwise (· < ·) := by
  refine List.pairwise_map.mpr (List.pairwise_lt_range.imp fun h => ?_)
  exact Int.add_lt_add_left (Int.ofNat_lt.mpr h) _

theorem wallOf_startDate_le (c : CronCall) : ∀ date ∈ c.dates, wallOf c.startDate 0 ≤ wallOf date 0 := by
  intro date hdate
  obtain ⟨i, -, rfl⟩ := List.mem_map.mp hdate
  exact wallOf_midnight_le (by omega)

theorem occurrences_eq (c : CronCall) (hz : c.zone.Steady) : c.occurrences = c.allOccurrences := by
  obtain ⟨m, h⟩ := follows_dates hz c.pairwise_dates (follows_start c _) c.wallOf_startDate_le
  rw [List.nil_append] at h
  change c.result _ = c.result (c.instants (c.dates.flatMap c.wallsOf))
  cases hexit : (c.dates.foldl c.walkDate ⟨[], 0, 0, false⟩).exited with
  | false => rw [(h.going hexit).1]
  | true =>
    have hresult := h.exited hexit [] (by simp)
    rw [List.append_nil] at hresult
    exact hresult.symm

end CronCall

/-- The bounds and the early exit lose nothing: the walk returns the instants of all wall-clock times of its
dates, each once, cut to the limit. -/
theorem cron_bounds_lose_nothing (c : CronCall) (hz : c.zone.Steady) : c.occurrences = c.allOccurrences :=
  c.occurrences_eq hz

def Zone.forward (b length : Time) (hlength : 0 ≤ length) : Zone where
  offsetAt t := if t < b then 0 else length
  atTimeZone wall := if wall < b + length then wall else wall - length
  later wall t h := by
    have hsame : (if wall < b + length then wall else wall - length) = t := by
      split at h
      · rename_i hbefore
        rw [add_zero] at h
        rw [← h, if_pos (by linarith)]
      · rename_i hafter
        rw [if_neg (by linarith [not_lt.mp hafter])]
        linarith
    rw [hsame]
    exact ⟨h, le_rfl⟩
  gap wall h := by
    have hge : ¬wall < b := fun hlt => h wall (by simp [hlt])
    have hbelow : wall < b + length := by
      by_contra hle
      refine h (wall - length) ?_
      rw [if_neg (by linarith [not_lt.mp hle])]
      exact Int.sub_add_cancel _ _
    refine ⟨b, ?_, ?_, ?_⟩
    · simpa using not_lt.mp hge
    · simpa using hbelow
    · simp [hbelow]

theorem Zone.listed_forward {b length : Time} (hlength : 0 ≤ length) (hle : length ≤ 16 * oneHour)
    (hsecond : oneSecond ∣ length) : (Zone.forward b length hlength).Listed := by
  have hzero : (0 : Int) ≤ 16 * oneHour := by decide
  refine ⟨0, [(b, length)], fun t => rfl, List.pairwise_singleton _ _, fun offset hoffset => ?_⟩
  simp only [List.map_cons, List.map_nil, List.mem_cons, List.not_mem_nil, or_false] at hoffset
  rcases hoffset with rfl | rfl
  · exact ⟨by linarith, hzero, dvd_zero _⟩
  · exact ⟨by linarith, hle, hsecond⟩

def halfHours : CronFields where
  seconds := [0]
  minutes := [0, 30]
  hours := [0]
  matchesDate _ := true
  seconds_ordered := by decide
  minutes_ordered := by decide
  hours_ordered := by decide
  seconds_le := by decide
  minutes_le := by decide
  hours_le := by decide

def overGap : CronCall := ⟨.forward 0 oneHour (by decide), halfHours, fun date => date - 46751, -oneHour, oneDay, 10⟩

theorem cron_bounds_lose_nothing_overGap :
    overGap.allOccurrences = [0, oneHour / 2, 23 * oneHour, 23 * oneHour + oneHour / 2] ∧
    overGap.occurrences = overGap.allOccurrences :=
  ⟨by decide +kernel, cron_bounds_lose_nothing overGap (Zone.listed_forward (by decide) (by decide) (by decide)).steady⟩

end Workhorse
