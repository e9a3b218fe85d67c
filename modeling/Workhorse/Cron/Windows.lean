import Mathlib.Algebra.Ring.Divisibility.Basic
import Mathlib.Tactic.Ring
import Workhorse.Cron.Theorems
import Workhorse.Schedule.Lemmas.Cron
import Workhorse.Stats.Lemmas.Buckets

/-!
# Results on the windows of an expression

Which instants a call returns, how the windows before and after an instant make up the whole, and what a call
without a position returns.
-/

namespace Workhorse

variable {walls : List Time}

def wallDate (wall : Time) : Int := wall / oneDay

def CronFields.Matches (f : CronFields) (wall : Time) : Prop :=
  ∃ date, f.matchesDate date = true ∧ ∃ hour ∈ f.hours, ∃ minute ∈ f.minutes, ∃ second ∈ f.seconds,
    wall = wallOf date (hour * 3600 + minute * 60 + second)

namespace CronCall

variable {c : CronCall} {date : Int} {wall t : Time}

/-- The position is not before the horizon, the limit is not reached, and what resolves in the window has a local
date from that of the position to that of `now`. The last fails only where a gap or a fold reaches over midnight at
an end of the window. -/
structure Sufficient (c : CronCall) : Prop where
  horizon : c.horizonDate c.endDate ≤ c.zone.dateAt c.last
  limit : (c.instants c.wallClocks).eraseDups.length ≤ c.limit
  dates : ∀ wall, c.fields.Matches wall → c.last < c.zone.resolve wall → c.zone.resolve wall ≤ c.now →
    c.zone.dateAt c.last ≤ wallDate wall ∧ wallDate wall ≤ c.endDate

theorem mem_hoursOf : wall ∈ c.hoursOf date ↔ ∃ hour ∈ c.fields.hours, ∃ minute ∈ c.fields.minutes,
    ∃ second ∈ c.fields.seconds, wall = wallOf date (hour * 3600 + minute * 60 + second) := by
  simp [hoursOf, minutesOf, secondsOf, eq_comm]

theorem mem_wallsOf : wall ∈ c.wallsOf date ↔ c.fields.matchesDate date = true ∧ wall ∈ c.hoursOf date := by
  unfold wallsOf
  split
  · rename_i h
    simp [h]
  · rename_i h
    simp [h]

theorem wallDate_of_mem (hz : c.zone.Steady) (h : wall ∈ c.wallsOf date) : wallDate wall = date := by
  obtain ⟨hlo, hhi⟩ := between_wallsOf hz date wall h
  have hnext := hhi.trans_lt (wallOf_next date)
  have hpos : (0 : Int) < oneDay := by decide
  simp only [wallOf, Nat.cast_zero, zero_mul, add_zero] at hlo hnext
  refine le_antisymm ?_ ((Int.le_ediv_iff_mul_le hpos).mpr hlo)
  exact Int.le_of_lt_add_one ((Int.ediv_lt_iff_lt_mul hpos).mpr hnext)

theorem mem_dates : date ∈ c.dates ↔ c.startDate ≤ date ∧ date ≤ c.endDate := by
  simp only [dates, List.mem_map, List.mem_range]
  constructor
  · rintro ⟨i, hi, rfl⟩
    omega
  · rintro ⟨hlo, hhi⟩
    exact ⟨(date - c.startDate).toNat, by omega, by omega⟩

theorem mem_instants : t ∈ c.instants walls ↔ (∃ wall ∈ walls, c.zone.resolve wall = t) ∧ c.inWindow t = true := by
  rw [instants, List.mem_filter, List.mem_map]

theorem truncSecond_resolve (hz : c.zone.Listed) (h : c.fields.Matches wall) :
    truncSecond (c.zone.resolve wall) = c.zone.resolve wall := by
  obtain ⟨date, -, hour, -, minute, -, second, -, rfl⟩ := h
  obtain ⟨u, hu, -⟩ := hz.steady.resolve_offset (wallOf date (hour * 3600 + minute * 60 + second))
  obtain ⟨first, changes, hoffset, -, hbounds⟩ := hz
  have hwall : oneSecond ∣ wallOf date (hour * 3600 + minute * 60 + second) :=
    dvd_add ((Dvd.intro_left 86400 rfl : oneSecond ∣ oneDay).mul_left date) (Dvd.intro_left _ rfl)
  have hdvd : oneSecond ∣ c.zone.resolve (wallOf date (hour * 3600 + minute * 60 + second)) := by
    rw [hu, hoffset]
    exact dvd_sub hwall (hbounds _ (offsetFrom_mem changes first u)).2.2
  have hmod : c.zone.resolve (wallOf date (hour * 3600 + minute * 60 + second)) % 1000000 = 0 :=
    Int.emod_eq_zero_of_dvd hdvd
  rw [truncSecond, hmod]
  exact sub_zero _

theorem truncSecond_le (t : Time) : truncSecond t ≤ t := by
  have hmod : (0 : Int) ≤ t % 1000000 := Int.emod_nonneg _ (by decide)
  rw [truncSecond]
  linarith

/-- The walk sees every wall-clock time that resolves in the window. -/
theorem mem_instants_wallClocks (hz : c.zone.Listed) (hc : c.Sufficient) : t ∈ c.instants c.wallClocks ↔
      c.last < t ∧ t ≤ c.now ∧ ∃ wall, c.fields.Matches wall ∧ c.zone.resolve wall = t := by
  rw [mem_instants, inWindow, Bool.and_eq_true, decide_eq_true_eq, decide_eq_true_eq]
  constructor
  · rintro ⟨⟨wall, hwall, rfl⟩, hlast, hnow⟩
    obtain ⟨date, -, hwall⟩ := List.mem_flatMap.mp hwall
    obtain ⟨hmatch, hwall⟩ := mem_wallsOf.mp hwall
    exact ⟨hlast, hnow.trans (truncSecond_le c.now), wall, ⟨date, hmatch, mem_hoursOf.mp hwall⟩, rfl⟩
  · rintro ⟨hlast, hnow, wall, hmatches, rfl⟩
    have htrunc := truncSecond_resolve hz hmatches
    obtain ⟨hlo, hhi⟩ := hc.dates wall hmatches hlast hnow
    obtain ⟨date, hmatch, hwall⟩ := hmatches
    have hmem : wall ∈ c.wallsOf date := mem_wallsOf.mpr ⟨hmatch, mem_hoursOf.mpr hwall⟩
    rw [wallDate_of_mem hz.steady hmem] at hlo hhi
    refine ⟨⟨wall, List.mem_flatMap.mpr ⟨date, mem_dates.mpr ⟨?_, hhi⟩, hmem⟩, rfl⟩, hlast, ?_⟩
    · exact max_le hlo (hc.horizon.trans hlo)
    · exact (le_truncSecond_iff htrunc).mpr hnow

theorem occurrences_of_sufficient (hz : c.zone.Listed) (hc : c.Sufficient) :
    c.occurrences = (c.instants c.wallClocks).eraseDups :=
  (c.occurrences_eq hz.steady).trans (List.take_of_length_le hc.limit)

/-! ## The expression of a schedule -/

def wallClock (c : CronCall) (wall : Time) : WallClock :=
  ⟨wallDate wall, c.zone.resolve wall, c.zone.wallAt (c.zone.resolve wall) ≠ wall⟩

/-- An expression of a schedule that has the wall-clock times of a call on the dates that the call visits. -/
structure Describes (e : Cron) (c : CronCall) : Prop where
  dates : e.dateOf = c.zone.dateAt
  horizon : e.horizonDate = c.horizonDate
  wallClocks : e.wallClocks.filter (e.visits c.last c.now) = c.wallClocks.map c.wallClock

theorem Describes.occurrences_eq {e : Cron} (h : Describes e c) (hz : c.zone.Steady) :
    e.occurrences c.last c.now c.limit = c.occurrences := by
  rw [Cron.occurrences_eq, Cron.window, h.wallClocks, CronCall.occurrences_eq c hz, allOccurrences,
    List.filter_map, List.map_map, List.filter_map]
  rfl

theorem sorted_successive (hz : c.zone.Steady) (start : Int) (days : Nat) :
    (((List.range days).map fun (i : Nat) => start + i).flatMap c.wallsOf).Pairwise (· < ·) := by
  refine pairwise_flatMap_blocks (fun date _ => sorted_wallsOf hz date) (fun date _ => between_wallsOf hz date) ?_
  refine List.pairwise_map.mpr (List.pairwise_lt_range.imp fun {i j} h => ?_)
  exact (wallOf_next _).trans_le (wallOf_midnight_le (by omega))

/-- The wall-clock times of some successive dates. -/
def wallsFrom (c : CronCall) (first : Int) (days : Nat) : List Time :=
  ((List.range days).map fun (i : Nat) => first + i).flatMap c.wallsOf

theorem mem_wallsFrom (hz : c.zone.Steady) {first : Int} {days : Nat} : wall ∈ c.wallsFrom first days ↔
    c.fields.Matches wall ∧ first ≤ wallDate wall ∧ wallDate wall < first + days := by
  simp only [wallsFrom, List.mem_flatMap, List.mem_map, List.mem_range]
  constructor
  · rintro ⟨_, ⟨i, hi, rfl⟩, hwall⟩
    rw [wallDate_of_mem hz hwall]
    obtain ⟨hmatch, hwall⟩ := mem_wallsOf.mp hwall
    exact ⟨⟨_, hmatch, mem_hoursOf.mp hwall⟩, by omega, by omega⟩
  · rintro ⟨⟨date, hmatch, hwall⟩, hlo, hhi⟩
    have hwall := mem_wallsOf.mpr ⟨hmatch, mem_hoursOf.mpr hwall⟩
    rw [wallDate_of_mem hz hwall] at hlo hhi
    exact ⟨date, ⟨(date - first).toNat, by omega, by omega⟩, hwall⟩

/-- The wall-clock times of successive dates make up an expression. One that is not normalized is read back from its
instant, so no two of them share one. -/
def toCron (c : CronCall) (hz : c.zone.Listed) (first : Int) (days : Nat) : Cron where
  wallClocks := (c.wallsFrom first days).map c.wallClock
  dateOf := c.zone.dateAt
  horizonDate := c.horizonDate
  whole := by
    intro w hw
    obtain ⟨wall, hwall, rfl⟩ := List.mem_map.mp hw
    exact truncSecond_resolve hz ((mem_wallsFrom hz.steady).mp hwall).1
  exact := by
    rw [List.filter_map, List.map_map]
    refine List.Nodup.map_on ?_ ((sorted_successive hz.steady _ _).nodup.filter _)
    intro wall hwall wall' hwall' heq
    have hback : c.zone.wallAt (c.zone.resolve wall) = wall := by
      simpa [wallClock] using (List.mem_filter.mp hwall).2
    have hback' : c.zone.wallAt (c.zone.resolve wall') = wall' := by
      simpa [wallClock] using (List.mem_filter.mp hwall').2
    rw [← hback, ← hback']
    exact congrArg c.zone.wallAt heq

theorem eq_of_ordered {α : Type} [LinearOrder α] {l l' : List α} (h : l.Pairwise (· < ·)) (h' : l'.Pairwise (· < ·))
    (hmem : ∀ n, n ∈ l ↔ n ∈ l') : l = l' :=
  ((List.perm_ext_iff_of_nodup h.nodup h'.nodup).mpr hmem).eq_of_pairwise
    (fun _ _ _ _ h₁ h₂ => absurd (h₁.trans h₂) (lt_irrefl _)) h h'

/-- The expression of enough dates is that of every call that visits no others. -/
theorem describes_toCron (hz : c.zone.Listed) (first : Int) (days : Nat) (hfirst : first ≤ c.startDate)
    (hlast : c.endDate < first + days) : Describes (c.toCron hz first days) c where
  dates := rfl
  horizon := rfl
  wallClocks := by
    change ((c.wallsFrom first days).map c.wallClock).filter _ = _
    rw [List.filter_map]
    refine congrArg (List.map c.wallClock) (eq_of_ordered ((sorted_successive hz.steady _ _).filter _)
      (sorted_successive hz.steady _ _) fun wall => ?_)
    have hvisits : (c.toCron hz first days).visits c.last c.now (c.wallClock wall) = true ↔
        c.startDate ≤ wallDate wall ∧ wallDate wall ≤ c.endDate := by
      rw [Cron.visits, Bool.and_eq_true, decide_eq_true_eq, decide_eq_true_eq]
      rfl
    rw [List.mem_filter, Function.comp_apply, hvisits, mem_wallsFrom hz.steady]
    refine Iff.trans ?_ (show wall ∈ c.wallsFrom c.startDate _ ↔ _ from mem_wallsFrom hz.steady).symm
    constructor
    · rintro ⟨⟨hmatch, -, -⟩, hlo, hhi⟩
      exact ⟨hmatch, hlo, by omega⟩
    · rintro ⟨hmatch, hlo, hhi⟩
      exact ⟨⟨hmatch, by omega, by omega⟩, hlo, by omega⟩

/-! ## A call without a position -/

def datesTo (days : Nat) (date : Int) : List Int := (List.range days).map fun (i : Nat) => date - days + 1 + i

def horizonWalls (c : CronCall) : List Time :=
  (datesTo (c.endDate - c.horizonDate c.endDate + 1).toNat c.endDate).flatMap c.wallsOf

def found (c : CronCall) (wall : Time) : Option Time :=
  if c.zone.resolve wall ≤ c.nowSecond then some (c.zone.resolve wall) else none

theorem found_eq_none_of_upper (hz : c.zone.Steady) (h : c.upperWall < wall) : c.found wall = none :=
  if_neg (not_le.mpr (lt_resolve_of_upper hz h))

theorem findSome?_eq_none_of_upper (hz : c.zone.Steady) {first : Time}
    (hfirst : ∀ wall ∈ walls, first ≤ wall) (h : c.upperWall < first) : walls.reverse.findSome? c.found = none := by
  refine List.findSome?_eq_none_iff.mpr fun wall hwall => ?_
  exact found_eq_none_of_upper hz (h.trans_le (hfirst wall (List.mem_reverse.mp hwall)))

theorem findSome?_reverse_flatMap {α : Type} {l : List α} {walls : α → List Time} :
    (l.flatMap walls).reverse.findSome? c.found = l.reverse.findSome? fun x => (walls x).reverse.findSome? c.found := by
  rw [List.reverse_flatMap]
  induction l.reverse with
  | nil => rfl
  | cons x l ih =>
    rw [List.flatMap_cons, List.findSome?_append, List.findSome?_cons, ih]
    cases h : (walls x).reverse.findSome? c.found <;> simp [Function.comp, h]

/-- The bound of a block skips nothing that would be found. -/
theorem skip_block (hz : c.zone.Steady) {first final : Time} {inner : CronWalk → CronWalk}
    (hb : c.Block first final walls inner) {x : Option Time} (hx : x = walls.reverse.findSome? c.found) :
    (if c.upperWall < first then none else x) = walls.reverse.findSome? c.found := by
  split
  · rename_i h
    exact (findSome?_eq_none_of_upper hz (fun wall hwall => (hb.between wall hwall).1) h).symm
  · exact hx

theorem latestSecond_eq (hz : c.zone.Steady) (date : Int) (minuteSecond : Nat) :
    c.latestSecond date minuteSecond = (c.secondsOf date minuteSecond).reverse.findSome? c.found := by
  rw [latestSecond, secondsOf, ← List.map_reverse, List.findSome?_map]
  congr 1
  funext second
  dsimp only [Function.comp]
  split
  · rename_i h
    exact (found_eq_none_of_upper hz h).symm
  · rfl

theorem latestMinute_eq (hz : c.zone.Steady) (date : Int) (hourSecond : Nat) :
    c.latestMinute date hourSecond = (c.minutesOf date hourSecond).reverse.findSome? c.found := by
  rw [latestMinute, minutesOf, findSome?_reverse_flatMap]
  congr 1
  funext minute
  exact skip_block hz (block_seconds hz date _) (latestSecond_eq hz date _)

theorem latestHour_eq (hz : c.zone.Steady) (date : Int) :
    c.latestHour date = (c.hoursOf date).reverse.findSome? c.found := by
  rw [latestHour, hoursOf, findSome?_reverse_flatMap]
  congr 1
  funext hour
  exact skip_block hz (block_minutes hz date _) (latestMinute_eq hz date _)

theorem datesTo_succ (days : Nat) (date : Int) : datesTo (days + 1) date = datesTo days (date - 1) ++ [date] := by
  rw [datesTo, List.range_succ, List.map_append, datesTo]
  congr 1
  · refine List.map_congr_left fun i _ => ?_
    push_cast
    ring
  · refine congrArg (fun date => [date]) ?_
    push_cast
    ring

theorem latestDate_eq (hz : c.zone.Steady) (days : Nat) (date : Int) :
    c.latestDate days date = ((datesTo days date).flatMap c.wallsOf).reverse.findSome? c.found := by
  induction days generalizing date with
  | zero => rfl
  | succ days ih =>
    have hdate : (if c.fields.matchesDate date then c.latestHour date else none) =
        (c.wallsOf date).reverse.findSome? c.found := by
      rw [latestHour_eq hz, wallsOf]
      cases c.fields.matchesDate date <;> rfl
    rw [latestDate, ih, hdate, datesTo_succ, List.flatMap_append, List.reverse_append, List.findSome?_append,
      List.flatMap_singleton]

theorem sorted_horizonWalls (hz : c.zone.Steady) : c.horizonWalls.Pairwise (· < ·) := sorted_successive hz _ _

/-- The wall-clock times of which a call without a position may return the instant. -/
def reached (c : CronCall) : Set Time := {wall | c.fields.Matches wall ∧ c.horizonDate c.endDate ≤ wallDate wall ∧
  wallDate wall ≤ c.endDate ∧ c.zone.resolve wall ≤ c.now}

theorem mem_reached (hz : c.zone.Listed) :
    wall ∈ c.reached ↔ wall ∈ c.horizonWalls ∧ c.zone.resolve wall ≤ c.nowSecond := by
  have hwalls : c.horizonWalls = c.wallsFrom (c.endDate - (c.endDate - c.horizonDate c.endDate + 1).toNat + 1)
      (c.endDate - c.horizonDate c.endDate + 1).toNat := rfl
  rw [hwalls, mem_wallsFrom hz.steady]
  constructor
  · rintro ⟨hmatch, hlo, hhi, hnow⟩
    exact ⟨⟨hmatch, by omega, by omega⟩, (le_truncSecond_iff (truncSecond_resolve hz hmatch)).mpr hnow⟩
  · rintro ⟨⟨hmatch, hlo, hhi⟩, hnow⟩
    exact ⟨hmatch, by omega, by omega, hnow.trans (truncSecond_le c.now)⟩

/-- A call without a position returns the instant of the last wall-clock time that is not after `now`. -/
theorem latest_of_some (hz : c.zone.Listed) (h : c.latest = some t) :
    ∃ wall, IsGreatest c.reached wall ∧ c.zone.resolve wall = t := by
  rw [latest, latestDate_eq hz.steady, ← horizonWalls] at h
  obtain ⟨before, wall, after, hsplit, hfound, hnone⟩ := List.findSome?_eq_some_iff.mp h
  have hwalls : c.horizonWalls = after.reverse ++ wall :: before.reverse := by
    have := congrArg List.reverse hsplit
    simpa using this
  unfold found at hfound
  split at hfound
  · rename_i hle
    refine ⟨wall, ⟨(mem_reached hz).mpr ⟨by simp [hwalls], hle⟩, fun wall' hwall' => ?_⟩, Option.some.inj hfound⟩
    obtain ⟨hwall', hle'⟩ := (mem_reached hz).mp hwall'
    have hsorted := sorted_horizonWalls hz.steady (c := c)
    rw [hwalls] at hwall' hsorted
    obtain hwall' | hwall' := List.mem_append.mp hwall'
    · exact ((List.pairwise_append.mp hsorted).2.2 wall' hwall' wall List.mem_cons_self).le
    · obtain rfl | hwall' := List.mem_cons.mp hwall'
      · exact le_rfl
      · have hskipped := hnone wall' (List.mem_reverse.mp hwall')
        simp [found, hle'] at hskipped
  · cases hfound

theorem latest_of_none (hz : c.zone.Listed) (h : c.latest = none) : c.reached = ∅ := by
  rw [latest, latestDate_eq hz.steady, ← horizonWalls] at h
  refine Set.eq_empty_of_forall_notMem fun wall hwall => ?_
  obtain ⟨hwall, hle⟩ := (mem_reached hz).mp hwall
  have hskipped := List.findSome?_eq_none_iff.mp h wall (List.mem_reverse.mpr hwall)
  simp [found, hle] at hskipped

theorem latest_eq_some_iff (hz : c.zone.Listed) :
    c.latest = some t ↔ ∃ wall, IsGreatest c.reached wall ∧ c.zone.resolve wall = t := by
  refine ⟨latest_of_some hz, ?_⟩
  rintro ⟨wall, hgreatest, rfl⟩
  cases h : c.latest with
  | none =>
    have hmem := hgreatest.1
    rw [latest_of_none hz h] at hmem
    cases hmem
  | some t =>
    obtain ⟨wall', hgreatest', rfl⟩ := latest_of_some hz h
    rw [hgreatest.unique hgreatest']

end CronCall

open CronCall

/-- A call over a sufficient window returns exactly the instants of the window to which a wall-clock time that
matches resolves, each once, in the order of their first wall-clock times. The windows before and after an instant
have the same occurrences as the whole. Without a position, a call returns the instant of the greatest wall-clock time
on a date from the horizon to that of `now` that does not resolve after `now`. -/
theorem cron_windows_exact (c : CronCall) (hz : c.zone.Listed) :
    (c.Sufficient →
      c.occurrences = ((c.wallClocks.map c.zone.resolve).filter c.inWindow).eraseDups ∧ c.occurrences.Nodup ∧
      (∀ t, t ∈ c.occurrences ↔ c.last < t ∧ t ≤ c.now ∧ ∃ wall, c.fields.Matches wall ∧ c.zone.resolve wall = t) ∧
      ∀ b, c.last ≤ b → b ≤ c.now → Sufficient { c with now := b } → Sufficient { c with last := b } →
        ∀ t, t ∈ c.occurrences ↔
          t ∈ CronCall.occurrences { c with now := b } ∨ t ∈ CronCall.occurrences { c with last := b }) ∧
    ∀ t, c.latest = some t ↔ ∃ wall, IsGreatest {wall | c.fields.Matches wall ∧
      c.horizonDate c.endDate ≤ wallDate wall ∧ wallDate wall ≤ c.endDate ∧ c.zone.resolve wall ≤ c.now} wall ∧
      c.zone.resolve wall = t := by
  have hmem (c : CronCall) (hz : c.zone.Listed) (hc : c.Sufficient) (t : Time) :
      t ∈ c.occurrences ↔ c.last < t ∧ t ≤ c.now ∧ ∃ wall, c.fields.Matches wall ∧ c.zone.resolve wall = t := by
    rw [occurrences_of_sufficient hz hc, List.mem_eraseDups, mem_instants_wallClocks hz hc]
  refine ⟨fun hc => ⟨occurrences_of_sufficient hz hc, ?_, hmem c hz hc, ?_⟩, fun t => latest_eq_some_iff hz⟩
  · rw [occurrences_of_sufficient hz hc]
    exact (eraseDups_sublist_nodup _).2
  · intro b hlast hnow hbefore hafter t
    rw [hmem c hz hc, hmem { c with now := b } hz hbefore, hmem { c with last := b } hz hafter]
    constructor
    · rintro ⟨h1, h2, hwall⟩
      rcases le_or_gt t b with hle | hgt
      · exact .inl ⟨h1, hle, hwall⟩
      · exact .inr ⟨hgt, h2, hwall⟩
    · rintro (⟨h1, h2, hwall⟩ | ⟨h1, h2, hwall⟩)
      · exact ⟨h1, h2.trans hnow, hwall⟩
      · exact ⟨hlast.trans_lt h1, h2, hwall⟩

theorem overGap_listed : overGap.zone.Listed := Zone.listed_forward (by decide) (by decide) (by decide)

theorem overGap_sufficient : overGap.Sufficient where
  horizon := by decide +kernel
  limit := by decide +kernel
  dates wall _ hlast hnow := by
    obtain ⟨t, heq, -⟩ := overGap_listed.steady.resolve_offset wall
    have hoffset : overGap.zone.offsetAt t = if t < 0 then 0 else 3600000000 := rfl
    rw [heq, hoffset] at hlast hnow
    have key : ∀ wall offset : Int, 0 ≤ offset → offset ≤ 3600000000 → -3600000000 < wall - offset →
        wall - offset ≤ 86400000000 → -1 ≤ wall / 86400000000 ∧ wall / 86400000000 ≤ 1 := by
      intro wall offset h1 h2 h3 h4
      omega
    refine key wall _ ?_ ?_ hlast hnow <;> split <;> decide

theorem cron_windows_exact_overGap : overGap.occurrences.length = 4 ∧
    (23 * oneHour ∈ overGap.occurrences ↔ overGap.last < 23 * oneHour ∧ 23 * oneHour ≤ overGap.now ∧
      ∃ wall, overGap.fields.Matches wall ∧ overGap.zone.resolve wall = 23 * oneHour) :=
  ⟨by decide +kernel, ((cron_windows_exact overGap overGap_listed).1 overGap_sufficient).2.2.1 (23 * oneHour)⟩

/-- The nested walk with its bounds and early ends returns what the plain walk of a schedule with the same wall-clock
times returns, and there is such a schedule: one for all calls whose dates stay within bounds. -/
theorem nested_walk_eq_plain (c : CronCall) (hz : c.zone.Listed) : (∃ e, CronCall.Describes e c) ∧
    (∀ e : Cron, CronCall.Describes e c → e.occurrences c.last c.now c.limit = c.occurrences) ∧
    ∀ first days, ∃ e : Cron, ∀ c' : CronCall, c'.zone = c.zone → c'.fields = c.fields →
      c'.horizonDate = c.horizonDate → first ≤ c'.startDate → c'.endDate < first + (days : Nat) →
      e.occurrences c'.last c'.now c'.limit = c'.occurrences := by
  refine ⟨⟨_, CronCall.describes_toCron hz c.startDate (c.endDate - c.startDate + 1).toNat le_rfl (by omega)⟩,
    fun _ h => h.occurrences_eq hz.steady, fun first days => ⟨c.toCron hz first days, ?_⟩⟩
  rintro ⟨_, _, _, last, now, limit⟩ rfl rfl rfl hfirst hlast
  have hdescribes := CronCall.describes_toCron (c := { c with last, now, limit }) hz first days hfirst hlast
  exact hdescribes.occurrences_eq hz.steady

theorem nested_walk_eq_plain_overGap : ∃ e : Cron, ∀ now, overGap.zone.dateAt now ≤ 1 →
    e.occurrences overGap.last now overGap.limit = CronCall.occurrences { overGap with now } := by
  obtain ⟨e, h⟩ := (nested_walk_eq_plain overGap overGap_listed).2.2 (-1) 3
  have hlast : (-1 : Int) ≤ overGap.zone.dateAt overGap.last := by decide
  refine ⟨e, fun now hnow => h { overGap with now } rfl rfl rfl (le_max_of_le_left hlast) ?_⟩
  exact Int.lt_add_one_of_le hnow

def quarterAndHalf : CronFields :=
  { halfHours with minutes := [15, 30], minutes_ordered := by decide, minutes_le := by decide }

def overHalfHour (now : Time) : CronCall :=
  ⟨.forward 0 (oneHour / 2) (by decide), quarterAndHalf, fun date => date - 46751, -oneHour, now, 10⟩

/-- A quarter to midnight, in a gap from half an hour before midnight to half an hour after it. -/
def overMidnight : CronCall where
  zone := .forward (-(oneHour / 2)) oneHour oneHour_pos.le
  fields := { halfHours with
    minutes := [45], hours := [23], minutes_ordered := by decide, hours_ordered := by decide,
    minutes_le := by decide, hours_le := by decide }
  horizonDate date := date - 46751
  last := -(oneHour / 3)
  now := oneHour
  limit := 10

/-- A quarter past midnight is in the gap and resolves after half past, which is its end. So instants are not in
order, and a call without a position does not return the latest one. In a gap over midnight, the wall-clock time
is on the date before that of the position, and its instant is lost. -/
theorem cron_windows_not_ordered : (overHalfHour oneHour).zone.Listed ∧
    (overHalfHour oneHour).occurrences = [oneHour / 4, 0] ∧ (overHalfHour (oneHour / 3)).latest = some 0 ∧
    oneHour / 4 ∈ (overHalfHour (oneHour / 3)).occurrences ∧ overMidnight.zone.Listed ∧
    overMidnight.zone.resolve (wallOf (-1) 85500) = -(oneHour / 4) ∧ overMidnight.inWindow (-(oneHour / 4)) = true ∧
    overMidnight.occurrences = [] :=
  ⟨Zone.listed_forward (by decide) (by decide) (by decide), by decide +kernel, by decide +kernel, by decide +kernel,
    Zone.listed_forward oneHour_pos.le (by decide) (by decide), by decide +kernel, by decide +kernel, by decide +kernel⟩

end Workhorse
