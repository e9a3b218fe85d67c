import Workhorse.Cron.Theorems
import Workhorse.Lib.Offsets

/-!
# Wall-clock resolution

`resolve_cron_wall_clock_v1` probes the offsets around the instant that `AT TIME ZONE` gives. Where the changes of
a zone are 5 days apart and below 24 hours, the first probe sees the offset of the other reading in a fold.
-/

namespace Workhorse

namespace Zone

variable {z : Zone} {wall t : Time}

/-- A zone that is given by changes of its offset, at least 5 days apart and each below 24 hours. -/
def Spaced (z : Zone) : Prop := Offset.Spaced z.offsetAt oneDay

/-- A wall-clock time that the change at `b` skips. -/
def Gap (z : Zone) (b wall : Time) : Prop := Offset.Gap z.offsetAt b wall

/-! ## The loop over the probes -/

variable (wall) in
theorem foldl_le_acc (l : List Int) (f : Int → Time) {acc : Option Time} (e : Time) (he : acc = some e) :
    ∃ e', l.foldl (fun earliest hours =>
      if z.wallAt (f hours) = wall ∧ (earliest.all fun e => f hours < e) then some (f hours) else earliest) acc =
      some e' ∧ e' ≤ e := by
  induction l generalizing acc e with
  | nil => exact ⟨e, he, le_rfl⟩
  | cons hours l ih =>
    subst he
    rw [List.foldl_cons]
    split
    · rename_i h
      obtain ⟨e', he', hle⟩ := ih (f hours) rfl
      have hlt : f hours < e := by simpa using h.2
      exact ⟨e', he', hle.trans hlt.le⟩
    · exact ih e rfl

theorem foldl_le_probe (l : List Int) (f : Int → Time) (acc : Option Time) {hours : Int} (hmem : hours ∈ l)
    (hwall : z.wallAt (f hours) = wall) :
    ∃ e, l.foldl (fun earliest hours =>
      if z.wallAt (f hours) = wall ∧ (earliest.all fun e => f hours < e) then some (f hours) else earliest) acc =
      some e ∧ e ≤ f hours := by
  induction l generalizing acc with
  | nil => cases hmem
  | cons first l ih =>
    rw [List.foldl_cons]
    obtain rfl | hmem := List.mem_cons.mp hmem
    · by_cases hall : (acc.all fun e => f hours < e) = true
      · rw [if_pos ⟨hwall, hall⟩]
        exact foldl_le_acc wall l f (f hours) rfl
      · rw [if_neg fun h => hall h.2]
        cases acc with
        | none => simp at hall
        | some e =>
          obtain ⟨e', he', hle⟩ := foldl_le_acc (z := z) wall l f e (rfl : some e = some e)
          have : e ≤ f hours := by simpa using hall
          exact ⟨e', he', hle.trans this⟩
    · exact ih _ hmem

/-- A resolved instant is not after a probe that shows the wall-clock time. -/
theorem resolve_le_probe {hours : Int} (hmem : hours ∈ ([-48, -24, 0, 24, 48] : List Int))
    (hwall : z.wallAt (wall - z.offsetAt (z.atTimeZone wall + hours * oneHour)) = wall) :
    z.resolve wall ≤ wall - z.offsetAt (z.atTimeZone wall + hours * oneHour) := by
  obtain ⟨e, he, hle⟩ := foldl_le_probe (z := z) [-48, -24, 0, 24, 48]
    (fun hours => wall - z.offsetAt (z.atTimeZone wall + hours * oneHour)) none hmem hwall
  simp only [resolve]
  rw [he]
  exact hle

/-! ## Readings -/

theorem wallAt_atTimeZone (h : z.wallAt t = wall) : z.wallAt (z.atTimeZone wall) = wall ∧ t ≤ z.atTimeZone wall :=
  z.later wall t h

theorem wallAt_resolve (h : z.wallAt t = wall) : z.wallAt (z.resolve wall) = wall := by
  rcases z.resolve_cases wall with hread | ⟨b, hle, hlt, heq⟩
  · exact hread
  · -- Where no probe shows the wall-clock time, the default does.
    obtain ⟨hdefault, -⟩ := wallAt_atTimeZone h
    rw [resolve]
    dsimp only
    cases hearliest : ([-48, -24, 0, 24, 48] : List Int).foldl (fun earliest hours =>
      if z.wallAt (wall - z.offsetAt (z.atTimeZone wall + hours * oneHour)) = wall ∧
        (earliest.all fun e => wall - z.offsetAt (z.atTimeZone wall + hours * oneHour) < e) then
        some (wall - z.offsetAt (z.atTimeZone wall + hours * oneHour)) else earliest) none with
    | some e =>
      exact wallAt_foldl [-48, -24, 0, 24, 48]
        (fun hours => wall - z.offsetAt (z.atTimeZone wall + hours * oneHour)) (by simp) e hearliest
    | none => exact hdefault

theorem Spaced.resolve_le (hz : z.Spaced) (h : z.wallAt t = wall) : z.resolve wall ≤ t := by
  obtain ⟨hdefault, hle⟩ := wallAt_atTimeZone h
  have hreads (hours : Int) (hmem : hours ∈ ([-48, -24, 0, 24, 48] : List Int))
      (hsame : z.offsetAt t = z.offsetAt (z.atTimeZone wall + hours * oneHour)) : z.resolve wall ≤ t := by
    have hcandidate : wall - z.offsetAt (z.atTimeZone wall + hours * oneHour) = t := by
      rw [← hsame, ← h, wallAt, add_sub_cancel_right]
    rw [← hcandidate]
    exact resolve_le_probe hmem (by rw [hcandidate, h])
  have hfold : z.atTimeZone wall + z.offsetAt (z.atTimeZone wall) ≤ t + z.offsetAt t := le_of_eq (hdefault.trans h.symm)
  cases lt_or_eq_of_le hle with
  | inl hlt =>
    obtain ⟨hnear, -⟩ := Offset.Spaced.near hz hle hfold
    have hday : (0 : Int) < oneDay := by decide
    have hhours : (-48 : Int) * oneHour = -(2 * oneDay) := by decide
    refine hreads (-48) (by decide) (Offset.Spaced.before_fold hz hlt hfold ?_ ?_) <;> rw [hhours] <;> linarith
  | inr heq => exact hreads 0 (by decide) (by simp [heq])

theorem Spaced.isLeast_resolve (hz : z.Spaced) (h : z.wallAt t = wall) :
    IsLeast {u | z.wallAt u = wall} (z.resolve wall) := ⟨wallAt_resolve h, fun _ hu => hz.resolve_le hu⟩

end Zone

open Zone

/-- In a zone whose changes are 5 days apart and below 24 hours, a wall-clock time resolves to its earliest reading.
One that no instant shows is in the gap of one change, and the offset from just before the gap gives the instant.
Outside gaps, a later wall-clock time does not resolve to an earlier instant. -/
theorem resolve_wall_clock (z : Zone) (hz : z.Spaced) :
    (∀ wall t, z.wallAt t = wall → IsLeast {u | z.wallAt u = wall} (z.resolve wall)) ∧
    (∀ wall, (∀ t, z.wallAt t ≠ wall) →
      ∃ b, z.Gap b wall ∧ (∀ c, z.Gap c wall → c = b) ∧ z.resolve wall = wall - z.offsetAt (b - 1)) ∧
    ∀ wall wall' t t', z.wallAt t = wall → z.wallAt t' = wall' → wall ≤ wall' → z.resolve wall ≤ z.resolve wall' := by
  refine ⟨fun wall t h => hz.isLeast_resolve h, ?_, ?_⟩
  · intro wall hnone
    cases z.resolve_cases wall with
    | inl hread => exact absurd hread (hnone _)
    | inr hgap =>
      obtain ⟨b, hle, hlt, heq⟩ := hgap
      exact ⟨b, ⟨hle, hlt⟩, fun c hc => Offset.Spaced.gap_unique hz hc ⟨hle, hlt⟩, heq⟩
  · intro wall wall' t t' h h' hle
    exact Offset.Spaced.least_mono hz (hz.isLeast_resolve h) (wallAt_resolve h') hle

def Zone.backward (b length : Time) (hlength : 0 ≤ length) : Zone where
  offsetAt t := if t < b then length else 0
  atTimeZone wall := if wall < b then wall - length else wall
  later wall t h := by
    by_cases hwall : wall < b
    · have hbefore : wall - length < b := by linarith
      have hle : t ≤ wall - length := by
        split at h
        · linarith
        · rename_i hge
          linarith [not_lt.mp hge]
      simp [hwall, hbefore, hle]
    · have hle : t ≤ wall := by
        split at h <;> linarith
      simp [hwall, hle]
  gap wall h := by
    exfalso
    by_cases hwall : wall < b
    · have hbefore : wall - length < b := by linarith
      exact h (wall - length) (by simp [hbefore])
    · exact h wall (by simp [hwall])

theorem Zone.spaced_backward {b length : Time} (hlength : 0 ≤ length) (hlt : length < oneDay) :
    (Zone.backward b length hlength).Spaced := by
  have hoffset (t : Time) : (Zone.backward b length hlength).offsetAt t = if t < b then length else 0 := rfl
  have hchange (c : Int) (hc : Offset.Changes (Zone.backward b length hlength).offsetAt c) : c = b := by
    rw [Offset.Changes, hoffset, hoffset] at hc
    by_contra hne
    cases lt_or_gt_of_ne hne with
    | inl hlt => simp [hlt, show c - 1 < b by linarith] at hc
    | inr hgt => simp [not_lt.mpr hgt.le, not_lt.mpr (Int.le_sub_one_of_lt hgt)] at hc
  constructor
  · intro c d hcd hc hd
    rw [hchange c hc, hchange d hd] at hcd
    exact absurd hcd (lt_irrefl b)
  · intro c
    have hday : (0 : Int) < oneDay := by decide
    rw [hoffset, hoffset, abs_lt]
    constructor <;> split <;> split <;> linarith

theorem oneHour_nonneg : 0 ≤ oneHour := by decide

def oneHourBack : Zone := .backward 0 oneHour oneHour_nonneg

/-- Half past midnight is shown twice. -/
theorem resolve_wall_clock_oneHourBack : oneHourBack.resolve (oneHour / 2) = -(oneHour / 2) ∧
    IsLeast {u | oneHourBack.wallAt u = oneHour / 2} (oneHourBack.resolve (oneHour / 2)) :=
  ⟨by decide +kernel, (resolve_wall_clock oneHourBack (Zone.spaced_backward oneHour_nonneg (by decide))).1
    (oneHour / 2) (oneHour / 2) (by decide +kernel)⟩

end Workhorse
