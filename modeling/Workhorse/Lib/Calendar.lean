import Mathlib.Algebra.Group.Int.Defs

/-!
# Dates

The proleptic Gregorian calendar. Day 0 is the first of January 1970. A year is counted from the first of March, so
that a leap day is its last day: 400 such years are 146097 days, 100 of them 36524 days, but the last hundred has a
day more, and 4 of them 1461 days, but the last four of a hundred may have a day less.
-/

namespace Calendar

structure Date where
  year : Int
  month : Nat
  day : Nat
deriving DecidableEq

def yearOfEra (day : Nat) : Nat × Nat :=
  let century := min 3 (day / 36524)
  let day := day - century * 36524
  let leap := day / 1461
  let day := day - leap * 1461
  let year := min 3 (day / 365)
  (century * 100 + leap * 4 + year, day - year * 365)

def yearStart (year : Nat) : Nat := year * 365 + year / 4 - year / 100

def monthOfYear (day : Nat) : Nat := (5 * day + 2) / 153

def monthStart (month : Nat) : Nat := (153 * month + 2) / 5

def civil (n : Int) : Date :=
  let (year, day) := yearOfEra ((n + 719468) % 146097).toNat
  let month := monthOfYear day
  { year := (n + 719468) / 146097 * 400 + year + if month < 10 then 0 else 1
    month := if month < 10 then month + 3 else month - 9
    day := day - monthStart month + 1 }

def Date.dayNumber (d : Date) : Int :=
  let year := d.year - if d.month ≤ 2 then 1 else 0
  let month := if d.month ≤ 2 then d.month + 9 else d.month - 3
  year / 400 * 146097 + yearStart (year % 400).toNat + monthStart month + d.day - 1 - 719468

theorem yearStart_add {century leap year : Nat} (hleap : leap ≤ 24) (hyear : year ≤ 3) :
    yearStart (century * 100 + leap * 4 + year) = century * 36524 + leap * 1461 + year * 365 := by
  have hfour : (century * 100 + leap * 4 + year) / 4 = century * 25 + leap := by omega
  have hhundred : (century * 100 + leap * 4 + year) / 100 = century := by omega
  rw [yearStart, hfour, hhundred]
  omega

theorem yearOfEra_spec {day : Nat} (h : day < 146097) :
    (yearOfEra day).1 < 400 ∧ (yearOfEra day).2 ≤ 365 ∧ yearStart (yearOfEra day).1 + (yearOfEra day).2 = day := by
  simp only [yearOfEra]
  obtain ⟨hcentury, hbelow⟩ : min 3 (day / 36524) ≤ 3 ∧ min 3 (day / 36524) * 36524 ≤ day := by omega
  have hday : day - min 3 (day / 36524) * 36524 ≤ 36524 := by omega
  generalize min 3 (day / 36524) = century at *
  generalize hrest : day - century * 36524 = rest at *
  obtain ⟨hleap, hleaps⟩ : rest / 1461 ≤ 24 ∧ rest / 1461 * 1461 ≤ rest := by omega
  have hfour : rest - rest / 1461 * 1461 ≤ 1460 := by omega
  generalize rest / 1461 = leap at *
  generalize hlast : rest - leap * 1461 = last at *
  rw [yearStart_add hleap (Nat.min_le_left _ _)]
  omega

theorem monthOfYear_spec {day : Nat} (h : day ≤ 365) : monthOfYear day ≤ 11 ∧ monthStart (monthOfYear day) ≤ day := by
  simp only [monthOfYear, monthStart]
  omega

theorem dayNumber_of_parts {era : Int} {year month day : Nat} (hyear : year < 400) (hmonth : month ≤ 11)
    (hday : monthStart month ≤ day) :
    Date.dayNumber ⟨era * 400 + year + if month < 10 then 0 else 1, if month < 10 then month + 3 else month - 9,
      day - monthStart month + 1⟩ = era * 146097 + (yearStart year + day : Nat) - 719468 := by
  have hera : (era * 400 + (year : Int)) / 400 = era := by omega
  have hrest : ((era * 400 + (year : Int)) % 400).toNat = year := by omega
  simp only [Date.dayNumber]
  by_cases hmarch : month < 10
  · have hlate : ¬month + 3 ≤ 2 := by omega
    simp only [hmarch, if_true, hlate, if_false, Int.add_zero, Int.sub_zero, Nat.add_sub_cancel, hera, hrest]
    omega
  · have hearly : month - 9 ≤ 2 := by omega
    have hback : month - 9 + 9 = month := by omega
    simp only [hmarch, if_false, hearly, if_true, Int.add_sub_cancel, hback, hera, hrest]
    omega

theorem civil_parts (n : Int) : ∃ (era : Int) (year day : Nat), year < 400 ∧ day ≤ 365 ∧
    yearStart year + day < 146097 ∧ n = era * 146097 + (yearStart year + day : Nat) - 719468 ∧
    civil n = ⟨era * 400 + year + if monthOfYear day < 10 then 0 else 1,
      if monthOfYear day < 10 then monthOfYear day + 3 else monthOfYear day - 9,
      day - monthStart (monthOfYear day) + 1⟩ := by
  have hera : ((n + 719468) % 146097).toNat < 146097 := by omega
  obtain ⟨hyear, hday, hsplit⟩ := yearOfEra_spec hera
  exact ⟨(n + 719468) / 146097, _, _, hyear, hday, by omega, by omega, rfl⟩

theorem dayNumber_civil (n : Int) : (civil n).dayNumber = n := by
  obtain ⟨era, year, day, hyear, hday, -, hn, hcivil⟩ := civil_parts n
  obtain ⟨hmonth, hstart⟩ := monthOfYear_spec hday
  rw [hcivil, hn]
  exact dayNumber_of_parts hyear hmonth hstart

/-- The first day of year 1 is day -719162. -/
theorem one_le_civil_year (n : Int) : 1 ≤ (civil n).year ↔ -719162 ≤ n := by
  obtain ⟨era, year, day, hyear, -, hera, hn, hcivil⟩ := civil_parts n
  have hstart : year = 0 ∧ yearStart year = 0 ∨ 0 < year ∧ 365 ≤ yearStart year := by
    have hleap : year / 100 ≤ year / 4 := Nat.div_le_div_left (by decide) (by decide)
    rcases Nat.eq_zero_or_pos year with rfl | hpos
    · exact .inl ⟨rfl, rfl⟩
    · exact .inr ⟨hpos, by rw [yearStart]; omega⟩
  have hmonth : monthOfYear day = (5 * day + 2) / 153 := rfl
  simp only [hcivil]
  split <;> omega

end Calendar
