import Workhorse.Cron.Fields

/-!
# Cron expressions

`expand_cron_macro_v1` and `cron_occurrences_v1` from the text of an expression on. The walk over the dates is that of
`CronCall`.
-/

namespace Workhorse

section

variable (locale : Locale)

def FieldValues (d : CronDomain) : Type :=
  {values : List Nat // values ≠ [] ∧ values.Pairwise (· < ·) ∧ ∀ n ∈ values, d.minimum ≤ n ∧ n ≤ d.maximum}

structure DayOfMonth where
  /-- `v_dom_wildcard`. -/
  wildcard : Bool
  last : Bool
  values : List Nat
deriving DecidableEq

structure DayOfWeek where
  /-- `v_dow_wildcard`. -/
  wildcard : Bool
  lastWeekdays : List Nat
  nthWeekdays : List (Nat × Nat)
  values : List Nat
deriving DecidableEq

structure CronSpec where
  seconds : FieldValues minutesDomain
  minutes : FieldValues minutesDomain
  hours : FieldValues hoursDomain
  months : FieldValues monthsDomain
  dayOfMonth : DayOfMonth
  dayOfWeek : DayOfWeek

namespace CronSpec

variable (s : CronSpec)

def month (date : Int) : Nat := (Calendar.civil date).month

/-- `extract(dow FROM v_date)`. Day 0 was a Thursday. -/
def weekday (date : Int) : Nat := ((date + 4) % 7).toNat

/-- `v_dom_match`. -/
def matchesDayOfMonth (date : Int) : Bool :=
  (Calendar.civil date).day ∈ s.dayOfMonth.values || (s.dayOfMonth.last && month (date + 1) ≠ month date)

/-- `v_dow_match`. -/
def matchesDayOfWeek (date : Int) : Bool := weekday date ∈ s.dayOfWeek.values ||
    (weekday date ∈ s.dayOfWeek.lastWeekdays && month (date + 7) ≠ month date) ||
    s.dayOfWeek.nthWeekdays.any fun nth =>
      weekday date = nth.1 && ((Calendar.civil date).day - 1) / 7 + 1 = nth.2

/-- Whether a date has a month of the expression and `v_day_match`. -/
def matchesDate (date : Int) : Bool := month date ∈ s.months.1 &&
    if s.dayOfMonth.wildcard then s.matchesDayOfWeek date
    else if s.dayOfWeek.wildcard then s.matchesDayOfMonth date
    else s.matchesDayOfMonth date || s.matchesDayOfWeek date

def fields : CronFields where
  seconds := s.seconds.1
  minutes := s.minutes.1
  hours := s.hours.1
  matchesDate := s.matchesDate
  seconds_ordered := s.seconds.2.2.1
  minutes_ordered := s.minutes.2.2.1
  hours_ordered := s.hours.2.2.1
  seconds_le n hn := (s.seconds.2.2.2 n hn).2
  minutes_le n hn := (s.minutes.2.2.2 n hn).2
  hours_le n hn := (s.hours.2.2.2 n hn).2

end CronSpec

/-- A date 128 years before. The last of February has no counterpart in a year that is no leap year. -/
def horizonDate (date : Int) : Int :=
  let d := Calendar.civil date
  let leap := (d.year - 128) % 4 = 0 ∧ ((d.year - 128) % 100 ≠ 0 ∨ (d.year - 128) % 400 = 0)
  Calendar.Date.dayNumber ⟨d.year - 128, d.month, if d.month = 2 ∧ d.day = 29 ∧ ¬leap then 28 else d.day⟩

def CronSpec.occurrences (s : CronSpec) (last : Option Time) (now : Time) (limit : Nat) (zone : Zone) :
    Except String (List Time) :=
  match last with
  | some last => pure (CronCall.occurrences ⟨zone, s.fields, horizonDate, last, now, limit⟩)
  | none =>
    match CronCall.latest ⟨zone, s.fields, horizonDate, now, now, limit⟩ with
    | some t => pure [t]
    | none => throw "cron occurrence search exceeded the 128-year horizon"

end

end Workhorse
