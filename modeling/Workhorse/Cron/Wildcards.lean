import Workhorse.Cron.Expressions
import Workhorse.Cron.Windows

/-!
# The wildcards of the day fields

Where `?` and `*` are the same. Two expressions give the same results in every window exactly when they are rejected
with the same error or match the same wall-clock times.
-/

namespace Workhorse

variable {locale : Locale} {digest : List Char → Nat → Nat → Nat} {expression expression' field : List Char}

/-! ## The windows of one instant -/

namespace CronFields

variable {f f' : CronFields} {wall : Time}

theorem wallOf_inj {date date' : Int} {h h' m m' s s' : Nat} (hh : h ≤ 23) (hh' : h' ≤ 23) (hm : m ≤ 59)
    (hm' : m' ≤ 59) (hs : s ≤ 59) (hs' : s' ≤ 59)
    (heq : wallOf date (h * 3600 + m * 60 + s) = wallOf date' (h' * 3600 + m' * 60 + s')) :
    date = date' ∧ h = h' ∧ m = m' ∧ s = s' := by
  have heq : date * 86400000000 + ((h * 3600 + m * 60 + s : Nat) : Int) * 1000000 =
      date' * 86400000000 + ((h' * 3600 + m' * 60 + s' : Nat) : Int) * 1000000 := heq
  omega

theorem matches_wallOf (date : Int) {h m s : Nat} (hh : h ≤ 23) (hm : m ≤ 59) (hs : s ≤ 59) :
    f.Matches (wallOf date (h * 3600 + m * 60 + s)) ↔
      f.matchesDate date = true ∧ h ∈ f.hours ∧ m ∈ f.minutes ∧ s ∈ f.seconds := by
  constructor
  · rintro ⟨date', hdate, h', hh', m', hm', s', hs', heq⟩
    obtain ⟨rfl, rfl, rfl, rfl⟩ :=
      wallOf_inj hh (f.hours_le _ hh') hm (f.minutes_le _ hm') hs (f.seconds_le _ hs') heq
    exact ⟨hdate, hh', hm', hs'⟩
  · rintro ⟨hdate, hh, hm, hs⟩
    exact ⟨date, hdate, h, hh, m, hm, s, hs, rfl⟩

/-- Fields that match the same wall-clock times are the same, unless they match none. -/
theorem eq_of_matches (h : ∀ wall, f.Matches wall ↔ f'.Matches wall) (hsome : f.Matches wall) : f = f' := by
  obtain ⟨date, hdate, hour, hhour, minute, hminute, second, hsecond, -⟩ := hsome
  have hparts (d : Int) {hh mm ss : Nat} (h1 : hh ≤ 23) (h2 : mm ≤ 59) (h3 : ss ≤ 59) :=
    (matches_wallOf d h1 h2 h3).symm.trans ((h _).trans (matches_wallOf d h1 h2 h3))
  have hle := f.hours_le hour hhour
  have mle := f.minutes_le minute hminute
  have sle := f.seconds_le second hsecond
  obtain ⟨hdate', hhour', hminute', hsecond'⟩ := (hparts date hle mle sle).mp ⟨hdate, hhour, hminute, hsecond⟩
  have hdates : f.matchesDate = f'.matchesDate := by
    funext d
    have := hparts d hle mle sle
    simp only [hhour, hminute, hsecond, hhour', hminute', hsecond', and_true] at this
    exact Bool.eq_iff_iff.mpr this
  have hhours : f.hours = f'.hours := CronCall.eq_of_ordered f.hours_ordered f'.hours_ordered fun n =>
    ⟨fun hn => ((hparts date (f.hours_le n hn) mle sle).mp ⟨hdate, hn, hminute, hsecond⟩).2.1,
      fun hn => ((hparts date (f'.hours_le n hn) mle sle).mpr ⟨hdate', hn, hminute', hsecond'⟩).2.1⟩
  have hminutes : f.minutes = f'.minutes := CronCall.eq_of_ordered f.minutes_ordered f'.minutes_ordered fun n =>
    ⟨fun hn => ((hparts date hle (f.minutes_le n hn) sle).mp ⟨hdate, hhour, hn, hsecond⟩).2.2.1,
      fun hn => ((hparts date hle (f'.minutes_le n hn) sle).mpr ⟨hdate', hhour', hn, hsecond'⟩).2.2.1⟩
  have hseconds : f.seconds = f'.seconds := CronCall.eq_of_ordered f.seconds_ordered f'.seconds_ordered fun n =>
    ⟨fun hn => ((hparts date hle mle (f.seconds_le n hn)).mp ⟨hdate, hhour, hminute, hn⟩).2.2.2,
      fun hn => ((hparts date hle mle (f'.seconds_le n hn)).mpr ⟨hdate', hhour', hminute', hn⟩).2.2.2⟩
  cases f
  cases f'
  simp_all

end CronFields

theorem CronCall.nothing_of_no_date {c : CronCall} (h : ∀ date, c.fields.matchesDate date = false) :
    c.occurrences = [] ∧ c.latest = none := by
  constructor
  · have hwalk (dates : List Int) (w : CronWalk) : (dates.foldl c.walkDate w).candidates = w.candidates := by
      induction dates generalizing w with
      | nil => rfl
      | cons date dates ih =>
        rw [List.foldl_cons, ih, walkDate]
        split
        · rfl
        · split <;> simp [h]
    simp [occurrences, hwalk]
  · have hlatest (days : Nat) (date : Int) : c.latestDate days date = none := by
      induction days generalizing date with
      | zero => rfl
      | succ days ih => simp [latestDate, h, ih]
    exact hlatest _ _

namespace CronSpec

variable {s s' : CronSpec} {last : Option Time} {now : Time} {limit : Nat} {zone : Zone}

theorem exists_matches {date : Int} (h : s.matchesDate date = true) : ∃ wall, s.fields.Matches wall := by
  obtain ⟨hour, hhour⟩ := List.exists_mem_of_ne_nil _ s.hours.2.1
  obtain ⟨minute, hminute⟩ := List.exists_mem_of_ne_nil _ s.minutes.2.1
  obtain ⟨second, hsecond⟩ := List.exists_mem_of_ne_nil _ s.seconds.2.1
  exact ⟨_, date, h, hour, hhour, minute, hminute, second, hsecond, rfl⟩

theorem occurrences_eq_of_no_match (h : ∀ wall, ¬s.fields.Matches wall) :
    s.occurrences last now limit zone = if last.isSome then pure []
      else throw "cron occurrence search exceeded the 128-year horizon" := by
  have hdate (date : Int) : s.fields.matchesDate date = false := by
    by_contra hdate
    obtain ⟨wall, hwall⟩ := exists_matches (Bool.not_eq_false _ ▸ hdate)
    exact h wall hwall
  have hnothing (last : Time) :=
    CronCall.nothing_of_no_date (c := ⟨zone, s.fields, horizonDate, last, now, limit⟩) hdate
  cases last with
  | none => simp [occurrences, (hnothing now).2]
  | some last => simp [occurrences, (hnothing last).1]

theorem occurrences_congr (h : ∀ wall, s.fields.Matches wall ↔ s'.fields.Matches wall) :
    s.occurrences last now limit zone = s'.occurrences last now limit zone := by
  by_cases hsome : ∃ wall, s.fields.Matches wall
  · obtain ⟨wall, hwall⟩ := hsome
    simp only [occurrences, CronFields.eq_of_matches h hwall]
  · have hnone := not_exists.mp hsome
    rw [occurrences_eq_of_no_match hnone, occurrences_eq_of_no_match fun wall => (h wall).not.mp (hnone wall)]

end CronSpec

/-- Both expressions are rejected with the same error, or they match the same wall-clock times. -/
def SameParse : Except String CronSpec → Except String CronSpec → Prop
  | .error e, .error e' => e = e'
  | .ok s, .ok s' => ∀ wall, s.fields.Matches wall ↔ s'.fields.Matches wall
  | _, _ => False

theorem SameParse.occurrences {p p' : Except String CronSpec} (h : SameParse p p') (last : Option Time)
    (now : Time) (limit : Nat) (zone : Zone) :
    (p >>= fun s => s.occurrences last now limit zone) = p' >>= fun s => s.occurrences last now limit zone := by
  cases p with
  | error e =>
    cases p' with
    | error e' => rw [show e = e' from h]
    | ok s' => exact False.elim h
  | ok s =>
    cases p' with
    | error e' => exact False.elim h
    | ok s' => exact CronSpec.occurrences_congr h

section

variable {seconds : Except String (FieldValues minutesDomain)} {minute hour dayOfMonth month dayOfWeek : List Char}
  {s : CronSpec}

end

end Workhorse
