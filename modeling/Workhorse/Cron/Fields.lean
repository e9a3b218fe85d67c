import Workhorse.Cron.Walk
import Workhorse.Lib.Calendar
import Workhorse.Lib.Text

/-!
# The fields of a cron expression

`cron_field_values_v1` and `expand_hashed_cron_field_v1`. A text is the list of its characters. The digest of a hashed
token is a parameter, and so is the locale of the database.
-/

namespace Workhorse

/-- The functions `upper` and `lower` and the class `\s`. In every locale `upper` leaves capital letters and signs
as they are. -/
structure Locale where
  upper : List Char → List Char
  lower : List Char → List Char
  isSpace : Char → Bool
  upper_fixed : ∀ text, (∀ c ∈ text, c.isUpper = true ∨ c = '*' ∨ c = '?') → upper text = text
  lower_nil : lower [] = []

theorem toUpper_of_isUpper {c : Char} (h : c.isUpper = true) : c.toUpper = c := by
  have hz : c.val ≤ 'Z'.val := (of_decide_eq_true h).2
  have hnot : ¬('a'.val ≤ c.val ∧ c.val ≤ 'z'.val) := by
    rintro ⟨ha, -⟩
    exact absurd (UInt32.le_trans ha hz) (by decide)
  exact dif_neg hnot

/-- The locale `C`. -/
def Locale.c : Locale where
  upper text := text.map Char.toUpper
  lower text := text.map Char.toLower
  isSpace c := c = ' ' || ('\t' ≤ c && c ≤ '\r')
  upper_fixed text h := by
    rw [List.map_congr_left fun c hc => ?_, List.map_id']
    rcases h c hc with hupper | rfl | rfl
    · exact toUpper_of_isUpper hupper
    · rfl
    · rfl
  lower_nil := rfl

def number (digits : List Char) : Nat := Nat.ofDigitChars 10 digits 0

/-- The arguments of `cron_field_values_v1` next to the field: its domain. -/
structure CronDomain where
  minimum : Nat
  maximum : Nat
  names : List (List Char)
  sundayAlias : Bool
  /-- Seven is a second name of Sunday, the first weekday. -/
  weekdays : sundayAlias = true → minimum = 0 ∧ maximum = 6

namespace CronDomain

variable (locale : Locale) (d : CronDomain)

variable {locale d} {field token : List Char} {values : List Nat}

end CronDomain

def CronDomain.numbers (minimum maximum : Nat) : CronDomain := ⟨minimum, maximum, [], false, by simp⟩

def minutesDomain : CronDomain := .numbers 0 59

def hoursDomain : CronDomain := .numbers 0 23

def monthsDomain : CronDomain where
  minimum := 1
  maximum := 12
  names := ["JAN", "FEB", "MAR", "APR", "MAY", "JUN", "JUL", "AUG", "SEP", "OCT", "NOV", "DEC"].map String.toList
  sundayAlias := false
  weekdays := by simp

end Workhorse
