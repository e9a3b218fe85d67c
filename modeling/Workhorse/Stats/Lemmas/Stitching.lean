import Workhorse.Stats.Lemmas.Buckets

/-!
# Stitched reads

Which raw minutes each part of a read adds up, and when the parts are a partition of the window.
-/

namespace Workhorse

open Table

variable {raw : Buckets} {s : StatState} {lo hi : Time} {tier : StatTier}

/-! ## The parts -/

def StatTier.takesMinute (tier : StatTier) (lo hi watermark t : Time) : Bool := lo ≤ t && t < min hi watermark &&
    (!(tier == .hour || tier == .day) || t < boundaryFrom oneHour lo || dateBin oneHour hi ≤ t)

def StatTier.takesHour (tier : StatTier) (lo hi t : Time) : Bool :=
  (tier == .hour || tier == .day) && (boundaryFrom oneHour lo ≤ t && t < dateBin oneHour hi) &&
    (!(tier == .day) || t < boundaryFrom oneDay lo || dateBin oneDay hi ≤ t)

def StatTier.takesDay (tier : StatTier) (lo hi t : Time) : Bool :=
  tier == .day && (boundaryFrom oneDay lo ≤ t && t < dateBin oneDay hi)

def takesLive (lo hi watermark t : Time) : Bool := watermark < hi && (max lo watermark ≤ t && t < hi)

theorem statBuckets_eq (htier : statWindowTier lo hi = .ok tier) : statBuckets raw s lo hi = .ok (
    s.minute.rows.filter (fun e => tier.takesMinute lo hi s.rolledUpThrough e.1.bucketStart) ++
    s.hour.rows.filter (fun e => tier.takesHour lo hi e.1.bucketStart) ++
    s.day.rows.filter (fun e => tier.takesDay lo hi e.1.bucketStart) ++
    raw.rows.filter fun e => takesLive lo hi s.rolledUpThrough e.1.bucketStart) := by
  have hlive : raw.rows.filter (fun e => takesLive lo hi s.rolledUpThrough e.1.bucketStart) =
      if s.rolledUpThrough < hi then (aggregateStats raw (max lo s.rolledUpThrough) hi).rows else [] := by
    split
    · rename_i h
      simp [takesLive, h, aggregateStats, Table.filter, BucketKey.within]
    · rename_i h
      simp [takesLive, h]
  rw [hlive]
  simp only [statBuckets, htier]
  rfl

/-- The read adds up raw minutes: those of its minute rows, of the hours and days of its coarse rows, and
those it derives live. -/
theorem total_statBuckets (hex : Exact raw s) (htier : statWindowTier lo hi = .ok tier)
    {rows : List (BucketKey × StatRow)} (hrows : statBuckets raw s lo hi = .ok rows)
    {p : BucketKey → Bool} (hp : ∀ unit k, p (k.bin unit) = p k) :
    total p rows = total (fun k => p k && tier.takesMinute lo hi s.rolledUpThrough k.bucketStart) raw.rows +
      total (fun k => p k && (tier.takesHour lo hi (dateBin oneHour k.bucketStart) &&
        decide (dateBin oneHour k.bucketStart < s.hourlyRolledUpThrough))) raw.rows +
      total (fun k => p k && (tier.takesDay lo hi (dateBin oneDay k.bucketStart) &&
        decide (dateBin oneDay k.bucketStart < s.dailyRolledUpThrough))) raw.rows +
      total (fun k => p k && takesLive lo hi s.rolledUpThrough k.bucketStart) raw.rows := by
  rw [statBuckets_eq htier] at hrows
  cases hrows
  rw [total_append, total_append, total_append]
  have hminute := total_filter p
    (fun k => tier.takesMinute lo hi s.rolledUpThrough k.bucketStart) s.minute.rows
  have hhour := total_filter p (fun k => tier.takesHour lo hi k.bucketStart) s.hour.rows
  have hday := total_filter p (fun k => tier.takesDay lo hi k.bucketStart) s.day.rows
  have hlive := total_filter p
    (fun k => takesLive lo hi s.rolledUpThrough k.bucketStart) raw.rows
  rw [hminute, hhour, hday, hlive, total_coarse hex.hour, total_coarse hex.day]
  congr 1
  congr 1
  congr 1
  · refine total_eq_of_get? fun k hk => hex.minute k ?_
    simp only [StatTier.takesMinute, Bool.and_eq_true, decide_eq_true_eq] at hk
    exact hk.2.1.2.trans_le (min_le_right _ _)
  · refine total_congr fun e _ => ?_
    rw [hp, Bool.and_assoc]
    rfl
  · refine total_congr fun e _ => ?_
    rw [hp, Bool.and_assoc]
    rfl

theorem total_or {p q : BucketKey → Bool} {rows : List (BucketKey × StatRow)}
    (h : ∀ e ∈ rows, p e.1 = true → q e.1 = false) :
    total p rows + total q rows = total (fun k => p k || q k) rows := by
  have hp : total p rows = total (fun k => (p k || q k) && p k) rows := by
    refine total_congr fun e _ => ?_
    cases p e.1 <;> simp
  have hq : total q rows = total (fun k => (p k || q k) && !p k) rows := by
    refine total_congr fun e he => ?_
    have hdisjoint := h e he
    cases hpe : p e.1 with
    | false => simp
    | true => simp [hdisjoint hpe]
  rw [hp, hq, ← total_split]

/-! ## Seams -/

/-- No time of `[lo, hi)` lies between two watermarks. -/
def Clear (lo hi a b : Int) : Prop := min hi (max a b) ≤ max lo (min a b)

theorem Clear.lt_iff {lo hi a b t : Int} (h : Clear lo hi a b) (hlo : lo ≤ t) (hhi : t < hi) : t < a ↔ t < b := by
  unfold Clear at h
  omega

/-- Otherwise, one such time is a bound of the interval or a watermark. -/
theorem exists_of_not_clear {lo hi a b : Int} (h : ¬Clear lo hi a b) : ∃ t, (t = lo ∨ t = a ∨ t = b) ∧
    lo ≤ t ∧ t < hi ∧ (a ≤ t ∧ t < b ∨ b ≤ t ∧ t < a) := by
  unfold Clear at h
  refine ⟨max lo (min a b), ?_, ?_, ?_, ?_⟩ <;> omega

/-- The window's whole hours hold nothing between the minute and the hour watermark, and its whole days
nothing between the minute and the day watermark. -/
def Seamless (tier : StatTier) (lo hi minute hour day : Time) : Prop :=
  match tier with
  | .minute => True
  | .hour => Clear lo (dateBin oneHour hi) minute hour
  | .day => Clear (dateBin oneDay hi) (dateBin oneHour hi) minute hour ∧ Clear lo (dateBin oneDay hi) minute day

/-- How often a read counts the minute at `t`. -/
def counted (tier : StatTier) (lo hi minute hour day t : Time) : Nat :=
  (if tier.takesMinute lo hi minute t then 1 else 0) +
  (if tier.takesHour lo hi (dateBin oneHour t) && decide (dateBin oneHour t < hour) then 1 else 0) +
  (if tier.takesDay lo hi (dateBin oneDay t) && decide (dateBin oneDay t < day) then 1 else 0) +
  if takesLive lo hi minute t then 1 else 0

section Count

variable {minute hour day t : Time} (hhour : oneHour ∣ hour) (hday : oneDay ∣ day)
  (htier : statWindowTier lo hi = .ok tier)

include hhour hday htier

theorem takes_iff : (tier.takesMinute lo hi minute t = true ↔ lo ≤ t ∧ t < hi ∧ t < minute ∧
      (tier ≠ .minute → dateBin oneHour hi ≤ t)) ∧
    ((tier.takesHour lo hi (dateBin oneHour t) && decide (dateBin oneHour t < hour)) = true ↔
      tier ≠ .minute ∧ lo ≤ t ∧ t < dateBin oneHour hi ∧ t < hour ∧ (tier = .day → dateBin oneDay hi ≤ t)) ∧
    ((tier.takesDay lo hi (dateBin oneDay t) && decide (dateBin oneDay t < day)) = true ↔
      tier = .day ∧ lo ≤ t ∧ t < dateBin oneDay hi ∧ t < day) ∧
    (takesLive lo hi minute t = true ↔ minute ≤ t ∧ lo ≤ t ∧ t < hi) := by
  obtain ⟨hlt, hlo⟩ := statWindowTier_cases htier
  have hh := @dateBin_lt_iff oneHour hour t oneHour_pos hhour
  have hd := @dateBin_lt_iff oneDay day t oneDay_pos hday
  have hhe := @dateBin_lt_iff oneHour (dateBin oneHour hi) t oneHour_pos dvd_dateBin
  have hde := @dateBin_lt_iff oneDay (dateBin oneDay hi) t oneDay_pos dvd_dateBin
  have hde' := @le_dateBin_iff oneHour (dateBin oneDay hi) t oneHour_pos
    (oneHour_dvd_oneDay.trans dvd_dateBin)
  have hlive : takesLive lo hi minute t = true ↔ minute ≤ t ∧ lo ≤ t ∧ t < hi := by
    simp only [takesLive, Bool.and_eq_true, decide_eq_true_eq, max_le_iff]
    constructor
    · rintro ⟨-, ⟨hl, hm⟩, ht⟩
      exact ⟨hm, hl, ht⟩
    · rintro ⟨hm, hl, ht⟩
      exact ⟨hm.trans_lt ht, ⟨hl, hm⟩, ht⟩
  refine ⟨?_, ?_, ?_, hlive⟩
  · cases tier with
    | minute => simp [StatTier.takesMinute]
    | hour =>
      simp only [StatTier.takesMinute, boundaryFrom_of_dvd hlo]
      simp
      grind
    | day =>
      simp only [StatTier.takesMinute, boundaryFrom_of_dvd (oneHour_dvd_oneDay.trans hlo)]
      simp
      grind
  · cases tier with
    | minute => simp [StatTier.takesHour]
    | hour =>
      have hle := @le_dateBin_iff oneHour lo t oneHour_pos hlo
      simp only [StatTier.takesHour, boundaryFrom_of_dvd hlo]
      simp [hle, hhe, hh, and_assoc]
    | day =>
      have hle := @le_dateBin_iff oneHour lo t oneHour_pos (oneHour_dvd_oneDay.trans hlo)
      simp only [StatTier.takesHour, boundaryFrom_of_dvd (oneHour_dvd_oneDay.trans hlo), boundaryFrom_of_dvd hlo]
      simp [hle, hhe, hh, hde']
      grind
  · cases tier with
    | minute => simp [StatTier.takesDay]
    | hour => simp [StatTier.takesDay]
    | day =>
      have hle := @le_dateBin_iff oneDay lo t oneDay_pos hlo
      simp only [StatTier.takesDay, boundaryFrom_of_dvd hlo]
      simp [hle, hde, hd, and_assoc]

/-- A minute between two watermarks is counted twice or not at all. -/
theorem counted_ne_one (hlo : lo ≤ t) (hthi : t < hi)
    (hbetween : (tier ≠ .minute ∧ t < dateBin oneHour hi ∧ (tier = .day → dateBin oneDay hi ≤ t) ∧
        (minute ≤ t ∧ t < hour ∨ hour ≤ t ∧ t < minute)) ∨
      (tier = .day ∧ t < dateBin oneDay hi ∧ (minute ≤ t ∧ t < day ∨ day ≤ t ∧ t < minute))) :
    counted tier lo hi minute hour day t ≠ 1 := by
  obtain ⟨hm, hh, hd, hl⟩ := @takes_iff lo hi tier minute hour day t hhour hday htier
  have hde : dateBin oneDay hi ≤ dateBin oneHour hi :=
    (le_dateBin_iff oneHour_pos (oneHour_dvd_oneDay.trans dvd_dateBin)).mpr (dateBin_le oneDay_pos)
  simp only [counted, hm, hh, hd, hl]
  clear hm hh hd hl
  rcases hbetween with ⟨htier', hend, hstart, hbetween⟩ | ⟨rfl, hend, hbetween⟩
  · have hmin : ¬(lo ≤ t ∧ t < hi ∧ t < minute ∧ (tier ≠ .minute → dateBin oneHour hi ≤ t)) :=
      fun h => not_le.mpr hend (h.2.2.2 htier')
    have hday : ¬(tier = .day ∧ lo ≤ t ∧ t < dateBin oneDay hi ∧ t < day) :=
      fun h => not_le.mpr h.2.2.1 (hstart h.1)
    rw [if_neg hmin, if_neg hday]
    rcases hbetween with ⟨hle, hlt⟩ | ⟨hle, hlt⟩
    · rw [if_pos ⟨htier', hlo, hend, hlt, hstart⟩, if_pos ⟨hle, hlo, hthi⟩]
      decide
    · rw [if_neg fun h => not_lt.mpr hle h.2.2.2.1, if_neg fun h => not_le.mpr hlt h.1]
      decide
  · have hmin : ¬(lo ≤ t ∧ t < hi ∧ t < minute ∧ (StatTier.day ≠ .minute → dateBin oneHour hi ≤ t)) :=
      fun h => not_le.mpr (hend.trans_le hde) (h.2.2.2 (by simp))
    have hhour : ¬(StatTier.day ≠ .minute ∧ lo ≤ t ∧ t < dateBin oneHour hi ∧ t < hour ∧
        (StatTier.day = .day → dateBin oneDay hi ≤ t)) :=
      fun h => not_le.mpr hend (h.2.2.2.2 rfl)
    rw [if_neg hmin, if_neg hhour]
    rcases hbetween with ⟨hle, hlt⟩ | ⟨hle, hlt⟩
    · rw [if_pos ⟨rfl, hlo, hend, hlt⟩, if_pos ⟨hle, hlo, hthi⟩]
      decide
    · rw [if_neg fun h => not_lt.mpr hle h.2.2.2, if_neg fun h => not_le.mpr hlt h.1]
      decide

omit hhour hday htier in
theorem parts_partition {lo hi hourEnd dayEnd minute hour day t : Int} (hhe : hourEnd ≤ hi)
    (hde : dayEnd ≤ hourEnd)
    (hc : lo ≤ t → (tier ≠ .minute → t < hourEnd → (tier = .day → dayEnd ≤ t) → (t < minute ↔ t < hour)) ∧
      (tier = .day → t < dayEnd → (t < minute ↔ t < day))) :
    (lo ≤ t ∧ t < hi ∧ t < minute ∧ (tier ≠ .minute → hourEnd ≤ t) →
      ¬(tier ≠ .minute ∧ lo ≤ t ∧ t < hourEnd ∧ t < hour ∧ (tier = .day → dayEnd ≤ t))) ∧
    ((lo ≤ t ∧ t < hi ∧ t < minute ∧ (tier ≠ .minute → hourEnd ≤ t)) ∨
      (tier ≠ .minute ∧ lo ≤ t ∧ t < hourEnd ∧ t < hour ∧ (tier = .day → dayEnd ≤ t)) →
      ¬(tier = .day ∧ lo ≤ t ∧ t < dayEnd ∧ t < day)) ∧
    (((lo ≤ t ∧ t < hi ∧ t < minute ∧ (tier ≠ .minute → hourEnd ≤ t)) ∨
      (tier ≠ .minute ∧ lo ≤ t ∧ t < hourEnd ∧ t < hour ∧ (tier = .day → dayEnd ≤ t))) ∨
      (tier = .day ∧ lo ≤ t ∧ t < dayEnd ∧ t < day) → ¬(minute ≤ t ∧ lo ≤ t ∧ t < hi)) ∧
    ((((lo ≤ t ∧ t < hi ∧ t < minute ∧ (tier ≠ .minute → hourEnd ≤ t)) ∨
      (tier ≠ .minute ∧ lo ≤ t ∧ t < hourEnd ∧ t < hour ∧ (tier = .day → dayEnd ≤ t))) ∨
      (tier = .day ∧ lo ≤ t ∧ t < dayEnd ∧ t < day)) ∨ (minute ≤ t ∧ lo ≤ t ∧ t < hi) ↔ lo ≤ t ∧ t < hi) := by
  cases tier with
  | minute => refine ⟨?_, ?_, ?_, ?_⟩ <;> grind
  | hour => refine ⟨?_, ?_, ?_, ?_⟩ <;> grind
  | day => refine ⟨?_, ?_, ?_, ?_⟩ <;> grind

/-- With no seam in the window, the parts are a partition of it. -/
theorem partition (hseam : Seamless tier lo hi minute hour day) (p : BucketKey → Bool)
    (rows : List (BucketKey × StatRow)) :
    total (fun k => p k && tier.takesMinute lo hi minute k.bucketStart) rows +
      total (fun k => p k && (tier.takesHour lo hi (dateBin oneHour k.bucketStart) &&
        decide (dateBin oneHour k.bucketStart < hour))) rows +
      total (fun k => p k && (tier.takesDay lo hi (dateBin oneDay k.bucketStart) &&
        decide (dateBin oneDay k.bucketStart < day))) rows +
      total (fun k => p k && takesLive lo hi minute k.bucketStart) rows =
    total (fun k => p k && k.within lo hi) rows := by
  have hiff (t : Time) := @takes_iff lo hi tier minute hour day t hhour hday htier
  have hlt := (statWindowTier_cases htier).1
  have hhe : dateBin oneHour hi ≤ hi := dateBin_le oneHour_pos
  have hde : dateBin oneDay hi ≤ dateBin oneHour hi :=
    (le_dateBin_iff oneHour_pos (oneHour_dvd_oneDay.trans dvd_dateBin)).mpr (dateBin_le oneDay_pos)
  have hclear (t : Int) (hlo : lo ≤ t) : (tier ≠ .minute → t < dateBin oneHour hi →
      (tier = .day → dateBin oneDay hi ≤ t) → (t < minute ↔ t < hour)) ∧
      (tier = .day → t < dateBin oneDay hi → (t < minute ↔ t < day)) := by
    cases tier with
    | minute => exact ⟨fun h => absurd rfl h, fun h => by cases h⟩
    | hour => exact ⟨fun _ hhi _ => Clear.lt_iff hseam hlo hhi, fun h => by cases h⟩
    | day =>
      exact ⟨fun _ hhi hd => Clear.lt_iff hseam.1 (hd rfl) hhi, fun _ hhi => Clear.lt_iff hseam.2 hlo hhi⟩
  -- A minute of the window is in one part, and no other minute is in any.
  have hparts (t : Time) : (tier.takesMinute lo hi minute t = true → (tier.takesHour lo hi (dateBin oneHour t) &&
        decide (dateBin oneHour t < hour)) = false) ∧
      ((tier.takesMinute lo hi minute t || (tier.takesHour lo hi (dateBin oneHour t) &&
        decide (dateBin oneHour t < hour))) = true →
          (tier.takesDay lo hi (dateBin oneDay t) && decide (dateBin oneDay t < day)) = false) ∧
      (((tier.takesMinute lo hi minute t || (tier.takesHour lo hi (dateBin oneHour t) &&
        decide (dateBin oneHour t < hour))) || (tier.takesDay lo hi (dateBin oneDay t) &&
          decide (dateBin oneDay t < day))) = true → takesLive lo hi minute t = false) ∧
      (((tier.takesMinute lo hi minute t || (tier.takesHour lo hi (dateBin oneHour t) &&
        decide (dateBin oneHour t < hour))) || (tier.takesDay lo hi (dateBin oneDay t) &&
          decide (dateBin oneDay t < day)) || takesLive lo hi minute t) = true ↔ lo ≤ t ∧ t < hi) := by
    obtain ⟨hm, hh, hd, hl⟩ := hiff t
    have hc := hclear t
    simp only [← Bool.not_eq_true, Bool.or_eq_true, hm, hh, hd, hl]
    clear hm hh hd hl hclear hseam hiff
    exact parts_partition hhe hde hc
  rw [total_or, total_or, total_or]
  · refine total_congr fun e _ => ?_
    have he := (hparts e.1.bucketStart).2.2.2
    rw [Bool.eq_iff_iff]
    simp only [Bool.or_eq_true, Bool.and_eq_true, decide_eq_true_eq] at he
    simp only [BucketKey.within, Bool.or_eq_true, Bool.and_eq_true, decide_eq_true_eq]
    rw [← and_or_left, ← and_or_left, ← and_or_left]
    exact and_congr_right fun _ => he
  · intro e _ he
    have hlast := (hparts e.1.bucketStart).2.2.1
    cases hp : p e.1 <;> simp [hp] at he ⊢
    exact hlast (by simpa using he)
  · intro e _ he
    have hlast := (hparts e.1.bucketStart).2.1
    cases hp : p e.1 <;> simp [hp] at he ⊢
    simpa using hlast (by simpa using he)
  · intro e _ he
    have hlast := (hparts e.1.bucketStart).1
    cases hp : p e.1 <;> simp [hp] at he ⊢
    simpa using hlast (by simpa using he)

end Count

/-! ## One raw row -/

def StatState.exactly (raw : Buckets) (minute hour day : Time) : StatState where
  minute := raw
  hour := (groupSum (·.bin oneHour) raw.rows).filter fun k _ => k.bucketStart < hour
  day := (groupSum (·.bin oneDay) raw.rows).filter fun k _ => k.bucketStart < day
  rolledUpThrough := minute
  hourlyRolledUpThrough := hour
  dailyRolledUpThrough := day
  lastRunAt := none

theorem get?_below (t : Buckets) (watermark : Time) (k : BucketKey) :
    (t.filter fun k _ => k.bucketStart < watermark).get? k = if k.bucketStart < watermark then t.get? k else none := by
  rw [get?_filter]
  by_cases h : k.bucketStart < watermark
  · cases t.get? k <;> simp [h]
  · simp [h]

theorem exact_exactly (raw : Buckets) (minute hour day : Time) : Exact raw (.exactly raw minute hour day) :=
  ⟨fun _ _ => rfl, get?_below _ hour, get?_below _ day⟩

/-- One task enqueued in the minute at `t`. -/
def enqueuedAt (t : Time) : Buckets := Table.empty.put ⟨t, "q", "t"⟩ fun m => if m = .enqueued then 1 else 0

theorem total_enqueuedAt (p : BucketKey → Bool) (t : Time) :
    total p (enqueuedAt t).rows .enqueued = if p ⟨t, "q", "t"⟩ then 1 else 0 := by
  simp only [enqueuedAt, rows_put_of_none (get?_empty _), total_cons]
  split
  · simp [Table.empty]
  · simp [Table.empty]

end Workhorse
