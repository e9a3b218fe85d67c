import Mathlib.Tactic.Linarith
import Workhorse.Cron.Walk

/-!
# The bounds of the cron walk

Offsets are sampled every 8 hours around the ends of the window. In a zone whose offsets last 8 hours each, the
samples see every offset that could bring a wall-clock time beyond a bound into the window.
-/

namespace Workhorse

/-- A zone whose offsets stay within 16 hours of UTC and last at least 8 hours each. Its gaps are at most 32
hours long. -/
structure Zone.Steady (z : Zone) : Prop where
  within : ∀ t, -(16 * oneHour) ≤ z.offsetAt t ∧ z.offsetAt t ≤ 16 * oneHour
  lasts : ∀ t, ∃ a, a ≤ t ∧ t < a + 8 * oneHour ∧ ∀ u, a ≤ u → u < a + 8 * oneHour → z.offsetAt u = z.offsetAt t

def offsetFrom : List (Time × Time) → Time → Time → Time
  | [], first, _ => first
  | (b, offset) :: changes, first, t => if t < b then first else offsetFrom changes offset t

/-- A zone that is given by a finite list of changes, at least 5 days apart. The offsets are in whole seconds and
stay within 16 hours of UTC. -/
def Zone.Listed (z : Zone) : Prop := ∃ first changes, (∀ t, z.offsetAt t = offsetFrom changes first t) ∧
    changes.Pairwise (fun x y => x.1 + 5 * oneDay ≤ y.1) ∧ ∀ offset ∈ first :: changes.map Prod.snd,
      -(16 * oneHour) ≤ offset ∧ offset ≤ 16 * oneHour ∧ oneSecond ∣ offset

theorem offsetFrom_mem (changes : List (Time × Time)) (first t : Time) :
    offsetFrom changes first t ∈ first :: changes.map Prod.snd := by
  induction changes generalizing first with
  | nil => exact List.mem_singleton.mpr rfl
  | cons change changes ih =>
    obtain ⟨b, offset⟩ := change
    rw [offsetFrom]
    split
    · exact List.mem_cons_self
    · exact List.mem_cons_of_mem _ (ih offset)

theorem offsetFrom_lasts {changes : List (Time × Time)} {start : Time} (first : Time)
    (hstart : ∀ x ∈ changes, start + 8 * oneHour ≤ x.1)
    (hchanges : changes.Pairwise fun x y => x.1 + 8 * oneHour ≤ y.1) {t : Time} (ht : start ≤ t) :
    ∃ a, start ≤ a ∧ a ≤ t ∧ t < a + 8 * oneHour ∧
      ∀ u, a ≤ u → u < a + 8 * oneHour → offsetFrom changes first u = offsetFrom changes first t := by
  have hpos : (0 : Int) < 8 * oneHour := by decide
  induction changes generalizing first start with
  | nil => exact ⟨t, ht, le_rfl, by linarith, fun _ _ _ => rfl⟩
  | cons change changes ih =>
    obtain ⟨b, offset⟩ := change
    obtain ⟨hb, hchanges⟩ := List.pairwise_cons.mp hchanges
    have hfirst : start + 8 * oneHour ≤ b := hstart (b, offset) List.mem_cons_self
    by_cases htb : t < b
    · refine ⟨min t (b - 8 * oneHour), le_min ht (by linarith), min_le_left _ _, ?_, fun u _ hu => ?_⟩
      · rcases min_choice t (b - 8 * oneHour) with h | h <;> rw [h] <;> linarith
      · have hub : u < b := by linarith [min_le_right t (b - 8 * oneHour)]
        rw [offsetFrom, offsetFrom, if_pos hub, if_pos htb]
    · obtain ⟨a, hba, hat, hta, hsame⟩ := ih offset hb hchanges (not_lt.mp htb)
      refine ⟨a, by linarith, hat, hta, fun u hu hu' => ?_⟩
      rw [offsetFrom, offsetFrom, if_neg htb, if_neg (not_lt.mpr (hba.trans hu))]
      exact hsame u hu hu'

theorem Zone.Listed.steady {z : Zone} (h : z.Listed) : z.Steady := by
  obtain ⟨first, changes, hoffset, hchanges, hbounds⟩ := h
  constructor
  · intro t
    rw [hoffset]
    obtain ⟨hlo, hhi, -⟩ := hbounds _ (offsetFrom_mem changes first t)
    exact ⟨hlo, hhi⟩
  · intro t
    have hdays : (8 * oneHour : Int) ≤ 5 * oneDay := by decide
    -- An instant before all changes to start from.
    obtain ⟨start, ht, hstart⟩ : ∃ start ≤ t, ∀ x ∈ changes, start + 8 * oneHour ≤ x.1 := by
      cases changes with
      | nil => exact ⟨t, le_rfl, by simp⟩
      | cons change changes =>
        refine ⟨min t (change.1 - 8 * oneHour), min_le_left _ _, fun x hx => ?_⟩
        have hmin := min_le_right t (change.1 - 8 * oneHour)
        obtain rfl | hx := List.mem_cons.mp hx
        · linarith
        · have hlater := (List.pairwise_cons.mp hchanges).1 x hx
          have hzero : (0 : Int) ≤ 5 * oneDay := by decide
          linarith
    obtain ⟨a, -, hat, hta, hsame⟩ := offsetFrom_lasts first hstart (hchanges.imp fun h => by linarith) ht
    refine ⟨a, hat, hta, fun u hu hu' => ?_⟩
    rw [hoffset, hoffset]
    exact hsame u hu hu'

namespace Zone

variable {z : Zone} {wall : Time}

theorem wallAt_foldl (l : List Int) (f : Int → Time) {acc : Option Time} (hacc : ∀ e ∈ acc, z.wallAt e = wall) :
    ∀ e ∈ l.foldl (fun earliest hours =>
      if z.wallAt (f hours) = wall ∧ (earliest.all fun e => f hours < e) then some (f hours) else earliest) acc,
      z.wallAt e = wall := by
  induction l generalizing acc with
  | nil => exact hacc
  | cons hours l ih =>
    rw [List.foldl_cons]
    refine ih fun e he => ?_
    split at he
    · rename_i h
      cases he
      exact h.1
    · exact hacc e he

/-- A resolved instant shows its wall-clock time, or it has the offset from before the gap that the wall-clock
time falls into. -/
theorem resolve_cases (z : Zone) (wall : Time) : z.wallAt (z.resolve wall) = wall ∨
    ∃ b, b + z.offsetAt (b - 1) ≤ wall ∧ wall < b + z.offsetAt b ∧ z.resolve wall = wall - z.offsetAt (b - 1) := by
  rw [resolve]
  dsimp only
  cases hearliest : ([-48, -24, 0, 24, 48] : List Int).foldl (fun earliest hours =>
    if z.wallAt (wall - z.offsetAt (z.atTimeZone wall + hours * oneHour)) = wall ∧
      (earliest.all fun e => wall - z.offsetAt (z.atTimeZone wall + hours * oneHour) < e) then
      some (wall - z.offsetAt (z.atTimeZone wall + hours * oneHour)) else earliest) none with
  | some e =>
    refine .inl (wallAt_foldl [-48, -24, 0, 24, 48]
      (fun hours => wall - z.offsetAt (z.atTimeZone wall + hours * oneHour)) ?_ e hearliest)
    simp
  | none =>
    rw [Option.getD_none]
    by_cases h : ∃ t, t + z.offsetAt t = wall
    · obtain ⟨t, ht⟩ := h
      exact .inl (z.later wall t ht).1
    · exact .inr (z.gap wall fun t ht => h ⟨t, ht⟩)

namespace Steady

variable (hz : z.Steady)

include hz

theorem sample {p q t : Time} (hp : p ≤ t) (hq : t ≤ q) (hpq : q ≤ p + 8 * oneHour) :
    z.offsetAt t = z.offsetAt p ∨ z.offsetAt t = z.offsetAt q := by
  obtain ⟨a, ha, hlt, hsame⟩ := hz.lasts t
  by_cases hap : a ≤ p
  · exact .inl (hsame p hap (lt_of_le_of_lt hp hlt)).symm
  · refine .inr (hsame q (ha.trans hq) ?_).symm
    have := not_le.mp hap
    linarith

theorem resolve_offset (wall : Time) : ∃ t, z.resolve wall = wall - z.offsetAt t ∧ t ≤ z.resolve wall ∧
    z.resolve wall - 32 * oneHour ≤ t := by
  rcases z.resolve_cases wall with h | ⟨b, hle, hlt, heq⟩
  · refine ⟨z.resolve wall, ?_, le_rfl, ?_⟩
    · rw [wallAt] at h
      linarith
    · have : (0 : Int) ≤ 32 * oneHour := by decide
      linarith
  · refine ⟨b - 1, heq, ?_, ?_⟩
    · linarith
    · have hafter := (hz.within b).2
      have hbefore := (hz.within (b - 1)).1
      -- The instant is less than the length of the gap after its start.
      have hint : z.resolve wall < b + 32 * oneHour := by linarith
      have := Int.add_one_le_of_lt hint
      linarith

end Steady

end Zone

theorem le_foldl_max {l : List Time} {a x : Time} (hx : x = a ∨ x ∈ l) : x ≤ l.foldl max a := by
  induction l generalizing a x with
  | nil => exact le_of_eq (hx.resolve_right List.not_mem_nil)
  | cons b l ih =>
    rw [List.foldl_cons]
    rcases hx with rfl | hx
    · exact (le_max_left x b).trans (ih (.inl rfl))
    · obtain rfl | hx := List.mem_cons.mp hx
      · exact (le_max_right a x).trans (ih (.inl rfl))
      · exact ih (.inr hx)

theorem foldl_min_le {l : List Time} {a x : Time} (hx : x = a ∨ x ∈ l) : l.foldl min a ≤ x := by
  induction l generalizing a x with
  | nil => exact le_of_eq (hx.resolve_right List.not_mem_nil).symm
  | cons b l ih =>
    rw [List.foldl_cons]
    rcases hx with rfl | hx
    · exact (ih (.inl rfl)).trans (min_le_left x b)
    · obtain rfl | hx := List.mem_cons.mp hx
      · exact (ih (.inl rfl)).trans (min_le_right a x)
      · exact ih (.inr hx)

namespace CronCall

variable {c : CronCall} (hz : c.zone.Steady) {wall : Time}

include hz

/-- The samples before `now` see every offset of the 64 hours before it. -/
theorem offset_le_upper {t : Time} (hlo : c.nowSecond - 64 * oneHour ≤ t) (hhi : t ≤ c.nowSecond) :
    c.nowSecond + c.zone.offsetAt t ≤ c.upperWall := by
  have hprobe (i : Nat) (hi : i < 9) :
      c.nowSecond + c.zone.offsetAt (c.nowSecond - i * (8 * oneHour)) ≤ c.upperWall := by
    refine add_le_add_right (le_foldl_max (.inr ?_)) _
    exact List.mem_map.mpr ⟨i, List.mem_range.mpr hi, rfl⟩
  obtain ⟨i, hi, hp, hq⟩ : ∃ i : Nat, i < 8 ∧ c.nowSecond - (i + 1 : Nat) * (8 * oneHour) ≤ t ∧
      t ≤ c.nowSecond - i * (8 * oneHour) := by
    have hsplit : ∀ d : Int, 0 ≤ d → d ≤ 64 * 3600000000 →
        ∃ i : Nat, i < 8 ∧ (i : Int) * (8 * 3600000000) ≤ d ∧ d ≤ ((i + 1 : Nat) : Int) * (8 * 3600000000) := by
      intro d h0 h1
      refine ⟨min (d / (8 * 3600000000)).toNat 7, ?_, ?_, ?_⟩ <;> omega
    obtain ⟨i, hi, h1, h2⟩ := hsplit (c.nowSecond - t) (sub_nonneg.mpr hhi) (by
      have : (64 * oneHour : Time) = 64 * 3600000000 := by decide
      linarith)
    have hour : (8 * oneHour : Time) = 8 * 3600000000 := by decide
    rw [hour]
    exact ⟨i, hi, by linarith, by linarith⟩
  have hstep : c.nowSecond - i * (8 * oneHour) ≤ c.nowSecond - (i + 1 : Nat) * (8 * oneHour) + 8 * oneHour := by
    push_cast
    linarith
  rcases hz.sample hp hq hstep with h | h
  · rw [h]
    exact hprobe (i + 1) (by omega)
  · rw [h]
    exact hprobe i (by omega)

theorem lt_resolve_of_upper (h : c.upperWall < wall) : c.nowSecond < c.zone.resolve wall := by
  by_contra hin
  have hin := not_lt.mp hin
  obtain ⟨t, heq, hle, hge⟩ := hz.resolve_offset wall
  have hbelow : c.nowSecond + c.zone.offsetAt c.nowSecond ≤ c.upperWall := add_le_add_right (le_foldl_max (.inl rfl)) _
  have hlo := (hz.within c.nowSecond).1
  have hhi := (hz.within t).2
  -- The offset exceeds that of `now` by at most 32 hours, so the instant is not far before `now`.
  have hnear : c.nowSecond - 32 * oneHour ≤ c.zone.resolve wall := by linarith
  have hseen := offset_le_upper hz (t := t) (by linarith) (hle.trans hin)
  linarith

theorem not_inWindow_of_upper (h : c.upperWall < wall) : c.inWindow (c.zone.resolve wall) = false := by
  rw [inWindow, Bool.and_eq_false_iff]
  exact .inr (decide_eq_false (not_le.mpr (lt_resolve_of_upper hz h)))

/-- The samples around the position see every offset of the 32 hours before and after it, up to `now`. -/
theorem lower_le_offset {lower t : Time} (hlower : c.lowerWall = some lower) (hnow : c.last < c.nowSecond)
    (hlo : c.last - 32 * oneHour ≤ t) (hhi : t ≤ c.last + 32 * oneHour) (ht : t ≤ c.nowSecond) :
    lower ≤ c.last + c.zone.offsetAt t := by
  rw [lowerWall] at hlower
  split at hlower
  · have hlower := Option.some.inj hlower
    set probe : Nat → Time := fun i => c.last + min (((i : Int) - 4) * (8 * oneHour)) (c.nowSecond - c.last) with hdef
    have hprobe (i : Nat) (hi : i < 9) : lower ≤ c.last + c.zone.offsetAt (probe i) := by
      rw [← hlower]
      refine add_le_add_right (foldl_min_le (.inr ?_)) _
      exact List.mem_map.mpr ⟨i, List.mem_range.mpr hi, rfl⟩
    obtain ⟨i, hi, hp, hq, hstep⟩ : ∃ i : Nat, i < 8 ∧ probe i ≤ t ∧ t ≤ probe (i + 1) ∧
        probe (i + 1) ≤ probe i + 8 * oneHour := by
      have hsplit : ∀ last now t : Int, last < now → last - 32 * 3600000000 ≤ t → t ≤ last + 32 * 3600000000 →
          t ≤ now → ∃ i : Nat, i < 8 ∧ last + min (((i : Int) - 4) * (8 * 3600000000)) (now - last) ≤ t ∧
            t ≤ last + min ((((i + 1 : Nat) : Int) - 4) * (8 * 3600000000)) (now - last) ∧
            last + min ((((i + 1 : Nat) : Int) - 4) * (8 * 3600000000)) (now - last) ≤
              last + min (((i : Int) - 4) * (8 * 3600000000)) (now - last) + 8 * 3600000000 := by
        intro last now t h1 h2 h3 h4
        refine ⟨min ((t - last + 32 * 3600000000) / (8 * 3600000000)).toNat 7, ?_, ?_, ?_, ?_⟩ <;> omega
      have hour : (oneHour : Time) = 3600000000 := by decide
      rw [hour] at hlo hhi
      simp only [hdef, hour]
      exact hsplit c.last c.nowSecond t hnow hlo hhi ht
    rcases hz.sample hp hq hstep with h | h
    · rw [h]
      exact hprobe i (by omega)
    · rw [h]
      exact hprobe (i + 1) (by omega)
  · cases hlower

/-- A wall-clock time below the lower bound resolves at or before the position, or after `now`. -/
theorem not_inWindow_of_lower {lower : Time} (hlower : c.lowerWall = some lower) (h : wall < lower) :
    c.inWindow (c.zone.resolve wall) = false := by
  by_contra hin
  rw [Bool.not_eq_false, inWindow, Bool.and_eq_true, decide_eq_true_eq, decide_eq_true_eq] at hin
  obtain ⟨t, heq, hle, hge⟩ := hz.resolve_offset wall
  have hnow : c.last < c.nowSecond := lt_of_lt_of_le hin.1 hin.2
  have hhour : (0 : Int) ≤ 32 * oneHour := by decide
  have habove := lower_le_offset hz (t := c.last) hlower hnow (by linarith) (by linarith) hnow.le
  have hhi := (hz.within c.last).2
  have hlo := (hz.within t).1
  -- The offset is below that of the position by at most 32 hours, so the instant is not far after it.
  have hnear : c.zone.resolve wall ≤ c.last + 32 * oneHour := by linarith
  have hseen := lower_le_offset hz (t := t) hlower hnow (by linarith [hin.1]) (hle.trans hnear) (hle.trans hin.2)
  linarith [hin.1]

end CronCall

end Workhorse
