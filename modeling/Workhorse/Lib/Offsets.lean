import Mathlib.Algebra.Order.Ring.Int
import Mathlib.Algebra.Order.Group.Abs

/-!
# Offsets that change now and then

A clock that shows `t + offset t` jumps where the offset changes. Where the changes are 5 days apart and each is
below one day, the clock shows a value at most twice, and the two instants are near each other.
-/

namespace Offset

variable {offset : Int → Int} {day s t u b c value : Int}

def Changes (offset : Int → Int) (b : Int) : Prop := offset b ≠ offset (b - 1)

structure Spaced (offset : Int → Int) (day : Int) : Prop where
  apart : ∀ b c, b < c → Changes offset b → Changes offset c → b + 5 * day ≤ c
  below : ∀ b, |offset b - offset (b - 1)| < day

/-- A value that the change at `b` skips. -/
def Gap (offset : Int → Int) (b value : Int) : Prop := b + offset (b - 1) ≤ value ∧ value < b + offset b

theorem Gap.changes (h : Gap offset b value) : Changes offset b := by
  intro heq
  obtain ⟨hle, hlt⟩ := h
  omega

theorem eq_of_not_changes (hst : s ≤ t) (h : ∀ b, s < b → b ≤ t → ¬Changes offset b) : offset t = offset s := by
  induction t, hst using Int.leInduction with
  | base => rfl
  | succ t hst ih =>
    have hsame : offset (t + 1) = offset t := by
      simpa [Changes] using h (t + 1) (by omega) le_rfl
    rw [hsame]
    exact ih fun b hs ht => h b hs (by omega)

theorem exists_change (hst : s ≤ t) (h : offset t ≠ offset s) : ∃ b, s < b ∧ b ≤ t ∧ Changes offset b := by
  by_contra hnone
  simp only [not_exists, not_and] at hnone
  exact h (eq_of_not_changes hst hnone)

namespace Spaced

variable (h : Spaced offset day)

include h

theorem day_pos : 0 < day := by
  have := h.below 0
  have := abs_nonneg (offset 0 - offset (0 - 1))
  omega

/-- Offsets drift by less than a day, and one day more for each 5 days. -/
theorem drift (n : Nat) (s : Int) : 5 * |offset (s + n) - offset s| < 5 * day + n := by
  have hday := h.day_pos
  induction n using Nat.strong_induction_on with
  | h n ih =>
    cases n with
    | zero => simp [hday]
    | succ n =>
      have hlast := h.below (s + (n + 1 : Nat))
      by_cases hchange : Changes offset (s + (n + 1 : Nat))
      · -- Nothing else changes in the 5 days before.
        have hquiet (m : Nat) (hm : m ≤ n) (hnear : (n + 1 : Int) - m ≤ 5 * day) :
            offset (s + (n + 1 : Nat) - 1) = offset (s + m) := by
          refine eq_of_not_changes (by omega) fun b hlo hhi hb => ?_
          have := h.apart b _ (by omega) hb hchange
          omega
        by_cases hfew : (n + 1 : Int) ≤ 5 * day
        · have hsame := hquiet 0 (Nat.zero_le n) (by simpa using hfew)
          rw [hsame] at hlast
          simp only [Nat.cast_zero, add_zero] at hlast
          omega
        · obtain ⟨m, hm⟩ := Int.eq_ofNat_of_zero_le (show (0 : Int) ≤ n + 1 - 5 * day by omega)
          have hsame := hquiet m (by omega) (by omega)
          have hbefore := ih m (by omega)
          have htri := abs_sub_le (offset (s + (n + 1 : Nat))) (offset (s + m)) (offset s)
          rw [hsame] at hlast
          omega
      · have hsame : offset (s + (n + 1 : Nat)) = offset (s + n) := by
          simpa [Changes, add_sub_assoc] using hchange
        have hbefore := ih n (Nat.lt_succ_self n)
        rw [hsame]
        omega

/-- A later instant at which the clock does not show more is near, and the offset has become smaller. -/
theorem near (hst : s ≤ t) (hvalue : t + offset t ≤ s + offset s) :
    4 * (t - s) < 5 * day ∧ 4 * (offset s - offset t) < 5 * day := by
  have hdrift := h.drift (t - s).toNat s
  have hn : (((t - s).toNat : Nat) : Int) = t - s := Int.toNat_of_nonneg (by omega)
  have habs := neg_abs_le (offset t - offset s)
  rw [hn, add_sub_cancel] at hdrift
  omega

theorem before_fold (hst : s < t) (hvalue : t + offset t ≤ s + offset s) (hus : u ≤ s) (hu : t ≤ u + 5 * day) :
    offset s = offset u := by
  obtain ⟨b, hsb, hbt, hb⟩ := exists_change hst.le (show offset t ≠ offset s by omega)
  refine eq_of_not_changes hus fun c huc hcs hc => ?_
  have := h.apart c b (by omega) hc hb
  omega

theorem gap_unique (hb : Gap offset b value) (hc : Gap offset c value) : b = c := by
  have key : ∀ b c, Gap offset b value → Gap offset c value → ¬b < c := by
    intro b c hb hc hlt
    have hapart := h.apart b c hlt hb.changes hc.changes
    obtain ⟨-, hb⟩ := hb
    obtain ⟨hc, -⟩ := hc
    obtain ⟨hnear, -⟩ := h.near (s := b) (t := c - 1) (by omega) (by omega)
    have := h.day_pos
    omega
  have := key b c hb hc
  have := key c b hc hb
  omega

theorem least_mono {value' : Int} (hs : IsLeast {u | u + offset u = value} s)
    (ht : t + offset t = value') (hle : value ≤ value') : s ≤ t := by
  by_contra hlt
  have hread : s + offset s = value := hs.1
  obtain ⟨hnear, hdrop⟩ := h.near (s := t) (t := s) (by omega) (by omega)
  -- The offset before the jump back also shows the smaller value, and earlier.
  have hsame := h.before_fold (s := t) (t := s) (u := t - (value' - value)) (by omega) (by omega) (by omega)
    (by omega)
  have hearlier : s ≤ t - (value' - value) := hs.2 (show _ = _ by omega)
  omega

end Spaced

end Offset
