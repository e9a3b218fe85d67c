import Mathlib.Algebra.Order.Field.Power
import Mathlib.Tactic.NormNum
import Mathlib.Tactic.Ring

/-!
# Scaled integers

A decimal number as an integer times a power of ten: how the order of such numbers is read off the integers after a
shift.
-/

namespace Scaled

variable {m n e f : ℤ}

def value (m e : ℤ) : ℚ := m * 10 ^ e

theorem value_zero (e : ℤ) : value 0 e = 0 := by simp [value]

theorem abs_value (m e : ℤ) : |value m e| = value m.natAbs e := by
  rw [value, value, abs_mul, abs_of_pos (by positivity : (0 : ℚ) < 10 ^ e), ← Int.cast_abs, Int.abs_eq_natAbs]

theorem value_mul_pow (m e : ℤ) (k : ℕ) : value (m * 10 ^ k) e = value m (e + k) := by
  rw [value, value, zpow_add₀ (by norm_num), zpow_natCast]
  push_cast
  ring

theorem value_eq_shift (m e f : ℤ) : value m e = (m * 10 ^ (e - f).toNat : ℤ) * (10 : ℚ) ^ min e f := by
  have h : min e f + ((e - f).toNat : ℤ) = e := by omega
  have := value_mul_pow m (min e f) (e - f).toNat
  rw [h] at this
  rw [← this, value]

theorem compare_mul_of_pos {x y : ℤ} {c : ℚ} (hc : 0 < c) : compare (x * c) (y * c) = compare x y := by
  have hmono : StrictMono fun z : ℤ => (z : ℚ) * c := fun a b hab =>
    mul_lt_mul_of_pos_right (Int.cast_lt.mpr hab) hc
  rw [← cmp_eq_compare, ← cmp_eq_compare]
  exact hmono.cmp_map_eq x y

theorem compare_value (m e n f : ℤ) :
    compare (value m e) (value n f) = compare (m * 10 ^ (e - f).toNat) (n * 10 ^ (f - e).toNat) := by
  rw [value_eq_shift m e f, value_eq_shift n f e, min_comm f e]
  exact compare_mul_of_pos (by positivity)

theorem value_lt_iff : value m e < value n f ↔ m * 10 ^ (e - f).toNat < n * 10 ^ (f - e).toNat := by
  rw [← compare_lt_iff_lt, compare_value, compare_lt_iff_lt]

theorem mul_pow_lt_of_order {x y L K : ℕ} (hx : x < 10 ^ L) (hy : 10 ^ K ≤ y) (h : L + e ≤ K + f) :
    x * 10 ^ (e - f).toNat < y * 10 ^ (f - e).toNat :=
  calc x * 10 ^ (e - f).toNat < 10 ^ L * 10 ^ (e - f).toNat := Nat.mul_lt_mul_of_pos_right hx (by positivity)
    _ = 10 ^ (L + (e - f).toNat) := (pow_add _ _ _).symm
    _ ≤ 10 ^ (K + (f - e).toNat) := Nat.pow_le_pow_right (by decide) (by omega)
    _ = 10 ^ K * 10 ^ (f - e).toNat := pow_add _ _ _
    _ ≤ y * 10 ^ (f - e).toNat := Nat.mul_le_mul_right _ hy

theorem lt_of_abs_value_lt {L N : ℕ} (hm : 10 ^ L ≤ m.natAbs) (h : |value m e| < 10 ^ N) : L + e < N := by
  have hpow : (10 : ℚ) ^ ((L : ℤ) + e) ≤ value m.natAbs e := by
    rw [value, zpow_add₀ (by norm_num), zpow_natCast]
    refine mul_le_mul_of_nonneg_right ?_ (by positivity)
    exact_mod_cast hm
  have hlt : (10 : ℚ) ^ ((L : ℤ) + e) < 10 ^ (N : ℤ) := by
    rw [zpow_natCast]
    exact lt_of_le_of_lt (abs_value m e ▸ hpow) h
  exact (zpow_lt_zpow_iff_right₀ (by norm_num)).mp hlt

end Scaled
