import Mathlib.Algebra.Order.Ring.Int

/-!
# Integers of 64 bits
-/

/-- An integer as an operation that overflows leaves it. -/
def wrap64 (n : ℤ) : ℤ := n.bmod (2 ^ 64)

theorem wrap64_eq {n : ℤ} (hlow : -2 ^ 63 ≤ n) (hhigh : n < 2 ^ 63) : wrap64 n = n :=
  Int.bmod_eq_of_le (by omega) (by omega)

def checked64 (n : ℤ) : Option ℤ := if -2 ^ 63 ≤ n ∧ n < 2 ^ 63 then some n else none
