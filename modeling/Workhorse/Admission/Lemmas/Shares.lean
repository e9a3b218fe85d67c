import Mathlib
import Workhorse.Admission.Shards

/-!
# Shares of a queue's capacity

The shares of the shards add up to the whole.
-/

namespace Workhorse

open Finset

theorem sum_admissionShare {total shards : Nat} (h : 0 < shards) :
    ∑ s ∈ range shards, admissionShare total shards s = total := by
  have hmod : total % shards < shards := Nat.mod_lt _ h
  have hextra : ∑ s ∈ range shards, (if s < total % shards then 1 else 0) = total % shards := by
    rw [sum_boole]
    have hfilter : (range shards).filter (· < total % shards) = range (total % shards) := by
      ext s
      simp only [mem_filter, mem_range]
      omega
    simp [hfilter]
  simp only [admissionShare, sum_add_distrib, hextra, sum_const, card_range, smul_eq_mul]
  exact Nat.div_add_mod total shards

end Workhorse
