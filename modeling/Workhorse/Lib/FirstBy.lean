import Mathlib.Data.List.Sort

/-!
# The first elements of an order

`ORDER BY key LIMIT n` over a list. An element is among the first `n` exactly when fewer than `n` elements
come before it.
-/

namespace List

variable {α β : Type*} [LinearOrder β] {key : α → β} {l : List α} {n : Nat} {x : α}

def firstBy (key : α → β) (n : Nat) (l : List α) : List α := (l.insertionSort fun a b => key a ≤ key b).take n

theorem mem_take_of_pairwise (h : l.Pairwise fun a b => key a < key b) :
    x ∈ l.take n ↔ x ∈ l ∧ l.countP (fun y => key y < key x) < n := by
  induction l generalizing n with
  | nil => simp
  | cons a l ih =>
    obtain ⟨ha, hl⟩ := List.pairwise_cons.mp h
    cases n with
    | zero => simp
    | succ n =>
      rw [List.take_succ_cons, List.mem_cons, List.mem_cons, ih hl, List.countP_cons]
      by_cases hx : x = a
      · -- Nothing comes before the head.
        have hzero : l.countP (fun y => key y < key x) = 0 := by
          refine List.countP_eq_zero.mpr fun y hy => ?_
          simpa [hx] using (ha y hy).le
        simp [hx, hx ▸ hzero]
      · constructor
        · rintro (h | ⟨hmem, hcount⟩)
          · exact absurd h hx
          · exact ⟨.inr hmem, by simpa [ha x hmem] using hcount⟩
        · rintro ⟨h | hmem, hcount⟩
          · exact absurd h hx
          · exact .inr ⟨hmem, by simpa [ha x hmem] using hcount⟩

theorem mem_firstBy (hkey : Function.Injective key) (hl : l.Nodup) :
    x ∈ l.firstBy key n ↔ x ∈ l ∧ l.countP (fun y => key y < key x) < n := by
  have hperm := List.perm_insertionSort (fun a b => key a ≤ key b) l
  have hsorted : (l.insertionSort fun a b => key a ≤ key b).Pairwise fun a b => key a < key b := by
    have hle := List.pairwise_insertionSort (fun a b => key a ≤ key b) l
    have hne : (l.insertionSort fun a b => key a ≤ key b).Pairwise (· ≠ ·) := hperm.nodup_iff.mpr hl
    exact (hle.and hne).imp fun h => lt_of_le_of_ne h.1 fun heq => h.2 (hkey heq)
  rw [firstBy, mem_take_of_pairwise hsorted, hperm.mem_iff, hperm.countP_eq]

end List
