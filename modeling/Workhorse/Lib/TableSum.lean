import Mathlib.Algebra.BigOperators.Group.Finset.Piecewise
import Mathlib.Algebra.Order.BigOperators.Group.List
import Mathlib.Tactic.Abel
import Workhorse.Lib.Table

/-!
# Sums over a table

A quantity of the rows added up, and what writing or deleting one row does to the sum.
-/

namespace Table

variable {κ ν α : Type} [DecidableEq κ] [AddCommGroup α] {t : Table κ ν} {k : κ} {v w : ν}

def sum (f : ν → α) (t : Table κ ν) : α := (t.rows.map fun e => f e.2).sum

omit [DecidableEq κ] in
@[simp] theorem sum_empty (f : ν → α) : (empty : Table κ ν).sum f = 0 := rfl

theorem sum_put_of_none (f : ν → α) (h : t.get? k = none) : (t.put k v).sum f = t.sum f + f v := by
  have hmem : k ∉ t.rows.map Prod.fst := fun hk => by
    obtain ⟨w, hw⟩ := mem_keys_iff.mp hk
    rw [h] at hw
    cases hw
  simp only [sum, put, hmem, dite_false, List.map_cons, List.sum_cons]
  exact add_comm _ _

omit [DecidableEq κ] in
theorem ne_of_nodup_cons {e : κ × ν} {rows : List (κ × ν)} (h : ((e :: rows).map Prod.fst).Nodup) :
    ∀ e' ∈ rows, e'.1 ≠ e.1 := by
  intro e' he' heq
  have hnot := (List.nodup_cons.mp h).1
  exact hnot (heq ▸ List.mem_map_of_mem he')

theorem sum_erase (f : ν → α) (h : t.get? k = some v) : (t.erase k).sum f = t.sum f - f v := by
  obtain ⟨rows, hnodup⟩ := t
  have hmem : (k, v) ∈ rows := get?_eq_some_iff.mp h
  clear h
  change ((rows.filter fun e => e.1 ≠ k).map fun e => f e.2).sum = (rows.map fun e => f e.2).sum - f v
  induction rows with
  | nil => cases hmem
  | cons e rows ih =>
    have hne := ne_of_nodup_cons hnodup
    rcases List.mem_cons.mp hmem with rfl | hmem
    · have hall : rows.filter (fun e => e.1 ≠ k) = rows := List.filter_eq_self.mpr fun e he => decide_eq_true (hne e he)
      simp only [List.filter_cons, ne_eq, not_true_eq_false, decide_false, List.map_cons, List.sum_cons,
        add_sub_cancel_left]
      exact congrArg (fun rows => (rows.map fun e => f e.2).sum) hall
    · have hk : e.1 ≠ k := fun heq => hne (k, v) hmem heq.symm
      have ih := ih (List.nodup_cons.mp hnodup).2 hmem
      rw [List.filter_cons, if_pos (decide_eq_true hk)]
      simp only [List.map_cons, List.sum_cons, ih]
      abel

theorem sum_put_of_some (f : ν → α) (h : t.get? k = some w) : (t.put k v).sum f = t.sum f - f w + f v := by
  obtain ⟨rows, hnodup⟩ := t
  have hmem : (k, w) ∈ rows := get?_eq_some_iff.mp h
  rw [put, dif_pos (mem_keys_iff.mpr ⟨w, h⟩)]
  clear h
  change ((rows.map fun e => (e.1, if e.1 = k then v else e.2)).map fun e => f e.2).sum =
    (rows.map fun e => f e.2).sum - f w + f v
  induction rows with
  | nil => cases hmem
  | cons e rows ih =>
    have hne := ne_of_nodup_cons hnodup
    rcases List.mem_cons.mp hmem with rfl | hmem
    · have hsame : (rows.map fun e => (e.1, if e.1 = k then v else e.2)) = rows := by
        refine (List.map_congr_left fun e he => ?_).trans (List.map_id rows)
        simp [hne e he]
      simp only [List.map_cons, if_true, List.sum_cons]
      rw [hsame]
      abel
    · have hk : e.1 ≠ k := fun heq => hne (k, w) hmem heq.symm
      have ih := ih (List.nodup_cons.mp hnodup).2 hmem
      simp only [List.map_cons, List.sum_cons, ih, if_neg hk]
      abel

omit [DecidableEq κ] in
theorem sum_add (f g : ν → α) (t : Table κ ν) : (t.sum fun v => f v + g v) = t.sum f + t.sum g := List.sum_map_add

omit [DecidableEq κ] in
theorem sum_eq_zero (h : t.size = 0) (f : ν → α) : t.sum f = 0 := by
  have hrows : t.rows = [] := List.eq_nil_of_length_eq_zero h
  simp [sum, hrows]

omit [DecidableEq κ] in
theorem sum_one (t : Table κ ν) : (t.sum fun _ => (1 : Int)) = t.size := by
  simp [sum, size]

omit [DecidableEq κ] in
theorem sum_indicator (p : ν → Bool) (t : Table κ ν) :
    (t.sum fun v => if p v then (1 : Int) else 0) = t.count fun _ v => p v := by
  obtain ⟨rows, hnodup⟩ := t
  change (rows.map fun e => if p e.2 then (1 : Int) else 0).sum = (rows.countP fun e => p e.2 : Nat)
  clear hnodup
  induction rows with
  | nil => rfl
  | cons e rows ih =>
    rw [List.map_cons, List.sum_cons, ih, List.countP_cons]
    cases p e.2 <;> simp [add_comm]

omit [DecidableEq κ] in
theorem sum_comm {ι : Type} [Fintype ι] (f : ι → ν → α) (t : Table κ ν) :
    ∑ i, t.sum (f i) = t.sum fun v => ∑ i, f i v := by
  obtain ⟨rows, hnodup⟩ := t
  change ∑ i, (rows.map fun e => f i e.2).sum = (rows.map fun e => ∑ i, f i e.2).sum
  clear hnodup
  induction rows with
  | nil => simp
  | cons e rows ih => simp [Finset.sum_add_distrib, ih]

theorem sum_le_sum {f g : ν → Int} (h : ∀ k v, t.get? k = some v → f v ≤ g v) : t.sum f ≤ t.sum g :=
  List.sum_le_sum fun e he => h e.1 e.2 (get?_eq_some_iff.mpr he)

end Table
