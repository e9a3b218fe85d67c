import Mathlib.Algebra.BigOperators.Group.List.Basic
import Workhorse.Lib.Table

/-!
# Grouping rows

`SELECT f(key), sum(value) … GROUP BY 1` over the rows of a table, and the sum of a selection of rows.
-/

namespace Table

variable {κ κ' α : Type} [DecidableEq κ] [DecidableEq κ'] [AddCommMonoid α]

def total (p : κ → Bool) (rows : List (κ × α)) : α := ((rows.filter fun e => p e.1).map Prod.snd).sum

def groupSum (f : κ → κ') : List (κ × α) → Table κ' α
  | [] => empty
  | e :: rows =>
    (groupSum f rows).put (f e.1) (((groupSum f rows).get? (f e.1)).getD 0 + e.2)

section Total

variable {p q : κ → Bool} {rows rows' : List (κ × α)} {t u : Table κ α} {k : κ} {v x : α}

omit [DecidableEq κ] in
@[simp] theorem total_nil : total p ([] : List (κ × α)) = 0 := rfl

omit [DecidableEq κ] in
theorem total_cons (e : κ × α) : total p (e :: rows) = (if p e.1 then e.2 else 0) + total p rows := by
  simp only [total, List.filter_cons]
  split
  · simp
  · simp

omit [DecidableEq κ] in
theorem total_append : total p (rows ++ rows') = total p rows + total p rows' := by
  simp [total]

omit [DecidableEq κ] in
theorem total_filter (p q : κ → Bool) (rows : List (κ × α)) :
    total p (rows.filter fun e => q e.1) = total (fun k => p k && q k) rows := by
  simp [total, List.filter_filter]

omit [DecidableEq κ] in
theorem total_congr (h : ∀ e ∈ rows, p e.1 = q e.1) : total p rows = total q rows := by
  rw [total, total, List.filter_congr h]

omit [DecidableEq κ] in
theorem total_eq_zero (h : ∀ e ∈ rows, p e.1 = false) : total p rows = 0 := by
  rw [total_congr (q := fun _ => false) h]
  simp [total]

omit [DecidableEq κ] in
theorem total_split (q : κ → Bool) :
    total p rows = total (fun k => p k && q k) rows + total (fun k => p k && !q k) rows := by
  induction rows with
  | nil => simp
  | cons e rows ih =>
    simp only [total_cons]
    rw [ih]
    cases p e.1 <;> cases q e.1 <;> simp [add_assoc, add_left_comm]

theorem total_eq_of_get? (h : ∀ k, p k = true → t.get? k = u.get? k) : total p t.rows = total p u.rows := by
  have hnodup (t : Table κ α) : (t.rows.filter fun e => p e.1).Nodup := (List.Nodup.of_map _ t.nodup).filter _
  refine (List.Perm.map Prod.snd ((List.perm_ext_iff_of_nodup (hnodup t) (hnodup u)).mpr fun e => ?_)).sum_eq
  simp only [List.mem_filter, ← get?_eq_some_iff (k := e.1) (v := e.2)]
  constructor
  · rintro ⟨he, hp⟩
    exact ⟨(h e.1 hp).symm.trans he, hp⟩
  · rintro ⟨he, hp⟩
    exact ⟨(h e.1 hp).trans he, hp⟩

theorem total_key (t : Table κ α) (k : κ) : total (fun k' => k' = k) t.rows = (t.get? k).getD 0 := by
  cases hk : t.get? k with
  | none =>
    rw [total_eq_zero]
    · rfl
    · intro e he
      refine decide_eq_false fun heq => ?_
      exact get?_eq_none_iff.mp hk e.2 (heq ▸ he)
  | some v =>
    have heq : total (fun k' => k' = k) t.rows = total (fun k' => k' = k) ((empty : Table κ α).put k v).rows := by
      refine total_eq_of_get? fun k' hk' => ?_
      cases of_decide_eq_true hk'
      simp [hk]
    rw [heq]
    simp [total, put, empty]

omit [AddCommMonoid α] in
theorem rows_put_of_none (h : t.get? k = none) : (t.put k v).rows = (k, v) :: t.rows := by
  have hmem : k ∉ t.rows.map Prod.fst := fun hk => by
    obtain ⟨w, hw⟩ := mem_keys_iff.mp hk
    rw [h] at hw
    cases hw
  simp [put, hmem]

theorem total_add (t : Table κ α) (k : κ) (x : α) :
    total p (t.put k ((t.get? k).getD 0 + x)).rows = total p t.rows + if p k then x else 0 := by
  -- Split off the key: the other rows are the same.
  have hsplit (rows : List (κ × α)) := @total_split κ α _ p rows fun k' => k' = k
  rw [hsplit, hsplit t.rows]
  have hothers : total (fun k' => p k' && !decide (k' = k)) (t.put k ((t.get? k).getD 0 + x)).rows =
      total (fun k' => p k' && !decide (k' = k)) t.rows := by
    refine total_eq_of_get? fun k' hk' => ?_
    simp only [Bool.and_eq_true, Bool.not_eq_true', decide_eq_false_iff_not] at hk'
    simp [hk'.2]
  rw [hothers]
  cases hp : p k with
  | false =>
    have hnone (rows : List (κ × α)) : total (fun k' => p k' && decide (k' = k)) rows = 0 := by
      refine total_eq_zero fun e _ => ?_
      by_cases he : e.1 = k
      · simp [he, hp]
      · simp [he]
    rw [hnone, hnone]
    simp
  | true =>
    have hkey (rows : List (κ × α)) : total (fun k' => p k' && decide (k' = k)) rows =
        total (fun k' => k' = k) rows := by
      refine total_congr fun e _ => ?_
      by_cases he : e.1 = k
      · simp [he, hp]
      · simp [he]
    rw [hkey, hkey, total_key, total_key, get?_put, if_pos rfl]
    simp only [Option.getD_some, if_true]
    rw [add_assoc, add_assoc, add_comm x]

end Total

section GroupSum

variable {f : κ → κ'} {rows : List (κ × α)} {k : κ'} {v : α}

omit [DecidableEq κ] in
theorem total_groupSum (p : κ' → Bool) : total p (groupSum f rows).rows = total (fun k => p (f k)) rows := by
  induction rows with
  | nil => rfl
  | cons e rows ih =>
    rw [groupSum, total_add, ih, total_cons, add_comm]

omit [DecidableEq κ] in
theorem get?_groupSum (h : (groupSum f rows).get? k = some v) : v = total (fun k' => f k' = k) rows := by
  have hkey := total_key (groupSum f rows) k
  rw [h, Option.getD_some, total_groupSum] at hkey
  exact hkey.symm

omit [DecidableEq κ] in
theorem contains_groupSum : (∃ v, (groupSum f rows).get? k = some v) ↔ ∃ e ∈ rows, f e.1 = k := by
  induction rows with
  | nil => simp [groupSum]
  | cons e rows ih =>
    rw [groupSum]
    simp only [get?_put, List.mem_cons, exists_eq_or_imp]
    by_cases hk : k = f e.1
    · simp [hk]
    · simp only [if_neg hk, ih, Ne.symm hk, false_or]

omit [DecidableEq κ] in
theorem get?_groupSum_congr {rows' : List (κ × α)}
    (h : ∀ e, f e.1 = k → (e ∈ rows ↔ e ∈ rows'))
    (htotal : total (fun k' => f k' = k) rows = total (fun k' => f k' = k) rows') :
    (groupSum f rows).get? k = (groupSum f rows').get? k := by
  have hiff : (∃ v, (groupSum f rows).get? k = some v) ↔ ∃ v, (groupSum f rows').get? k = some v := by
    rw [contains_groupSum, contains_groupSum]
    constructor
    · rintro ⟨e, he, hk⟩
      exact ⟨e, (h e hk).mp he, hk⟩
    · rintro ⟨e, he, hk⟩
      exact ⟨e, (h e hk).mpr he, hk⟩
  cases hv : (groupSum f rows).get? k with
  | some v =>
    obtain ⟨w, hw⟩ := hiff.mp ⟨v, hv⟩
    rw [hw, get?_groupSum hv, get?_groupSum hw, htotal]
  | none =>
    cases hw : (groupSum f rows').get? k with
    | none => rfl
    | some w =>
      obtain ⟨v, hv'⟩ := hiff.mpr ⟨w, hw⟩
      rw [hv] at hv'
      cases hv'

end GroupSum

end Table
