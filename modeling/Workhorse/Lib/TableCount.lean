import Workhorse.Lib.Table

/-!
# Counting through writes

How the number of rows that match changes when one row, or a table of rows, is written.
-/

namespace Table

variable {κ ν : Type} [DecidableEq κ] {t u : Table κ ν} {p : κ → ν → Bool} {k : κ} {v : ν}

theorem count_eq_of_get? (h : ∀ k v, p k v = true → (t.get? k = some v ↔ u.get? k = some v)) :
    t.count p = u.count p := by
  have hnodup (t : Table κ ν) : (t.rows.filter fun e => p e.1 e.2).Nodup := (List.Nodup.of_map _ t.nodup).filter _
  simp only [count, List.countP_eq_length_filter]
  refine ((List.perm_ext_iff_of_nodup (hnodup t) (hnodup u)).mpr fun e => ?_).length_eq
  simp only [List.mem_filter, ← get?_eq_some_iff (k := e.1) (v := e.2)]
  exact and_congr_left fun hp => h e.1 e.2 hp

theorem count_erase_add (hv : t.get? k = some v) : (t.erase k).count p + (if p k v then 1 else 0) = t.count p := by
  have hput : ((t.erase k).put k v).count p = t.count p := by
    refine count_eq_of_get? fun k' v' _ => ?_
    rw [get?_put, get?_erase]
    by_cases hk : k' = k
    · simp [hk, hv]
    · simp [hk]
  rw [← hput, count_put (by simp)]

theorem count_put_add (t : Table κ ν) (k : κ) (v : ν) (p : κ → ν → Bool) :
    (t.put k v).count p + (if (t.get? k).any (p k) then 1 else 0) = t.count p + if p k v then 1 else 0 := by
  cases hk : t.get? k with
  | none => simp [count_put hk]
  | some w =>
    have hput : (t.put k v).count p = ((t.erase k).put k v).count p := by
      refine count_eq_of_get? fun k' v' _ => ?_
      rw [get?_put, get?_put, get?_erase]
      by_cases hk' : k' = k
      · simp [hk']
      · simp [hk']
    have herase := count_erase_add (p := p) hk
    rw [hput, count_put (by simp)]
    simp only [Option.any_some]
    omega

theorem count_overlay (t u : Table κ ν) (p : κ → ν → Bool) :
    (t.overlay u).count p + u.count (fun k _ => (t.get? k).any (p k)) = t.count p + u.count p := by
  obtain ⟨rows, hnd⟩ := u
  induction rows with
  | nil => rfl
  | cons e rows ih =>
    obtain ⟨hnot, hnd'⟩ := List.nodup_cons.mp hnd
    have ih := ih hnd'
    have hsame : (t.overlay ⟨rows, hnd'⟩).get? e.1 = t.get? e.1 := by
      have hnone : (⟨rows, hnd'⟩ : Table κ ν).get? e.1 = none := by
        refine get?_eq_none_iff.mpr fun v hv => hnot ?_
        exact List.mem_map.mpr ⟨_, hv, rfl⟩
      rw [get?_overlay, hnone, Option.none_or]
    have hput := count_put_add (t.overlay ⟨rows, hnd'⟩) e.1 e.2 p
    rw [hsame] at hput
    have hrows : t.overlay ⟨e :: rows, hnd⟩ = (t.overlay ⟨rows, hnd'⟩).put e.1 e.2 := rfl
    rw [hrows]
    simp only [count, List.countP_cons] at hput ih ⊢
    omega

end Table
