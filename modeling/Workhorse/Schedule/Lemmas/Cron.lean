import Workhorse.Schedule.Fire

/-!
# The occurrences of an expression

Stopping the walk at the limit loses nothing, so a call returns the first instants of its window. When
the window is in the order of instants, they are the earliest.
-/

namespace Workhorse

theorem le_truncSecond_iff {t now : Time} (ht : truncSecond t = t) : t ≤ truncSecond now ↔ t ≤ now := by
  have h : ∀ a b : Int, a - a % 1000000 = a → (a ≤ b - b % 1000000 ↔ a ≤ b) := by
    intro a b
    omega
  exact h t now ht

theorem eraseDups_sublist_nodup (l : List Time) : l.eraseDups.Sublist l ∧ l.eraseDups.Nodup := by
  -- Erasing the duplicates of the head filters the tail, so the induction is on the length.
  induction hn : l.length using Nat.strong_induction_on generalizing l with
  | h n ih =>
    cases l with
    | nil => simp
    | cons t ts =>
      have hlength := List.length_filter_le (fun u => !u == t) ts
      rw [List.length_cons] at hn
      obtain ⟨hsub, hnd⟩ := ih _ (by omega) (ts.filter fun u => !u == t) rfl
      rw [List.eraseDups_cons]
      refine ⟨(hsub.trans List.filter_sublist).cons_cons t, List.nodup_cons.mpr ⟨fun hmem => ?_, hnd⟩⟩
      simpa using (List.mem_filter.mp (hsub.subset hmem)).2

theorem pairwise_lt_eraseDups {l : List Time} (h : l.Pairwise (· ≤ ·)) : l.eraseDups.Pairwise (· < ·) := by
  obtain ⟨hsub, hnd⟩ := eraseDups_sublist_nodup l
  exact ((h.sublist hsub).and hnd).imp fun h => lt_of_le_of_ne h.1 h.2

namespace Cron

variable {e : Cron} {last now : Time} {limit : Nat}

/-- The walk yields a prefix of the window, and all of it unless the prefix fills the limit. -/
theorem walk_prefix (last now : Time) (limit : Nat) (ws : List WallClock) (found : Nat) :
    ∃ p q, ws.filter (due last now) = p ++ q ∧ walk last now limit found ws = p.map WallClock.instant ∧
    (q = [] ∨ limit ≤ found + (p.filter fun w => !w.normalized).length) := by
  induction ws generalizing found with
  | nil => exact ⟨[], [], rfl, rfl, .inl rfl⟩
  | cons w ws ih =>
    by_cases hw : due last now w = true
    · simp only [walk, hw, if_true, List.filter_cons]
      by_cases hlimit : limit ≤ if w.normalized then found else found + 1
      · rw [if_pos hlimit]
        refine ⟨[w], ws.filter (due last now), rfl, rfl, .inr ?_⟩
        cases hn : w.normalized <;> simp [hn] at hlimit ⊢ <;> omega
      · rw [if_neg hlimit]
        obtain ⟨p, q, hpq, hwalk, hfull⟩ := ih (if w.normalized then found else found + 1)
        refine ⟨w :: p, q, by rw [hpq]; rfl, by rw [hwalk]; rfl, hfull.imp id fun h => ?_⟩
        cases hn : w.normalized <;> simp [hn] at h ⊢ <;> omega
    · simpa [walk, hw] using ih found

def window (e : Cron) (last now : Time) : List Time :=
  (((e.wallClocks.filter (e.visits last now)).filter (due last now)).map WallClock.instant).eraseDups

theorem occurrences_eq : e.occurrences last now limit = (e.window last now).take limit := by
  obtain ⟨p, q, hpq, hwalk, hfull⟩ := walk_prefix last now limit (e.wallClocks.filter (e.visits last now)) 0
  simp only [occurrences, window, hwalk, hpq, List.map_append]
  rcases hfull with rfl | hfull
  · simp
  · -- The instants without a normalized one are distinct.
    have hsub : (p.filter fun w => !w.normalized).Sublist
        (e.wallClocks.filter fun w => !w.normalized) := by
      refine List.Sublist.filter _ (List.Sublist.trans (List.sublist_append_left p q) ?_)
      rw [← hpq]
      exact List.filter_sublist.trans List.filter_sublist
    have hnodup : ((p.filter fun w => !w.normalized).map WallClock.instant).Nodup := e.exact.sublist (hsub.map _)
    have hsubset : (p.filter fun w => !w.normalized).map WallClock.instant ⊆
        (p.map WallClock.instant).eraseDups :=
      fun t ht => List.mem_eraseDups.mpr ((List.filter_sublist.map _).subset ht)
    have hlength := (List.subperm_of_subset hnodup hsubset).length_le
    rw [List.length_map] at hlength
    rw [List.eraseDups_append, List.take_append_of_le_length (by omega)]

theorem mem_window {t : Time} : t ∈ e.window last now ↔
    ∃ w ∈ e.wallClocks, e.visits last now w = true ∧ due last now w = true ∧ w.instant = t := by
  simp only [window, List.mem_eraseDups, List.mem_map, List.mem_filter]
  constructor
  · rintro ⟨w, ⟨⟨hw, hv⟩, hd⟩, rfl⟩
    exact ⟨w, hw, hv, hd, rfl⟩
  · rintro ⟨w, hw, hv, hd, rfl⟩
    exact ⟨w, ⟨⟨hw, hv⟩, hd⟩, rfl⟩

theorem due_iff {w : WallClock} (hw : w ∈ e.wallClocks) :
    due last now w = true ↔ last < w.instant ∧ w.instant ≤ now := by
  simp only [due, Bool.and_eq_true, decide_eq_true_eq, le_truncSecond_iff (e.whole w hw)]

/-- The window of a pass is in the order of instants, and the dates of the walk cover it. -/
structure Regular (e : Cron) (first last now : Time) : Prop where
  ordered : (e.wallClocks.filter (due last now)).Pairwise fun w w' => w.instant ≤ w'.instant
  covered : ∀ w ∈ e.wallClocks, first < w.instant → due last now w = true → e.visits last now w = true

def Through (e : Cron) (first : Time) (rows : List Time) (t : Time) : Prop :=
  ∀ w ∈ e.wallClocks, first < w.instant → w.instant ≤ t → w.instant ∈ rows

variable {first t : Time} {rows : List Time}

theorem Through.mono {rows' : List Time} (h : e.Through first rows t) (hle : rows ⊆ rows') : e.Through first rows' t :=
  fun w hw hfirst ht => hle (h w hw hfirst ht)

theorem Regular.window_ordered (h : e.Regular first last now) : (e.window last now).Pairwise (· < ·) := by
  refine pairwise_lt_eraseDups (List.pairwise_map.mpr (h.ordered.sublist ?_))
  exact List.Sublist.filter _ List.filter_sublist

theorem Regular.mem_window (h : e.Regular first last now) {w : WallClock} (hw : w ∈ e.wallClocks)
    (hfirst : first < w.instant) (hlast : last < w.instant) (hnow : w.instant ≤ now) :
    w.instant ∈ e.window last now := by
  have hdue := (due_iff hw).mpr ⟨hlast, hnow⟩
  exact Cron.mem_window.mpr ⟨w, hw, h.covered w hw hfirst hdue, hdue, rfl⟩

theorem gt_of_mem_occurrences (ht : t ∈ e.occurrences last now limit) : last < t ∧ t ≤ now := by
  rw [occurrences_eq] at ht
  obtain ⟨w, hw, -, hdue, rfl⟩ := Cron.mem_window.mp (List.mem_of_mem_take ht)
  exact (due_iff hw).mp hdue

theorem whole_of_mem_occurrences (ht : t ∈ e.occurrences last now limit) : truncSecond t = t := by
  rw [occurrences_eq] at ht
  obtain ⟨w, hw, -, -, rfl⟩ := Cron.mem_window.mp (List.mem_of_mem_take ht)
  exact e.whole w hw

theorem Regular.through (h : e.Regular first last now) (hstart : e.Through first rows last)
    {done rest : List Time} (hall : done ++ rest = e.occurrences last now limit)
    (hdone : done ⊆ rows) (ht : t ∈ done) : e.Through first rows t := by
  intro w hw hfirst hwt
  by_cases hlast : w.instant ≤ last
  · exact hstart w hw hfirst hlast
  · have hnow : t ≤ now := (gt_of_mem_occurrences (hall ▸ List.mem_append_left rest ht)).2
    have hmem := h.mem_window hw hfirst (not_le.mp hlast) (le_trans hwt hnow)
    have hsplit : e.window last now = done ++ (rest ++ (e.window last now).drop limit) := by
      rw [← List.append_assoc, hall, occurrences_eq, List.take_append_drop]
    have hordered := h.window_ordered
    rw [hsplit] at hmem hordered
    rcases List.mem_append.mp hmem with hmem | hmem
    · exact hdone hmem
    · exact absurd ((List.pairwise_append.mp hordered).2.2 t ht _ hmem) (not_lt.mpr hwt)

theorem Regular.through_now (h : e.Regular first last now) (hstart : e.Through first rows last)
    (hshort : (e.occurrences last now limit).length < limit)
    (hdone : e.occurrences last now limit ⊆ rows) : e.Through first rows now := by
  intro w hw hfirst hnow
  by_cases hlast : w.instant ≤ last
  · exact hstart w hw hfirst hlast
  · have hmem := h.mem_window hw hfirst (not_le.mp hlast) hnow
    rw [occurrences_eq, List.length_take] at hshort
    apply hdone
    rw [occurrences_eq, List.take_of_length_le (by omega)]
    exact hmem

end Cron

end Workhorse
