import Workhorse.Cron.Lemmas.Bounds

/-!
# The loops of the cron walk

`Follows` relates a walk to the wall-clock times that it is past: either its candidates are their instants in the
window, or it has exited and nothing that comes later changes the result. Each loop keeps it.
-/

namespace Workhorse.CronCall

variable {c : CronCall} {w : CronWalk} {past walls : List Time} {m m' first final : Time}

def instants (c : CronCall) (walls : List Time) : List Time := (walls.map c.zone.resolve).filter c.inWindow

@[simp] theorem instants_append (walls walls' : List Time) :
    c.instants (walls ++ walls') = c.instants walls ++ c.instants walls' := by simp [instants]

theorem instants_eq_nil (h : ∀ wall ∈ walls, c.inWindow (c.zone.resolve wall) = false) : c.instants walls = [] := by
  simpa [instants] using h

def normalized (c : CronCall) (walls : List Time) : List Time :=
  walls.filter fun wall => c.inWindow (c.zone.resolve wall) && c.zone.wallAt (c.zone.resolve wall) ≠ wall

def result (c : CronCall) (candidates : List Time) : List Time := candidates.eraseDups.take c.limit

structure Follows (c : CronCall) (w : CronWalk) (past : List Time) (m : Time) : Prop where
  below : ∀ wall ∈ past, wall < m
  nodup : past.Nodup
  going : w.exited = false → w.candidates = c.instants past ∧ w.candidateCount = (c.instants past).length ∧
    w.normalizedCount = (c.normalized past).length
  exited : w.exited = true → ∀ later : List Time, (∀ wall ∈ later, m ≤ wall) →
    c.result (c.instants (past ++ later)) = c.result w.candidates

theorem follows_start (c : CronCall) (m : Time) : c.Follows ⟨[], 0, 0, false⟩ [] m where
  below wall h := absurd h List.not_mem_nil
  nodup := .nil
  going _ := ⟨rfl, rfl, rfl⟩
  exited h := by cases h

theorem Follows.mono (h : c.Follows w past m) (hm : m ≤ m') : c.Follows w past m' where
  below wall hwall := (h.below wall hwall).trans_le hm
  nodup := h.nodup
  going := h.going
  exited hexit later hlater := h.exited hexit later fun wall hwall => hm.trans (hlater wall hwall)

theorem Follows.nodup_append (h : c.Follows w past m) (hfirst : m ≤ first) (hwalls : walls.Nodup)
    (hge : ∀ wall ∈ walls, first ≤ wall) : (past ++ walls).Nodup := by
  refine List.nodup_append.mpr ⟨h.nodup, hwalls, fun a ha b hb heq => ?_⟩
  subst heq
  exact absurd (h.below a ha) (not_lt.mpr (hfirst.trans (hge a hb)))

theorem Follows.below_append (h : c.Follows w past m) (hfirst : m ≤ first)
    (hle : ∀ wall ∈ walls, first ≤ wall ∧ wall ≤ final) (hm : final < m') (hfinal : first ≤ final) :
    ∀ wall ∈ past ++ walls, wall < m' := by
  intro wall hwall
  obtain hwall | hwall := List.mem_append.mp hwall
  · exact (h.below wall hwall).trans_le (hfirst.trans (hfinal.trans hm.le))
  · exact (hle wall hwall).2.trans_lt hm

theorem normalized_append (walls walls' : List Time) :
    c.normalized (walls ++ walls') = c.normalized walls ++ c.normalized walls' := by simp [normalized]

theorem normalized_eq_nil (h : ∀ wall ∈ walls, c.inWindow (c.zone.resolve wall) = false) : c.normalized walls = [] := by
  refine List.filter_eq_nil_iff.mpr fun wall hwall => ?_
  simp [h wall hwall]

theorem Follows.skip (h : c.Follows w past m) (hgoing : w.exited = false) (hfirst : m ≤ first)
    (hwalls : walls.Nodup) (hle : ∀ wall ∈ walls, first ≤ wall ∧ wall ≤ final) (hfinal : first ≤ final)
    (hm : final < m') (hout : ∀ wall ∈ walls, c.inWindow (c.zone.resolve wall) = false) :
    c.Follows w (past ++ walls) m' where
  below := h.below_append hfirst hle hm hfinal
  nodup := h.nodup_append hfirst hwalls fun wall hwall => (hle wall hwall).1
  going _ := by
    rw [instants_append, instants_eq_nil hout, normalized_append, normalized_eq_nil hout, List.append_nil,
      List.append_nil]
    exact h.going hgoing
  exited hexit := by
    rw [hgoing] at hexit
    cases hexit

theorem Follows.stay (h : c.Follows w past m) (hexit : w.exited = true) (hfirst : m ≤ first)
    (hwalls : walls.Nodup) (hle : ∀ wall ∈ walls, first ≤ wall ∧ wall ≤ final) (hfinal : first ≤ final)
    (hm : final < m') : c.Follows w (past ++ walls) m' where
  below := h.below_append hfirst hle hm hfinal
  nodup := h.nodup_append hfirst hwalls fun wall hwall => (hle wall hwall).1
  going hgoing := by
    rw [hexit] at hgoing
    cases hgoing
  exited _ later hlater := by
    rw [List.append_assoc]
    refine h.exited hexit (walls ++ later) fun wall hwall => ?_
    obtain hwall | hwall := List.mem_append.mp hwall
    · exact hfirst.trans (hle wall hwall).1
    · exact (hfirst.trans (hfinal.trans hm.le)).trans (hlater wall hwall)

theorem Follows.exit_upper (hz : c.zone.Steady) (h : c.Follows w past m) (hgoing : w.exited = false)
    (hfirst : m ≤ first) (hwalls : walls.Nodup) (hle : ∀ wall ∈ walls, first ≤ wall ∧ wall ≤ final)
    (hfinal : first ≤ final) (hm : final < m') (hupper : c.upperWall < first) :
    c.Follows { w with exited := true } (past ++ walls) m' where
  below := h.below_append hfirst hle hm hfinal
  nodup := h.nodup_append hfirst hwalls fun wall hwall => (hle wall hwall).1
  going hgoing := by cases hgoing
  exited _ later hlater := by
    have hout : ∀ wall ∈ walls ++ later, c.inWindow (c.zone.resolve wall) = false := by
      intro wall hwall
      refine not_inWindow_of_upper hz (hupper.trans_le ?_)
      obtain hwall | hwall := List.mem_append.mp hwall
      · exact (hle wall hwall).1
      · exact (hfinal.trans hm.le).trans (hlater wall hwall)
    rw [List.append_assoc, instants_append, instants_eq_nil hout, List.append_nil, (h.going hgoing).1]

/-! ## One wall-clock time -/

theorem length_le_distinct (hnodup : past.Nodup) :
    (c.instants past).length ≤ (c.instants past).eraseDups.length + (c.normalized past).length := by
  set shown := past.filter fun wall =>
    c.inWindow (c.zone.resolve wall) && c.zone.wallAt (c.zone.resolve wall) = wall with hshown
  have hcount : (c.instants past).length = shown.length + (c.normalized past).length := by
    rw [hshown, normalized, instants, List.filter_map, List.length_map]
    clear hshown hnodup shown
    induction past with
    | nil => rfl
    | cons wall past ih =>
      simp only [List.filter_cons, Function.comp]
      by_cases hin : c.inWindow (c.zone.resolve wall) = true
      · by_cases heq : c.zone.wallAt (c.zone.resolve wall) = wall
        · simp only [hin, heq, ne_eq, not_true_eq_false, decide_true, decide_false, Bool.and_true, Bool.and_false,
            if_true, List.length_cons, Bool.false_eq_true, if_false] at ih ⊢
          rw [ih]
          omega
        · simp only [hin, heq, ne_eq, not_false_eq_true, decide_true, decide_false, Bool.and_true, Bool.and_false,
            if_true, List.length_cons, Bool.false_eq_true, if_false] at ih ⊢
          rw [ih]
          omega
      · simpa [hin] using ih
  have hinj : (shown.map c.zone.resolve).Nodup := by
    refine List.Nodup.map_on (fun a ha b hb heq => ?_) (hnodup.filter _)
    have ha := (Bool.and_eq_true_iff.mp (List.mem_filter.mp ha).2).2
    have hb := (Bool.and_eq_true_iff.mp (List.mem_filter.mp hb).2).2
    rw [← of_decide_eq_true ha, ← of_decide_eq_true hb, heq]
  have hsub : shown.map c.zone.resolve ⊆ (c.instants past).eraseDups := by
    intro t ht
    obtain ⟨wall, hwall, rfl⟩ := List.mem_map.mp ht
    obtain ⟨hpast, hin⟩ := List.mem_filter.mp hwall
    refine List.mem_eraseDups.mpr (List.mem_filter.mpr ⟨List.mem_map_of_mem hpast, ?_⟩)
    exact (Bool.and_eq_true_iff.mp hin).1
  have hlength := (List.subperm_of_subset hinj hsub).length_le
  rw [List.length_map] at hlength
  omega

theorem result_append {l l' : List Time} (h : c.limit ≤ l.eraseDups.length) : c.result (l ++ l') = c.result l := by
  rw [result, result, List.eraseDups_append, List.take_append_of_le_length h]

theorem Follows.visit {wall : Time} (h : c.Follows w past wall) (hgoing : w.exited = false) :
    c.Follows (c.visit wall w) (past ++ [wall]) (wall + 1) := by
  obtain ⟨hcand, hcount, hnorm⟩ := h.going hgoing
  have hnext : ∀ a ∈ past ++ [wall], a < wall + 1 := by
    intro a ha
    obtain ha | ha := List.mem_append.mp ha
    · exact (h.below a ha).trans (lt_add_one wall)
    · rw [List.mem_singleton.mp ha]
      exact lt_add_one wall
  have hnodup : (past ++ [wall]).Nodup := by
    refine h.nodup_append le_rfl (List.nodup_singleton wall) fun a ha => ?_
    exact (List.mem_singleton.mp ha).ge
  rw [CronCall.visit]
  dsimp only
  split
  · rename_i hin
    have hinstants : c.instants (past ++ [wall]) = w.candidates ++ [c.zone.resolve wall] := by
      rw [instants_append, hcand]
      simp [instants, hin]
    have hnormalized : (c.normalized (past ++ [wall])).length =
        if c.zone.wallAt (c.zone.resolve wall) ≠ wall then w.normalizedCount + 1 else w.normalizedCount := by
      rw [normalized_append, List.length_append, hnorm, normalized, normalized, List.filter_singleton, hin]
      by_cases heq : c.zone.wallAt (c.zone.resolve wall) = wall <;> simp [heq]
    have hlength : (c.instants (past ++ [wall])).length = w.candidateCount + 1 := by
      rw [hinstants, List.length_append, hcand, hcount]
      rfl
    refine ⟨hnext, hnodup, fun _ => ⟨hinstants.symm, hlength.symm, hnormalized.symm⟩, fun hexit later _ => ?_⟩
    rw [instants_append, hinstants]
    refine result_append ?_
    have hdistinct := length_le_distinct (c := c) hnodup
    have hlimit := of_decide_eq_true hexit
    rw [← hinstants]
    rw [hlength, hnormalized] at hdistinct
    omega
  · rename_i hout
    have hskip : ∀ a ∈ [wall], c.inWindow (c.zone.resolve a) = false := by
      intro a ha
      rw [List.mem_singleton.mp ha]
      exact Bool.eq_false_of_not_eq_true hout
    refine h.skip hgoing le_rfl (List.nodup_singleton wall) (fun a ha => ?_) le_rfl (lt_add_one wall) hskip
    rw [List.mem_singleton.mp ha]
    exact ⟨le_rfl, le_rfl⟩

/-! ## Blocks -/

structure Block (c : CronCall) (first final : Time) (walls : List Time) (inner : CronWalk → CronWalk) : Prop where
  sorted : walls.Pairwise (· < ·)
  ordered : first ≤ final
  between : ∀ wall ∈ walls, first ≤ wall ∧ wall ≤ final
  follows : ∀ w past, w.exited = false → c.Follows w past first → c.Follows (inner w) (past ++ walls) (final + 1)

theorem Block.nodup {inner : CronWalk → CronWalk} (hb : c.Block first final walls inner) : walls.Nodup :=
  hb.sorted.imp ne_of_lt

theorem Block.guarded (hz : c.zone.Steady) {inner : CronWalk → CronWalk} (hb : c.Block first final walls inner)
    (h : c.Follows w past m) (hfirst : m ≤ first) :
    c.Follows (c.guarded first final inner w) (past ++ walls) (final + 1) := by
  have hm := lt_add_one final
  rw [CronCall.guarded]
  split
  · rename_i hexit
    exact h.stay hexit hfirst hb.nodup hb.between hb.ordered hm
  rename_i hgoing
  have hgoing := Bool.eq_false_of_not_eq_true hgoing
  split
  · rename_i hlower
    cases hbound : c.lowerWall with
    | none => simp [hbound] at hlower
    | some lower =>
      have hlt : final < lower := by simpa [hbound] using hlower
      refine h.skip hgoing hfirst hb.nodup hb.between hb.ordered hm fun wall hwall => ?_
      exact not_inWindow_of_lower hz hbound ((hb.between wall hwall).2.trans_lt hlt)
  split
  · rename_i hupper
    exact h.exit_upper hz hgoing hfirst hb.nodup hb.between hb.ordered hm hupper
  · exact hb.follows w past hgoing (h.mono hfirst)

theorem follows_foldl {α : Type} (hz : c.zone.Steady) {l : List α} {first final : α → Time} {walls : α → List Time}
    {inner : α → CronWalk → CronWalk} (hblock : ∀ x ∈ l, c.Block (first x) (final x) (walls x) (inner x))
    (hl : l.Pairwise fun x y => final x < first y) (hm : ∀ x ∈ l, m ≤ first x) (h : c.Follows w past m)
    (hle : m ≤ m') (hm' : ∀ x ∈ l, final x < m') :
    c.Follows (l.foldl (fun w x => c.guarded (first x) (final x) (inner x) w) w) (past ++ l.flatMap walls) m' := by
  induction l generalizing w past m with
  | nil =>
    rw [List.flatMap_nil, List.append_nil]
    exact h.mono hle
  | cons x l ih =>
    obtain ⟨hx, hl⟩ := List.pairwise_cons.mp hl
    have hnext := (hblock x List.mem_cons_self).guarded hz h (hm x List.mem_cons_self)
    rw [List.foldl_cons, List.flatMap_cons, ← List.append_assoc]
    refine ih (fun y hy => hblock y (List.mem_cons_of_mem _ hy)) hl (fun y hy => ?_) hnext ?_ fun y hy =>
      hm' y (List.mem_cons_of_mem _ hy)
    · exact Int.add_one_le_of_lt (hx y hy)
    · exact Int.add_one_le_of_lt (hm' x List.mem_cons_self)

theorem pairwise_flatMap_blocks {α : Type} {l : List α} {first final : α → Time} {walls : α → List Time}
    (hsorted : ∀ x ∈ l, (walls x).Pairwise (· < ·))
    (hbetween : ∀ x ∈ l, ∀ wall ∈ walls x, first x ≤ wall ∧ wall ≤ final x)
    (hl : l.Pairwise fun x y => final x < first y) : (l.flatMap walls).Pairwise (· < ·) := by
  refine List.pairwise_flatMap.mpr ⟨hsorted, hl.imp_of_mem fun hx hy hlt a ha b hb => ?_⟩
  exact ((hbetween _ hx a ha).2.trans_lt hlt).trans_le (hbetween _ hy b hb).1

theorem block_foldl {α : Type} (hz : c.zone.Steady) {l : List α} {first final : α → Time} {walls : α → List Time}
    {inner : α → CronWalk → CronWalk} {start stop : Time} (hstop : start ≤ stop)
    (hblock : ∀ x ∈ l, c.Block (first x) (final x) (walls x) (inner x))
    (hl : l.Pairwise fun x y => final x < first y) (hstart : ∀ x ∈ l, start ≤ first x)
    (hend : ∀ x ∈ l, final x ≤ stop) :
    c.Block start stop (l.flatMap walls)
      (fun w => l.foldl (fun w x => c.guarded (first x) (final x) (inner x) w) w) where
  sorted := pairwise_flatMap_blocks (fun x hx => (hblock x hx).sorted) (fun x hx => (hblock x hx).between) hl
  ordered := hstop
  between wall hwall := by
    obtain ⟨x, hx, hwall⟩ := List.mem_flatMap.mp hwall
    obtain ⟨h1, h2⟩ := (hblock x hx).between wall hwall
    exact ⟨(hstart x hx).trans h1, h2.trans (hend x hx)⟩
  follows w past _ h := by
    refine follows_foldl hz hblock hl hstart h (hstop.trans (lt_add_one stop).le) fun x hx => ?_
    exact (hend x hx).trans_lt (lt_add_one stop)

end Workhorse.CronCall
