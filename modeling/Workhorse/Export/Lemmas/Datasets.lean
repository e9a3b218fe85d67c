import Mathlib.Algebra.Ring.Divisibility.Basic
import Mathlib.Tactic.Ring
import Workhorse.Export.Segments
import Workhorse.Stats.Lemmas.Buckets

/-!
# Datasets under export

`Sound` is what holds of a dataset at every time, and `Follows` is how a dataset may look later. Every call
keeps the one and gives the other.
-/

namespace Workhorse.ExportedDataset

variable {d : Dataset} {x x' y : ExportedDataset} {start now rolledUpThrough : Time} {attempts : Nat}
variable {exporterId : String} {byteLength rowCount : Int} {s : Segment} {p : Option Time} {segments : List Segment}
  {enabled : Bool} {leaseMs : Int}

structure Sound (x : ExportedDataset) : Prop where
  starts : (x.segments.map Segment.start).Nodup
  single : (x.segments.countP fun s => s.status = .exporting) ≤ 1
  /-- A segment is opened at `exported_through`, which a complete segment leaves behind. -/
  below : ∀ s ∈ x.segments, ∃ e, x.exportedThrough = some e ∧ s.start ≤ e ∧ (s.status = .complete → s.start < e)
  aligned : ∀ e, x.exportedThrough = some e → oneDay ∣ e
  partitions : ∀ day ∈ x.partitions, oneDay ∣ day

structure Follows (x x' : ExportedDataset) : Prop where
  through : ∀ e, x.exportedThrough = some e → ∃ e', x'.exportedThrough = some e' ∧ e ≤ e'
  segments : ∀ s ∈ x.segments, ∃ s' ∈ x'.segments,
    s'.start = s.start ∧ s.attempts ≤ s'.attempts ∧ (s.status = .complete → s'.status = .complete)

theorem Follows.refl (x : ExportedDataset) : x.Follows x where
  through e he := ⟨e, he, le_rfl⟩
  segments s hs := ⟨s, hs, rfl, le_rfl, id⟩

theorem Follows.trans (h : x.Follows x') (h' : x'.Follows y) : x.Follows y where
  through e he := by
    obtain ⟨e', he', hle⟩ := h.through e he
    obtain ⟨e'', he'', hle'⟩ := h'.through e' he'
    exact ⟨e'', he'', hle.trans hle'⟩
  segments s hs := by
    obtain ⟨s', hs', hstart, hle, hdone⟩ := h.segments s hs
    obtain ⟨s'', hs'', hstart', hle', hdone'⟩ := h'.segments s' hs'
    exact ⟨s'', hs'', hstart'.trans hstart, hle.trans hle', fun hc => hdone' (hdone hc)⟩

theorem sound_blank : blank.Sound where
  starts := .nil
  single := Nat.zero_le _
  below s hs := absurd hs (List.not_mem_nil)
  aligned e he := by cases he
  partitions day hday := absurd hday (List.not_mem_nil)

/-! ## Segments of a sound dataset -/

theorem Sound.eq_of_start (h : x.Sound) {s s' : Segment} (hs : s ∈ x.segments) (hs' : s' ∈ x.segments)
    (heq : s.start = s'.start) : s = s' := List.inj_on_of_nodup_map h.starts hs hs' heq

theorem Sound.countP_complete (h : x.Sound) (hs : s ∈ x.segments) (hdone : s.status = .complete) :
    (x.segments.countP fun s' => s'.start = s.start && s'.status = .complete) = 1 := by
  have hcount : (x.segments.countP fun s' => s'.start = s.start) = 1 := by
    have hmem : s.start ∈ x.segments.map Segment.start := List.mem_map_of_mem hs
    have h1 := List.count_eq_one_of_mem h.starts hmem
    rw [List.count, List.countP_map] at h1
    rw [← h1]
    exact List.countP_congr fun s' _ => by simp
  rw [← hcount]
  refine List.countP_congr fun s' hs' => ?_
  suffices hsame : s'.start = s.start → s'.status = .complete by simpa using hsame
  intro heq
  rw [h.eq_of_start hs' hs heq]
  exact hdone

theorem held_iff : x.held start attempts = true ↔
    ∃ s ∈ x.segments, s.start = start ∧ s.status = .exporting ∧ s.attempts = attempts := by
  simp [held, and_assoc]

theorem Sound.held_eq_false (h : x.Sound) (hs : s ∈ x.segments) (hlt : attempts < s.attempts) :
    x.held s.start attempts = false := by
  by_contra hheld
  obtain ⟨s', hs', hstart, -, hatt⟩ := held_iff.mp (Bool.of_not_eq_false hheld)
  obtain rfl := h.eq_of_start hs' hs hstart
  omega

theorem exporting_mem (h : x.exporting = some s) : s ∈ x.segments ∧ s.status = .exporting := by
  have hmem := List.mem_of_head? h
  rw [List.mem_insertionSort, List.mem_filter] at hmem
  exact ⟨hmem.1, by simpa using hmem.2⟩

theorem exporting_eq_none (h : x.exporting = none) : ∀ s ∈ x.segments, s.status ≠ .exporting := by
  intro s hs hexp
  have hnil := List.head?_eq_none_iff.mp h
  have hmem : s ∈ (x.segments.filter fun s => s.status = .exporting).insertionSort fun a b => a.start ≤ b.start := by
    rw [List.mem_insertionSort, List.mem_filter]
    exact ⟨hs, by simpa using hexp⟩
  rw [hnil] at hmem
  exact List.not_mem_nil hmem

/-! ## What leaves the segments alone -/

theorem Sound.of_eq (h : x.Sound) (hthrough : x'.exportedThrough = x.exportedThrough)
    (hsegments : x'.segments = x.segments) (hpart : ∀ day ∈ x'.partitions, oneDay ∣ day) : x'.Sound where
  starts := by rw [hsegments]; exact h.starts
  single := by rw [hsegments]; exact h.single
  below := by rw [hsegments, hthrough]; exact h.below
  aligned := by rw [hthrough]; exact h.aligned
  partitions := hpart

theorem Follows.of_eq (hthrough : x'.exportedThrough = x.exportedThrough) (hsegments : x'.segments = x.segments) :
    x.Follows x' where
  through e he := ⟨e, hthrough.trans he, le_rfl⟩
  segments s hs := ⟨s, hsegments ▸ hs, rfl, le_rfl, id⟩

/-! ## An update of one segment -/

section Update

variable (f : Segment → Segment)

theorem map_start_update (hstart : ∀ s, (f s).start = s.start) :
    (x.update start f).map Segment.start = x.segments.map Segment.start := by
  rw [update, List.map_map]
  refine List.map_congr_left fun s _ => ?_
  rw [Function.comp]
  split
  · exact hstart s
  · rfl

theorem Follows.update (hstart : ∀ s, (f s).start = s.start) (hatt : ∀ s, s.attempts ≤ (f s).attempts)
    (hdone : ∀ s, s.status = .complete → (f s).status = .complete) (e' : Option Time)
    (hthrough : ∀ e, x.exportedThrough = some e → ∃ t, e' = some t ∧ e ≤ t) :
    x.Follows { x with segments := x.update start f, exportedThrough := e' } where
  through := hthrough
  segments s hs := by
    refine ⟨_, List.mem_map_of_mem hs, ?_⟩
    split
    · exact ⟨hstart s, hatt s, hdone s⟩
    · exact ⟨rfl, le_rfl, id⟩

theorem Sound.single_update (h : x.Sound) (hopen : ∀ s, (f s).status = .exporting → s.status = .exporting) :
    ((x.update start f).countP fun s => s.status = .exporting) ≤ 1 := by
  rw [ExportedDataset.update, List.countP_map]
  refine (List.countP_mono_left fun s _ hs => ?_).trans h.single
  simp only [Function.comp, decide_eq_true_eq] at hs ⊢
  split at hs
  · exact hopen s hs
  · exact hs

theorem Sound.update (h : x.Sound) (hstart : ∀ s, (f s).start = s.start)
    (hstatus : ∀ s, (f s).status = s.status) :
    Sound { x with segments := x.update start f } where
  starts := by
    rw [map_start_update f hstart]
    exact h.starts
  single := h.single_update f fun s hs => (hstatus s).symm.trans hs
  below s hs := by
    obtain ⟨s', hs', rfl⟩ := List.mem_map.mp hs
    obtain ⟨e, he, hle, hlt⟩ := h.below s' hs'
    refine ⟨e, he, ?_⟩
    split
    · rw [hstart, hstatus]
      exact ⟨hle, hlt⟩
    · exact ⟨hle, hlt⟩
  aligned := h.aligned
  partitions := h.partitions

end Update

/-! ## Failures -/

theorem fail_cases (h : x.fail d start attempts = .ok x') :
    x' = { x with segments := x.update start fun s => { s with leaseExpiresAt := none } } := by
  unfold fail at h
  split at h
  · cases h
  · cases h
    rfl

theorem sound_fail (hx : x.Sound) (h : x.fail d start attempts = .ok x') : x'.Sound ∧ x.Follows x' := by
  rw [fail_cases h]
  refine ⟨hx.update _ (fun _ => rfl) fun _ => rfl, ?_⟩
  apply Follows.update
  · exact fun _ => rfl
  · exact fun _ => le_rfl
  · exact fun _ => id
  · exact fun e he => ⟨e, he, le_rfl⟩

/-! ## Claims -/

theorem claim_cases {r : Option (Time × Nat)}
    (h : x.claim enabled exporterId leaseMs rolledUpThrough now = .ok (x', r)) : (x' = x ∧ r = none) ∨
    (∃ s ∈ x.segments, r = some (s.start, s.attempts + 1) ∧ x' = { x with segments := x.update s.start fun s =>
      { s with attempts := s.attempts + 1, leaseExpiresAt := some (now + milliseconds leaseMs) } }) ∨
    (∃ e, x.exportedThrough = some e ∧ r = some (e, 1) ∧ (∀ s ∈ x.segments, s.status ≠ .exporting) ∧
      (∀ s ∈ x.segments, s.start ≠ e) ∧ x' = { x with
        segments := ⟨e, .exporting, 1, some (now + milliseconds leaseMs)⟩ :: x.segments }) := by
  unfold claim at h
  split at h
  · cases h
  split at h
  · cases h
  split at h
  · cases h
    exact .inl ⟨rfl, rfl⟩
  split at h
  · cases h
    exact .inl ⟨rfl, rfl⟩
  rename_i e he
  split at h
  · rename_i s hs
    split at h
    · cases h
      exact .inl ⟨rfl, rfl⟩
    · cases h
      exact .inr (.inl ⟨s, (exporting_mem hs).1, rfl, rfl⟩)
  · rename_i hnone
    split at h
    · cases h
      exact .inl ⟨rfl, rfl⟩
    split at h
    · cases h
    · rename_i hfree
      cases h
      refine .inr (.inr ⟨e, he, rfl, exporting_eq_none hnone, fun s hs heq => hfree ?_, rfl⟩)
      exact List.any_eq_true.mpr ⟨s, hs, by simpa using heq⟩

theorem sound_claim {r : Option (Time × Nat)} (hx : x.Sound)
    (h : x.claim enabled exporterId leaseMs rolledUpThrough now = .ok (x', r)) : x'.Sound ∧ x.Follows x' := by
  obtain ⟨rfl, -⟩ | ⟨s, hs, -, rfl⟩ | ⟨e, he, -, hidle, hfree, rfl⟩ := claim_cases h
  · exact ⟨hx, .refl _⟩
  · refine ⟨hx.update _ (fun _ => rfl) fun _ => rfl, ?_⟩
    apply Follows.update
    · exact fun _ => rfl
    · exact fun _ => Nat.le_succ _
    · exact fun _ => id
    · exact fun e he => ⟨e, he, le_rfl⟩
  · constructor
    · constructor
      · refine List.nodup_cons.mpr ⟨fun hmem => ?_, hx.starts⟩
        obtain ⟨s, hs, heq⟩ := List.mem_map.mp hmem
        exact hfree s hs heq
      · have hzero : (x.segments.countP fun s => s.status = .exporting) = 0 :=
          List.countP_eq_zero.mpr fun s hs => by simpa using hidle s hs
        simp [hzero]
      · intro s hs
        obtain rfl | hs := List.mem_cons.mp hs
        · exact ⟨e, he, le_rfl, fun hdone => by cases hdone⟩
        · exact hx.below s hs
      · exact hx.aligned
      · exact hx.partitions
    · exact ⟨fun e he => ⟨e, he, le_rfl⟩, fun s hs => ⟨s, List.mem_cons_of_mem _ hs, rfl, le_rfl, id⟩⟩

theorem claim_attempts {r : Time × Nat}
    (h : x.claim enabled exporterId leaseMs rolledUpThrough now = .ok (x', some r)) :
    ∃ s ∈ x'.segments, s.start = r.1 ∧ s.attempts = r.2 := by
  obtain ⟨-, hr⟩ | ⟨s, hs, hr, rfl⟩ | ⟨e, -, hr, -, -, rfl⟩ := claim_cases h
  · cases hr
  · cases hr
    refine ⟨_, List.mem_map_of_mem hs, ?_⟩
    simp
  · cases hr
    exact ⟨_, List.mem_cons_self, rfl, rfl⟩

theorem Sound.claim_lt (hx : x.Sound) {r : Time × Nat}
    (h : x.claim enabled exporterId leaseMs rolledUpThrough now = .ok (x', some r))
    (hs : s ∈ x.segments) (hstart : s.start = r.1) : s.attempts < r.2 := by
  obtain ⟨-, hr⟩ | ⟨s', hs', hr, -⟩ | ⟨e, -, hr, -, hfree, -⟩ := claim_cases h
  · cases hr
  · cases hr
    obtain rfl := hx.eq_of_start hs hs' hstart
    exact Nat.lt_succ_self _
  · cases hr
    exact absurd hstart (hfree s hs)

/-! ## Completions -/

theorem mem_advance {fuel : Nat} {e day : Time} (h : day ∈ advance segments fuel e) :
    ∃ s ∈ segments, s.start = day ∧ s.status = .complete := by
  induction fuel generalizing e with
  | zero => cases h
  | succ fuel ih =>
    rw [advance] at h
    split at h
    · rename_i hany
      obtain rfl | h := List.mem_cons.mp h
      · simpa using hany
      · exact ih h
    · cases h

theorem mem_advance_of_lt {fuel : Nat} {e day : Time} (hday : oneDay ∣ day - e)
    (hle : e ≤ day) (hlt : day < e + (advance segments fuel e).length * oneDay) : day ∈ advance segments fuel e := by
  induction fuel generalizing e with
  | zero =>
    simp only [advance, List.length_nil, Nat.cast_zero, zero_mul, add_zero] at hlt
    exact absurd hle (not_le.mpr hlt)
  | succ fuel ih =>
    rw [advance] at hlt ⊢
    split at hlt
    · rename_i hany
      rw [if_pos hany]
      rcases hle.eq_or_lt with rfl | hlt'
      · exact List.mem_cons_self
      · refine List.mem_cons_of_mem _ (ih ?_ ?_ ?_)
        · rw [show day - (e + oneDay) = (day - e) - oneDay by ring]
          exact dvd_sub hday dvd_rfl
        · have hge := Int.le_of_dvd (sub_pos.mpr hlt') hday
          linarith
        · rw [List.length_cons, Nat.cast_succ, add_mul, one_mul] at hlt
          linarith
    · simp only [List.length_nil, Nat.cast_zero, zero_mul, add_zero] at hlt
      exact absurd hle (not_le.mpr hlt)

theorem complete_cases (h : x.complete d start attempts byteLength rowCount = .ok x') :
    ∃ e, x.exportedThrough = some e ∧ x.held start attempts = true ∧
      let segments := x.update start fun s => { s with status := .complete, leaseExpiresAt := none }
      x' = { x with
        segments, exportedThrough := some (e + (advance segments segments.length e).length * oneDay) } := by
  unfold complete at h
  split at h
  · cases h
  split at h
  · cases h
  rename_i e he
  split at h
  · cases h
  · rename_i hheld
    cases h
    exact ⟨e, he, by simpa using hheld, rfl⟩

theorem lt_advance (hs : s ∈ segments) (hdone : s.status = .complete) :
    s.start < s.start + (advance segments segments.length s.start).length * oneDay := by
  obtain ⟨fuel, hfuel⟩ := Nat.exists_eq_add_of_lt (List.length_pos_of_mem hs)
  have hany : (segments.any fun s' => s'.start = s.start && s'.status = .complete) = true :=
    List.any_eq_true.mpr ⟨s, hs, by simp [hdone]⟩
  rw [show segments.length = fuel + 1 by omega, advance, if_pos hany, List.length_cons]
  have hpos : (0 : Int) < ((advance segments fuel (s.start + oneDay)).length + 1 : Nat) * oneDay :=
    mul_pos (by positivity) oneDay_pos
  exact Int.lt_add_of_pos_right _ hpos

theorem sound_complete (hx : x.Sound)
    (h : x.complete d start attempts byteLength rowCount = .ok x') : x'.Sound ∧ x.Follows x' := by
  obtain ⟨e, he, hheld, rfl⟩ := complete_cases h
  set segments := x.update start fun s => { s with status := .complete, leaseExpiresAt := none } with hsegments
  have hle : e ≤ e + (advance segments segments.length e).length * oneDay :=
    Int.le_add_of_nonneg_right (mul_nonneg (Int.natCast_nonneg _) oneDay_pos.le)
  constructor
  · constructor
    · change (segments.map Segment.start).Nodup
      rw [hsegments, map_start_update]
      · exact hx.starts
      · exact fun _ => rfl
    · exact hx.single_update _ fun s hs => by cases hs
    · intro s hs
      refine ⟨_, rfl, ?_⟩
      obtain ⟨s', hs', hmap⟩ := List.mem_map.mp hs
      obtain ⟨e', he', hle', hlt⟩ := hx.below s' hs'
      obtain rfl : e = e' := Option.some.inj (he.symm.trans he')
      have hstart : s.start = s'.start := by
        rw [← hmap]
        split <;> rfl
      refine ⟨hstart ▸ hle'.trans hle, fun hdone => ?_⟩
      -- The segment is the one at `exported_through`, or it was behind already.
      rcases hle'.eq_or_lt with heq | hlt'
      · rw [← heq, ← hstart]
        exact lt_advance hs hdone
      · rw [hstart]
        exact hlt'.trans_le hle
    · intro t ht
      cases ht
      exact dvd_add (hx.aligned e he) (Dvd.intro_left _ rfl)
    · exact hx.partitions
  · apply Follows.update
    · exact fun _ => rfl
    · exact fun _ => le_rfl
    · exact fun _ _ => rfl
    · intro t ht
      obtain rfl : e = t := Option.some.inj (he.symm.trans ht)
      exact ⟨_, rfl, hle⟩

theorem complete_passes (hx : x.Sound) (h : x.complete d start attempts byteLength rowCount = .ok x') {e e' day : Time}
    (he : x.exportedThrough = some e) (he' : x'.exportedThrough = some e') (hday : oneDay ∣ day) (hle : e ≤ day)
    (hlt : day < e') : ∃ s ∈ x'.segments, s.start = day ∧ s.status = .complete := by
  obtain ⟨t, ht, -, rfl⟩ := complete_cases h
  obtain rfl : e = t := Option.some.inj (he.symm.trans ht)
  cases he'
  exact mem_advance (mem_advance_of_lt (dvd_sub hday (hx.aligned e he)) hle hlt)

/-! ## The switch -/

theorem oldestDay_le {oldest t : Time} (h : x.oldestDay = some oldest) (ht : t ∈ x.rows) : oldest ≤ dateBin oneDay t :=
  (List.min?_eq_some_iff.mp h).2 _ (List.mem_append_right _ (List.mem_map_of_mem ht))

theorem dvd_oldestDay (hx : x.Sound) {oldest : Time} (h : x.oldestDay = some oldest) : oneDay ∣ oldest := by
  have hmem := (List.min?_eq_some_iff.mp h).1
  obtain hmem | hmem := List.mem_append.mp hmem
  · exact hx.partitions _ hmem
  · obtain ⟨t, -, rfl⟩ := List.mem_map.mp hmem
    exact dvd_dateBin

theorem dvd_oldestDay_getD (hx : x.Sound) : oneDay ∣ x.oldestDay.getD (dateBin oneDay now) := by
  cases h : x.oldestDay with
  | none => exact dvd_dateBin
  | some oldest => exact dvd_oldestDay hx h

theorem enable_cases (h : x.enable d p now = .ok x') : let oldest := x.oldestDay.getD (dateBin oneDay now)
    (∃ e, x.exportedThrough = some e ∧ x' = { x with exportedThrough := some (max e oldest) }) ∨
    (x.exportedThrough = none ∧ x' = { x with exportedThrough := some ((p.map (dateBin oneDay)).getD oldest) }) := by
  unfold enable at h
  split at h
  · rename_i e he
    split at h
    · cases h
    · cases h
      exact .inl ⟨e, he, rfl⟩
  · rename_i hnone
    cases h
    exact .inr ⟨hnone, rfl⟩

theorem sound_enable (hx : x.Sound) (h : x.enable d p now = .ok x') : x'.Sound ∧ x.Follows x' := by
  obtain ⟨e, he, rfl⟩ | ⟨hnone, rfl⟩ := enable_cases h
  · constructor
    · refine ⟨hx.starts, hx.single, fun s hs => ?_, fun t ht => ?_, hx.partitions⟩
      · obtain ⟨e', he', hle, hlt⟩ := hx.below s hs
        obtain rfl : e = e' := Option.some.inj (he.symm.trans he')
        exact ⟨_, rfl, hle.trans (le_max_left _ _), fun hdone => (hlt hdone).trans_le (le_max_left _ _)⟩
      · cases ht
        rcases max_choice e (x.oldestDay.getD (dateBin oneDay now)) with hmax | hmax
        · rw [hmax]
          exact hx.aligned e he
        · rw [hmax]
          exact dvd_oldestDay_getD hx
    · refine ⟨fun t ht => ?_, fun s hs => ⟨s, hs, rfl, le_rfl, id⟩⟩
      obtain rfl : e = t := Option.some.inj (he.symm.trans ht)
      exact ⟨_, rfl, le_max_left _ _⟩
  · have hnil : x.segments = [] := by
      refine List.eq_nil_iff_forall_not_mem.mpr fun s hs => ?_
      obtain ⟨e, he, -⟩ := hx.below s hs
      cases hnone.symm.trans he
    constructor
    · refine ⟨hx.starts, hx.single, fun s hs => ?_, fun t ht => ?_, hx.partitions⟩
      · exact absurd (hnil ▸ hs) List.not_mem_nil
      · cases ht
        cases p with
        | none => exact dvd_oldestDay_getD hx
        | some t => exact dvd_dateBin
    · refine ⟨fun t ht => ?_, fun s hs => ⟨s, hs, rfl, le_rfl, id⟩⟩
      cases hnone.symm.trans ht

theorem isSome_enable (h : x.enable d p now = .ok x') : x'.exportedThrough.isSome := by
  obtain ⟨e, -, rfl⟩ | ⟨-, rfl⟩ := enable_cases h <;> rfl

theorem enable_skips (h : x.enable d p now = .ok x') {e e' day t : Time}
    (he : x.exportedThrough = some e) (he' : x'.exportedThrough = some e') (hle : e ≤ day) (hlt : day < e')
    (ht : t ∈ x.rows) : dateBin oneDay t ≠ day := by
  obtain ⟨e₀, he₀, rfl⟩ | ⟨hnone, -⟩ := enable_cases h
  · obtain rfl : e = e₀ := Option.some.inj (he.symm.trans he₀)
    cases he'
    rcases lt_max_iff.mp hlt with hlt | hlt
    · exact absurd hle (not_le.mpr hlt)
    cases holdest : x.oldestDay with
    | none =>
      have hnil : x.partitions ++ x.rows.map (dateBin oneDay) = [] := List.min?_eq_none_iff.mp holdest
      have hmem : dateBin oneDay t ∈ x.partitions ++ x.rows.map (dateBin oneDay) :=
        List.mem_append_right _ (List.mem_map_of_mem ht)
      rw [hnil] at hmem
      exact absurd hmem List.not_mem_nil
    | some oldest =>
      rw [holdest, Option.getD_some] at hlt
      exact (hlt.trans_le (oldestDay_le holdest ht)).ne'
  · cases hnone.symm.trans he

end Workhorse.ExportedDataset
