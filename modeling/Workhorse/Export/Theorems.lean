import Workhorse.Export.Lemmas.Datasets

/-!
# Results on cold export

Over every run: how `exported_through` moves, who may complete a segment, and what a pass may delete.
-/

namespace Workhorse

open ExportedDataset

namespace ColdExport

variable {σ : ColdExport} {d : Dataset} {event : ExportEvent} {before : Dataset → Option Time}

@[simp] theorem data_set (d' : Dataset) (x : ExportedDataset) :
    (σ.set d x).data d' = if d' = d then x else σ.data d' := rfl

/-! ## One step of one dataset -/

inductive DataCase (d : Dataset) (x : ExportedDataset) : ExportEvent → ExportedDataset → Prop
  | quiet {event : ExportEvent} {x' : ExportedDataset} (through : x'.exportedThrough = x.exportedThrough)
      (segments : x'.segments = x.segments)
      (partitions : ∀ day ∈ x'.partitions, day ∈ x.partitions ∨ oneDay ∣ day) : DataCase d x event x'
  | enable {start : Option Time} {now : Time} {x' : ExportedDataset} (h : x.enable d start now = .ok x') :
      DataCase d x (.setPolicy true start now) x'
  | claim {enabled : Bool} {exporterId : String} {leaseMs : Int} {rolledUpThrough now : Time}
      {x' : ExportedDataset} {r : Option (Time × Nat)}
      (h : x.claim enabled exporterId leaseMs rolledUpThrough now = .ok (x', r)) :
      DataCase d x (.claim d enabled exporterId leaseMs rolledUpThrough now) x'
  | complete {start : Time} {attempts : Nat} {byteLength rowCount : Int} {x' : ExportedDataset}
      (h : x.complete d start attempts byteLength rowCount = .ok x') :
      DataCase d x (.complete d start attempts byteLength rowCount) x'
  | fail {start : Time} {attempts : Nat} {x' : ExportedDataset} (h : x.fail d start attempts = .ok x') :
      DataCase d x (.fail d start attempts) x'

theorem DataCase.stay (x : ExportedDataset) : DataCase d x event x := .quiet rfl rfl fun _ => .inl

theorem DataCase.set {d' : Dataset} {x : ExportedDataset} (h : DataCase d' (σ.data d') event x) (d : Dataset) :
    DataCase d (σ.data d) event ((σ.set d' x).data d) := by
  rw [data_set]
  split
  · rename_i heq
    subst heq
    exact h
  · exact .stay _

theorem dataCase_step (σ : ColdExport) (event : ExportEvent) (d : Dataset) :
    DataCase d (σ.data d) event ((σ.step event).data d) := by
  cases event with
  | record d' t =>
    refine DataCase.set ?_ d
    exact .quiet rfl rfl fun _ => .inl
  | createPartition d' day =>
    rw [step]
    split
    · exact .stay _
    · refine DataCase.set ?_ d
      refine .quiet rfl rfl fun day' hday => ?_
      obtain rfl | hday := List.mem_cons.mp hday
      · exact .inr dvd_dateBin
      · exact .inl hday
  | setPolicy enabled start now =>
    cases enabled with
    | false =>
      rw [step]
      split <;> exact .stay _
    | true =>
      rw [step]
      split
      · rename_i hevent hattempt houtcome
        cases d with
        | taskEvent => exact .enable hevent
        | attemptHistory => exact .enable hattempt
        | fastTaskOutcome => exact .enable houtcome
      · exact .stay _
  | claim d' enabled exporterId leaseMs rolledUpThrough now =>
    rw [step]
    split
    · rename_i h
      exact .set (.claim h) d
    · exact .stay _
  | complete d' start attempts byteLength rowCount =>
    rw [step]
    split
    · rename_i h
      exact .set (.complete h) d
    · exact .stay _
  | fail d' start attempts =>
    rw [step]
    split
    · rename_i h
      exact .set (.fail h) d
    · exact .stay _
  | startPass conn pass => exact .stay _
  | readPolicy conn =>
    rw [step]
    split <;> exact .stay _
  | deleteRows conn d' reaches drops =>
    rw [step]
    split
    · refine DataCase.set ?_ d
      exact .quiet rfl rfl fun day hday => .inl (List.mem_of_mem_filter hday)
    · exact .stay _
  | endPass conn => exact .stay _

theorem DataCase.sound {x x' : ExportedDataset} (h : DataCase d x event x') (hx : x.Sound) :
    x'.Sound ∧ x.Follows x' := by
  cases h with
  | quiet hthrough hsegments hpart =>
    refine ⟨hx.of_eq hthrough hsegments fun day hday => ?_, .of_eq hthrough hsegments⟩
    exact (hpart day hday).elim (hx.partitions day) id
  | enable h => exact sound_enable hx h
  | claim h => exact sound_claim hx h
  | complete h => exact sound_complete hx h
  | fail h => exact sound_fail hx h

/-- What moves `exported_through`, and past which days. -/
theorem DataCase.passes {x x' : ExportedDataset} (h : DataCase d x event x') (hx : x.Sound) {e e' day : Time}
    (he : x.exportedThrough = some e) (he' : x'.exportedThrough = some e') (hday : oneDay ∣ day) (hle : e ≤ day)
    (hlt : day < e') :
    ((∃ start attempts byteLength rowCount, event = .complete d start attempts byteLength rowCount) ∧
      ∃ s ∈ x'.segments, s.start = day ∧ s.status = .complete) ∨
    ((∃ start now, event = .setPolicy true start now) ∧ ∀ t ∈ x.rows, dateBin oneDay t ≠ day) := by
  have hmoved : x'.exportedThrough ≠ x.exportedThrough := by
    intro heq
    obtain rfl : e' = e := Option.some.inj (he'.symm.trans (heq.trans he))
    exact absurd hlt (not_lt.mpr hle)
  cases h with
  | quiet hthrough => exact absurd hthrough hmoved
  | enable h => exact .inr ⟨⟨_, _, rfl⟩, fun t ht => enable_skips h he he' hle hlt ht⟩
  | claim h =>
    have hsame : x'.exportedThrough = x.exportedThrough := by
      obtain ⟨heq, -⟩ | ⟨_, -, -, heq⟩ | ⟨_, -, -, -, -, heq⟩ := claim_cases h <;> rw [heq]
    exact absurd hsame hmoved
  | complete h => exact .inl ⟨⟨_, _, _, _, rfl⟩, complete_passes hx h he he' hday hle hlt⟩
  | fail h =>
    rw [fail_cases h] at hmoved
    exact absurd rfl hmoved

/-! ## The datasets along a run -/

theorem sound_run' (hσ : (σ.data d).Sound) (events : List ExportEvent) :
    ((σ.run events).data d).Sound ∧ (σ.data d).Follows ((σ.run events).data d) := by
  induction events generalizing σ with
  | nil => exact ⟨hσ, .refl _⟩
  | cons event events ih =>
    obtain ⟨hsound, hfollows⟩ := (dataCase_step σ event d).sound hσ
    obtain ⟨hsound', hfollows'⟩ := ih hsound
    exact ⟨hsound', hfollows.trans hfollows'⟩

theorem sound_run (events : List ExportEvent) (d : Dataset) : ((initial.run events).data d).Sound :=
  (sound_run' sound_blank events).1

theorem sound_step (hσ : (σ.data d).Sound) (event : ExportEvent) : ((σ.step event).data d).Sound :=
  ((dataCase_step σ event d).sound hσ).1

theorem claimed_cases {r : Time × Nat} (h : σ.claimed d event = some r) :
    ∃ enabled exporterId leaseMs rolledUpThrough now,
      (σ.data d).claim enabled exporterId leaseMs rolledUpThrough now = .ok ((σ.step event).data d, some r) := by
  cases event with
  | claim d' enabled exporterId leaseMs rolledUpThrough now =>
    rw [claimed] at h
    split at h
    · rename_i heq
      subst heq
      split at h
      · rename_i x r' hclaim
        subst h
        refine ⟨enabled, exporterId, leaseMs, rolledUpThrough, now, ?_⟩
        simp [step, hclaim]
      · cases h
    · cases h
  | _ => cases h

theorem held_of_claimed_again {events : List ExportEvent} {again : ExportEvent} {later : List ExportEvent}
    {start : Time} {n m : Nat} (hσ : (σ.data d).Sound) (hfirst : σ.claimed d event = some (start, n))
    (hagain : ((σ.step event).run events).claimed d again = some (start, m)) :
    ((((((σ.step event).run events).step again).run later).data d).held start n) = false := by
  obtain ⟨_, _, _, _, _, hclaim⟩ := claimed_cases hfirst
  obtain ⟨s, hs, hstart, hatt⟩ := claim_attempts hclaim
  obtain ⟨hsound, hfollows⟩ := sound_run' (sound_step hσ event) events
  obtain ⟨s', hs', hstart', hle, -⟩ := hfollows.segments s hs
  obtain ⟨_, _, _, _, _, hclaim'⟩ := claimed_cases hagain
  have hlt := hsound.claim_lt hclaim' hs' (hstart'.trans hstart)
  obtain ⟨s₂, hs₂, hstart₂, hatt₂⟩ := claim_attempts hclaim'
  obtain ⟨hsound', hfollows'⟩ := sound_run' (sound_step hsound again) later
  obtain ⟨s₃, hs₃, hstart₃, hle₃, -⟩ := hfollows'.segments s₂ hs₂
  rw [show start = s₃.start from (hstart₃.trans hstart₂).symm]
  refine hsound'.held_eq_false hs₃ ?_
  simp only at hatt hatt₂ hlt
  omega

/-! ## Passes -/

structure Guarded (σ : ColdExport) : Prop where
  enabled : σ.enabled = true → ∀ d, (σ.data d).exportedThrough.isSome
  passes : ∀ conn p before, σ.passes.get? conn = some p → p.read = some (true, before) →
    ∀ d b, before d = some b → ∃ e, (σ.data d).exportedThrough = some e ∧ b ≤ e

theorem cutoffs_le (henabled : σ.enabled = true) {pass : DeletePass} {b : Time} (h : σ.cutoffs pass d = some b) :
    b ≤ σ.through d := by
  cases pass with
  | history pass stats =>
    cases d with
    | taskEvent =>
      simp only [cutoffs, henabled, if_true, HistoryPass.eventBefore, Option.map_eq_some_iff] at h
      obtain ⟨-, -, rfl⟩ := h
      exact min_le_right _ _
    | attemptHistory =>
      simp only [cutoffs, henabled, if_true, HistoryPass.attemptBefore, Option.map_eq_some_iff] at h
      obtain ⟨-, -, rfl⟩ := h
      exact min_le_right _ _
    | fastTaskOutcome => cases h
  | terminal outcomeBefore historyBefore =>
    cases d with
    | taskEvent => cases h
    | attemptHistory => cases h
    | fastTaskOutcome =>
      simp only [cutoffs, henabled, if_true, Option.some.injEq] at h
      rw [← h]
      exact (min_le_right _ _).trans (min_le_right _ _)

theorem guarded_initial : initial.Guarded where
  enabled h := by cases h
  passes conn p before h := by cases h

theorem Guarded.passes_step (h : σ.Guarded) (hsound : ∀ d, (σ.data d).Sound) (event : ExportEvent) {conn : Nat}
    {p : RunningPass} (hp : σ.passes.get? conn = some p)
    (hread : p.read = some (true, before)) {d : Dataset} {b : Time} (hb : before d = some b) :
    ∃ e, ((σ.step event).data d).exportedThrough = some e ∧ b ≤ e := by
  obtain ⟨e, he, hle⟩ := h.passes conn p before hp hread d b hb
  obtain ⟨e', he', hle'⟩ := ((dataCase_step σ event d).sound (hsound d)).2.through e he
  exact ⟨e', he', hle.trans hle'⟩

def IsControl : ExportEvent → Prop
  | .setPolicy _ _ _ => True
  | .startPass _ _ => True
  | .readPolicy _ => True
  | .endPass _ => True
  | _ => False

theorem control_or_frame (σ : ColdExport) (event : ExportEvent) :
    IsControl event ∨ ((σ.step event).enabled = σ.enabled ∧ (σ.step event).passes = σ.passes) := by
  cases event with
  | setPolicy _ _ _ => exact .inl trivial
  | startPass _ _ => exact .inl trivial
  | readPolicy _ => exact .inl trivial
  | endPass _ => exact .inl trivial
  | record d t => exact .inr ⟨rfl, rfl⟩
  | createPartition d day =>
    rw [step]
    split <;> exact .inr ⟨rfl, rfl⟩
  | claim d enabled exporterId leaseMs rolledUpThrough now =>
    rw [step]
    split <;> exact .inr ⟨rfl, rfl⟩
  | complete d start attempts byteLength rowCount =>
    rw [step]
    split <;> exact .inr ⟨rfl, rfl⟩
  | fail d start attempts =>
    rw [step]
    split <;> exact .inr ⟨rfl, rfl⟩
  | deleteRows conn d reaches drops =>
    rw [step]
    split <;> exact .inr ⟨rfl, rfl⟩

theorem get?_passes_step (σ : ColdExport) (event : ExportEvent) {conn : Nat} {p : RunningPass}
    (hp : (σ.step event).passes.get? conn = some p) (hread : p.read = some (true, before)) :
    (∃ p', σ.passes.get? conn = some p' ∧ p'.read = some (true, before)) ∨
    (event = .readPolicy conn ∧ σ.enabled = true ∧ ∃ pass, before = σ.cutoffs pass) := by
  rcases control_or_frame σ event with hcontrol | ⟨-, hpasses⟩
  · cases event with
    | setPolicy enabled start now =>
      cases enabled <;> rw [step] at hp <;> split at hp <;> exact .inl ⟨p, hp, hread⟩
    | startPass conn' pass =>
      rcases Table.get?_put_cases hp with ⟨-, rfl⟩ | ⟨-, hp⟩
      · cases hread
      · exact .inl ⟨p, hp, hread⟩
    | readPolicy conn' =>
      rw [step] at hp
      split at hp
      · rcases Table.get?_put_cases hp with ⟨rfl, rfl⟩ | ⟨-, hp⟩
        · simp only [Option.some.injEq, Prod.mk.injEq] at hread
          exact .inr ⟨rfl, hread.1, _, hread.2.symm⟩
        · exact .inl ⟨p, hp, hread⟩
      · exact .inl ⟨p, hp, hread⟩
    | endPass conn' =>
      obtain ⟨-, hp⟩ := Table.get?_erase_eq_some hp
      exact .inl ⟨p, hp, hread⟩
    | _ => cases hcontrol
  · exact .inl ⟨p, hpasses ▸ hp, hread⟩

theorem enabled_step (h : (σ.step event).enabled = true) :
    σ.enabled = true ∨ ∀ d, ((σ.step event).data d).exportedThrough.isSome := by
  rcases control_or_frame σ event with hcontrol | ⟨henabled, -⟩
  · cases event with
    | setPolicy enabled start now =>
      cases enabled with
      | false =>
        rw [step] at h
        split at h
        · exact .inl h
        · cases h
      | true =>
        rw [step] at h ⊢
        split at h
        · rename_i hevent hattempt houtcome
          refine .inr fun d => ?_
          cases d with
          | taskEvent => exact isSome_enable hevent
          | attemptHistory => exact isSome_enable hattempt
          | fastTaskOutcome => exact isSome_enable houtcome
        · exact .inl h
    | startPass conn pass => exact .inl h
    | readPolicy conn =>
      rw [step] at h
      split at h <;> exact .inl h
    | endPass conn => exact .inl h
    | _ => cases hcontrol
  · exact .inl (henabled ▸ h)

theorem Guarded.step (h : σ.Guarded) (hsound : ∀ d, (σ.data d).Sound) (event : ExportEvent) :
    (σ.step event).Guarded where
  enabled hon d := by
    rcases enabled_step hon with hon | hsome
    · obtain ⟨e, he⟩ := Option.isSome_iff_exists.mp (h.enabled hon d)
      obtain ⟨e', he', -⟩ := ((dataCase_step σ event d).sound (hsound d)).2.through e he
      exact Option.isSome_iff_exists.mpr ⟨e', he'⟩
    · exact hsome d
  passes conn p before hp hread d b hb := by
    rcases get?_passes_step σ event hp hread with ⟨p', hp', hread'⟩ | ⟨-, hon, pass, rfl⟩
    · exact h.passes_step hsound event hp' hread' hb
    · obtain ⟨e, he⟩ := Option.isSome_iff_exists.mp (h.enabled hon d)
      obtain ⟨e', he', hle⟩ := ((dataCase_step σ event d).sound (hsound d)).2.through e he
      have hb' : b ≤ e := by
        have hcut := cutoffs_le hon hb
        rwa [through, he] at hcut
      exact ⟨e', he', hb'.trans hle⟩

theorem guarded_run (events : List ExportEvent) : (initial.run events).Guarded := by
  induction events using List.reverseRecOn with
  | nil => exact guarded_initial
  | append_singleton events event ih =>
    rw [run, List.foldl_append]
    exact ih.step (sound_run events) event

theorem deleted_lt {conn : Nat} {reaches drops : Time → Bool} {d d' : Dataset} {p : RunningPass} {on : Bool}
    (hp : σ.passes.get? conn = some p) (hread : p.read = some (on, before))
    {t : Time} (ht : t ∈ (σ.data d).rows) (hgone : t ∉ ((σ.step (.deleteRows conn d' reaches drops)).data d).rows) :
    ∃ b, before d = some b ∧ t < b := by
  simp only [step, hp, Option.bind_some, hread, data_set] at hgone
  split at hgone
  · rename_i heq
    subst heq
    by_contra hkeep
    refine hgone (List.mem_filter.mpr ⟨ht, ?_⟩)
    have hbefore : ((before d).any fun b => t < b) = false := by
      cases hb : before d with
      | none => rfl
      | some b => simpa [hb] using hkeep
    rw [hbefore, Bool.and_false]
    rfl
  · exact absurd ht hgone

end ColdExport

open ColdExport

/-- Progress of cold export, in the state after any run and at its next step: `exported_through` never
decreases; one segment at most is exporting; a day that a completion passes has exactly one complete segment
from then on, and another day is passed only when export is enabled again and no row of that day is there; a
segment that is claimed again can neither be completed nor failed by the attempt before; and a pass that has
found export enabled deletes no row at or after `exported_through`. -/
theorem export_contiguous (events : List ExportEvent) (event : ExportEvent) (later : List ExportEvent)
    (d : Dataset) :
    let σ := initial.run events
    let σ' := σ.step event
    (∀ e, (σ.data d).exportedThrough = some e → ∃ e', (σ'.data d).exportedThrough = some e' ∧ e ≤ e') ∧
    ((σ.data d).segments.countP fun s => s.status = .exporting) ≤ 1 ∧
    (∀ e e' day, (σ.data d).exportedThrough = some e → (σ'.data d).exportedThrough = some e' → oneDay ∣ day →
      e ≤ day → day < e' →
      ((∃ start attempts byteLength rowCount, event = .complete d start attempts byteLength rowCount) ∧
        (((σ'.run later).data d).segments.countP fun s => s.start = day && s.status = .complete) = 1) ∨
      ((∃ start now, event = .setPolicy true start now) ∧ ∀ t ∈ (σ.data d).rows, dateBin oneDay t ≠ day)) ∧
    (∀ start n again m rest, σ.claimed d event = some (start, n) → (σ'.run later).claimed d again = some (start, m) →
      let τ := ((σ'.run later).step again).run rest
      (∀ byteLength rowCount, ∃ f, (τ.data d).complete d start n byteLength rowCount = .error f) ∧
        ∃ f, (τ.data d).fail d start n = .error f) ∧
    (∀ conn d' reaches drops p before, event = .deleteRows conn d' reaches drops →
      σ.passes.get? conn = some p → p.read = some (true, before) →
      ∀ t ∈ (σ.data d).rows, t ∉ (σ'.data d).rows → ∃ e, (σ.data d).exportedThrough = some e ∧ t < e) := by
  intro σ σ'
  have hsound : (σ.data d).Sound := sound_run events d
  have hstep := dataCase_step σ event d
  refine ⟨(hstep.sound hsound).2.through, hsound.single, ?_, ?_, ?_⟩
  · intro e e' day he he' hday hle hlt
    rcases hstep.passes hsound he he' hday hle hlt with ⟨hcomplete, s, hs, rfl, hdone⟩ | hskip
    · -- The segment stays complete, and no other has its start.
      obtain ⟨hsound', hfollows⟩ := sound_run' (sound_step hsound event) later
      obtain ⟨s', hs', hstart, -, hdone'⟩ := hfollows.segments s hs
      refine .inl ⟨hcomplete, ?_⟩
      rw [← hstart]
      exact hsound'.countP_complete hs' (hdone' hdone)
    · exact .inr hskip
  · intro start n again m rest hfirst hagain τ
    have hheld : (τ.data d).held start n = false := held_of_claimed_again hsound hfirst hagain
    constructor
    · intro byteLength rowCount
      rw [complete, hheld]
      split
      · exact ⟨_, rfl⟩
      split <;> exact ⟨_, rfl⟩
    · rw [fail, hheld]
      exact ⟨_, rfl⟩
  · intro conn d' reaches drops p before hevent hp hread t ht hgone
    subst hevent
    obtain ⟨b, hb, hlt⟩ := deleted_lt hp hread ht hgone
    obtain ⟨e, he, hle⟩ := (guarded_run events).passes conn p before hp hread d b hb
    exact ⟨e, he, hlt.trans_le hle⟩

def claimedTwice : List ExportEvent := [.record .taskEvent 5, .setPolicy true none oneDay,
    .claim .taskEvent true "exporter" 1000 oneDay oneDay, .claim .taskEvent true "exporter" 1000 oneDay (2 * oneDay)]

theorem export_contiguous_claimedTwice :
    (((initial.run claimedTwice).step (.complete .taskEvent 0 2 10 1)).data .taskEvent).exportedThrough = some oneDay ∧
    ((((initial.run claimedTwice).step (.complete .taskEvent 0 2 10 1)).data .taskEvent).segments.countP
      fun s => s.start = 0 && s.status = .complete) = 1 := by
  refine ⟨by decide, ?_⟩
  have hpassed := (export_contiguous claimedTwice (.complete .taskEvent 0 2 10 1) [] .taskEvent).2.2.1 0 oneDay 0
    (by decide) (by decide) (by decide) (by decide) (by decide)
  rcases hpassed with ⟨-, hone⟩ | ⟨⟨start, now, hevent⟩, -⟩
  · exact hone
  · cases hevent

/-- A pass starts while export is enabled, export is switched off, and only then does the pass read the
policy. -/
def switchedOffEvents : List ExportEvent := [.record .fastTaskOutcome 5, .setPolicy true none oneDay,
    .startPass 1 (.terminal (3 * oneDay) (3 * oneDay)), .setPolicy false none oneDay, .readPolicy 1]

theorem switchedOff_deletes : ∃ p, (initial.run switchedOffEvents).passes.get? 1 = some p ∧ p.startedEnabled = true ∧
      ∃ t ∈ ((initial.run switchedOffEvents).data .fastTaskOutcome).rows, t ∉ (((initial.run switchedOffEvents).step
          (.deleteRows 1 .fastTaskOutcome (fun _ => true) fun _ => true)).data .fastTaskOutcome).rows ∧
        ∃ e, ((initial.run switchedOffEvents).data .fastTaskOutcome).exportedThrough = some e ∧ e ≤ t :=
  ⟨_, rfl, rfl, 5, by decide, by decide, 0, by decide, by decide⟩

end Workhorse
