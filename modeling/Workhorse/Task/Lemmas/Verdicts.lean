import Workhorse.Task.Lemmas.Standing

/-!
# A batch against single calls

What the two ways of completing the entries of one task come to, from the row that the worker holds.
-/

namespace Workhorse

namespace Standing

variable {now : Time} {x : Standing} {r : FastRuntime} {entries : List Completion}

theorem run_of_none {step : Completion → Standing → Standing}
    (hstep : ∀ c (y : Standing), y.row = none → step c y = y) (h : x.row = none) :
    x.run step entries = x := by
  induction entries with
  | nil => rfl
  | cons c entries ih =>
    change (step c x).run step entries = x
    rw [hstep c x h, ih]

theorem run_cons {step : Completion → Standing → Standing} {c : Completion} :
    x.run step (c :: entries) = (step c x).run step entries := rfl

def failed (now : Time) (x : Standing) (r : FastRuntime) : Standing :=
  { x with row := none, outcome := (r.oversizedOutcome now).or x.outcome }

def completed (now : Time) (x : Standing) (r : FastRuntime) (c : Completion) : Standing where
  row := none
  outcome := some (r.finished .succeeded (some (c.result.getD .null)) none none now)
  accepted := x.accepted + 1

theorem run_fail (h : x.row = some r) : x.run (.fail now) entries =
    if r.failable now = true ∧ ∃ c ∈ entries, r.fenceToken = c.fenceToken then x.failed now r else x := by
  induction entries with
  | nil => simp [run]
  | cons c entries ih =>
    rw [run_cons, fail_of_row h]
    by_cases hc : r.fenceToken = c.fenceToken ∧ r.failable now = true
    · rw [if_pos hc, run_of_none (fun _ _ => fail_of_none) rfl, if_pos ⟨hc.2, c, by simp, hc.1⟩]
      rfl
    · rw [if_neg hc, ih]
      refine if_congr ?_ rfl rfl
      grind

theorem run_complete (h : x.row = some r) (hrenew : r.lease.renewable now = true) : x.run (.complete now) entries =
      match entries.find? fun c => r.fenceToken = c.fenceToken with
      | none => x
      | some c => x.completed now r c := by
  induction entries with
  | nil => rfl
  | cons c entries ih =>
    rw [run_cons, complete_of_row h]
    by_cases hc : r.fenceToken = c.fenceToken
    · rw [if_pos ⟨hc, hrenew⟩, run_of_none (fun _ _ => complete_of_none) rfl]
      simp only [List.find?_cons, hc, decide_true]
      rfl
    · rw [if_neg fun hboth => hc hboth.1, ih]
      simp only [List.find?_cons, hc, decide_false]

theorem run_complete_of_not_renewable (h : x.row = some r) (hrenew : ¬r.lease.renewable now = true) :
    x.run (.complete now) entries = x := by
  induction entries with
  | nil => rfl
  | cons c entries ih =>
    rw [run_cons, complete_of_row h, if_neg fun hboth => hrenew hboth.2, ih]

theorem failable_of_renewable (h : r.lease.renewable now = true) : r.failable now = true := by
  simp only [Lease.renewable, FastRuntime.lease, Bool.and_eq_true] at h
  obtain ⟨⟨⟨hc, -⟩, -⟩, he⟩ := h
  obtain ⟨t, ht, hlt⟩ := (Option.any_eq_true _ _).mp he
  simp only [FastRuntime.failable, hc, ht, Bool.true_and]
  simpa using hlt

theorem run_single (h : x.row = some r) (hrenew : r.lease.renewable now = true) : x.run (.single now) entries =
      match entries.find? fun c => r.fenceToken = c.fenceToken with
      | none => x
      | some c => if r.resultMaxBytes < resultSize c.result then x.failed now r else x.completed now r c := by
  induction entries with
  | nil => rfl
  | cons c entries ih =>
    rw [run_cons, single_of_row h, fail_of_row h, complete_of_row h]
    by_cases hc : r.fenceToken = c.fenceToken
    · simp only [List.find?_cons, hc, decide_true, failable_of_renewable hrenew, hrenew, and_self, if_true]
      split <;> exact run_of_none (fun _ _ => single_of_none) rfl
    · simp only [hc, false_and, if_false, ite_self, List.find?_cons, decide_false]
      exact ih

theorem run_single_of_not_renewable (h : x.row = some r) (hrenew : ¬r.lease.renewable now = true) :
    x.run (.single now) entries =
      x.run (.fail now) (entries.filter fun c => r.resultMaxBytes < resultSize c.result) := by
  induction entries with
  | nil => rfl
  | cons c entries ih =>
    rw [run_cons, single_of_row h, complete_of_row h, if_neg (c := _ ∧ _) fun hboth => hrenew hboth.2]
    by_cases hbig : r.resultMaxBytes < resultSize c.result
    · rw [if_pos hbig, List.filter_cons_of_pos (by simpa using hbig), run_cons, fail_of_row h]
      split
      · rw [run_of_none (fun _ _ => single_of_none) rfl, run_of_none (fun _ _ => fail_of_none) rfl]
      · exact ih
    · rw [if_neg hbig, List.filter_cons_of_neg (by simpa using hbig), ih]

/-- A batch of the entries of one task: every oversized entry fails the attempt, and if there is none the
others complete it. -/
def batched (now : Time) (x : Standing) (oversized rest : List Completion) : Standing :=
  (x.run (.fail now) oversized).run (.complete now) rest

variable {oversized rest : List Completion}

theorem run_fail_perm {entries' : List Completion} (h : x.row = some r) (hperm : entries.Perm entries') :
    x.run (.fail now) entries = x.run (.fail now) entries' := by
  rw [run_fail h, run_fail h]
  refine if_congr ?_ rfl rfl
  simp only [hperm.mem_iff]

section Batch

variable (h : x.row = some r)
  (hover : oversized.Perm (entries.filter fun c => r.resultMaxBytes < resultSize c.result))
include h hover

theorem batched_of_not_renewable (hrenew : ¬r.lease.renewable now = true) :
    x.batched now oversized rest = x.run (.single now) entries := by
  rw [batched, run_single_of_not_renewable h hrenew, run_fail_perm h hover, run_fail h]
  split
  · exact run_of_none (fun _ _ => complete_of_none) rfl
  · exact run_complete_of_not_renewable h hrenew

theorem batched_of_oversized (hrenew : r.lease.renewable now = true) {c : Completion}
    (hc : c ∈ entries) (hf : r.fenceToken = c.fenceToken) (hbig : r.resultMaxBytes < resultSize c.result) :
    x.batched now oversized rest = x.failed now r := by
  have hmem : c ∈ oversized := hover.mem_iff.mpr (List.mem_filter.mpr ⟨hc, by simpa using hbig⟩)
  rw [batched, run_fail h, if_pos ⟨failable_of_renewable hrenew, c, hmem, hf⟩]
  exact run_of_none (fun _ _ => complete_of_none) rfl

omit h in
theorem batched_of_fitting (hfit : ∀ c ∈ entries, ¬r.resultMaxBytes < resultSize c.result) :
    x.batched now oversized rest = x.run (.complete now) rest := by
  have hnil : oversized = [] := by
    refine List.Perm.eq_nil (hover.trans ?_)
    rw [List.filter_eq_nil_iff.mpr fun c hc => by simpa using hfit c hc]
  rw [batched, hnil]
  rfl

theorem batched_of_stale (hrest : ∀ c ∈ rest, c ∈ entries)
    (hnone : ∀ c ∈ entries, ¬r.fenceToken = c.fenceToken) : x.batched now oversized rest = x := by
  have hfail : ¬(r.failable now = true ∧ ∃ c ∈ oversized, r.fenceToken = c.fenceToken) := by
    rintro ⟨-, c, hc, hf⟩
    exact hnone c (List.mem_filter.mp (hover.mem_iff.mp hc)).1 hf
  rw [batched, run_fail h, if_neg hfail]
  by_cases hrenew : r.lease.renewable now = true
  · have hfind : rest.find? (fun c => r.fenceToken = c.fenceToken) = none :=
      List.find?_eq_none.mpr fun c hc => by simpa using hnone c (hrest c hc)
    rw [run_complete h hrenew, hfind]
  · exact run_complete_of_not_renewable h hrenew

theorem batched_eq_single (hrest : rest.Perm
      (if ∃ c ∈ entries, r.resultMaxBytes < resultSize c.result then [] else entries))
    (hcond : r.lease.renewable now = true → r.Uncontested entries) :
    x.batched now oversized rest = x.run (.single now) entries := by
  by_cases hrenew : r.lease.renewable now = true
  · rw [run_single h hrenew]
    cases hfind : entries.find? fun c => r.fenceToken = c.fenceToken with
    | none =>
      refine batched_of_stale h hover (fun c hc => ?_) fun c hc => by
        simpa using List.find?_eq_none.mp hfind c hc
      have hmem := hrest.mem_iff.mp hc
      split at hmem
      · cases hmem
      · exact hmem
    | some c =>
      have hc := List.mem_of_find?_eq_some hfind
      have hf : r.fenceToken = c.fenceToken := by simpa using List.find?_some hfind
      rcases hcond hrenew c hfind with hbig | hall
      · simp only [if_pos hbig]
        exact batched_of_oversized h hover hrenew hc hf hbig
      · simp only [if_neg (hall c hc).1]
        rw [batched_of_fitting hover fun c' hc' => (hall c' hc').1, run_complete h hrenew]
        rw [if_neg fun ⟨c', hc', hbig⟩ => (hall c' hc').1 hbig] at hrest
        -- Whichever entry the row goes with, it carries the first one's result.
        cases hfirst : rest.find? fun c => r.fenceToken = c.fenceToken with
        | none => exact absurd hf (by simpa using List.find?_eq_none.mp hfirst c (hrest.mem_iff.mpr hc))
        | some c' =>
          have hc' := hrest.mem_iff.mp (List.mem_of_find?_eq_some hfirst)
          have hsame := (hall c' hc').2 (by simpa using List.find?_some hfirst)
          simp only [completed, hsame]
  · exact batched_of_not_renewable h hover hrenew

omit hover in
theorem batched_nil_accepted : (x.batched now oversized []).accepted = x.accepted := by
  change (x.run (.fail now) oversized).accepted = x.accepted
  rw [run_fail h]
  split <;> rfl

end Batch

end Standing

section Joins

variable {db : Db} {worker : String} {id : TaskId} {r : FastRuntime}
  {entries oversized rest : List Completion}

theorem entriesOf_perm {entries' : List Completion} (h : entries.Perm entries') :
    (entriesOf id entries).Perm (entriesOf id entries') := h.filter _

theorem mem_entriesOf {c : Completion} : c ∈ entriesOf id entries ↔ c ∈ entries ∧ c.taskId = id := by
  simp [entriesOf]

theorem oversized_iff (hr : db.fastRuntime.get? id = some r) {c : Completion} (hc : c.taskId = id) :
    c.oversized db = true ↔ r.resultMaxBytes < resultSize c.result := by
  simp [Completion.oversized, hc, hr]

theorem Joins.entriesOf_oversized (h : Joins db entries oversized rest)
    (hr : db.fastRuntime.get? id = some r) : (entriesOf id oversized).Perm
      ((entriesOf id entries).filter fun c => r.resultMaxBytes < resultSize c.result) := by
  refine (entriesOf_perm h.failing).trans (.of_eq ?_)
  simp only [entriesOf, List.filter_filter]
  refine List.filter_congr fun c _ => ?_
  by_cases hc : c.taskId = id
  · rw [Bool.eq_iff_iff]
    simp [hc, oversized_iff hr hc]
  · simp [hc]

theorem Joins.mem_failed (h : Joins db entries oversized rest) (hr : db.fastRuntime.get? id = some r) :
    id ∈ oversized.map (·.taskId) ↔ ∃ c ∈ entriesOf id entries, r.resultMaxBytes < resultSize c.result := by
  simp only [List.mem_map, h.failing.mem_iff, List.mem_filter, mem_entriesOf]
  constructor
  · rintro ⟨c, ⟨hc, hbig⟩, hid⟩
    exact ⟨c, ⟨hc, hid⟩, (oversized_iff hr hid).mp hbig⟩
  · rintro ⟨c, ⟨hc, hid⟩, hbig⟩
    exact ⟨c, ⟨hc, (oversized_iff hr hid).mpr hbig⟩, hid⟩

theorem Joins.entriesOf_rest (h : Joins db entries oversized rest)
    (hr : db.fastRuntime.get? id = some r) : (entriesOf id rest).Perm
      (if ∃ c ∈ entriesOf id entries, r.resultMaxBytes < resultSize c.result then []
        else entriesOf id entries) := by
  refine (entriesOf_perm h.completing).trans (.of_eq ?_)
  by_cases hbig : ∃ c ∈ entriesOf id entries, r.resultMaxBytes < resultSize c.result
  · have hid := (h.mem_failed hr).mpr hbig
    rw [if_pos hbig, entriesOf, List.filter_filter]
    refine List.filter_eq_nil_iff.mpr fun c _ => ?_
    rw [Bool.and_eq_true, not_and, decide_eq_true_iff]
    rintro rfl
    simpa using hid
  · have hid := (h.mem_failed hr).not.mpr hbig
    rw [if_neg hbig, entriesOf, entriesOf, List.filter_filter]
    refine List.filter_congr fun c _ => ?_
    by_cases hc : c.taskId = id
    · subst hc
      simpa using hid
    · simp [hc]

theorem Joins.exists_first (h : Joins db entries oversized rest) {c : Completion} (hc : c ∈ rest) :
    ∃ rest', Joins db entries oversized (c :: rest') := by
  obtain ⟨a, b, rfl⟩ := List.append_of_mem hc
  exact ⟨a ++ b, h.failing, h.byTask, List.perm_middle.symm.trans h.completing⟩

end Joins

theorem sameVerdicts_iff (worker : String) {accepted accepted' : List TaskId} {t u : Session} :
    SameVerdicts (accepted, t) (accepted', u) ↔ ∀ k,
      (t.standing worker accepted k).accepted = (u.standing worker accepted' k).accepted ∧
      (t.standing worker accepted k).outcome = (u.standing worker accepted' k).outcome := by
  rw [SameVerdicts, List.perm_iff_count, forall_and]
  rfl

end Workhorse
