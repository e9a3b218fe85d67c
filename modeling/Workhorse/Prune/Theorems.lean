import Mathlib.Data.Set.Finite.Lemmas
import Workhorse.Prune.Terminal

/-!
# Progress of terminal cleanup

The window is cut before half of the references are checked. With a task to prune, a pass makes progress or
says that an edge starves it exactly when the tasks that hide it do not fill the window.
-/

namespace Workhorse.TerminalDb

variable {db : TerminalDb} {before : Cutoffs} {limit : Nat} {id : TaskId}

theorem age_injective (db : TerminalDb) : Function.Injective db.age := by
  intro a b h
  have hpair := congrArg (fun x => (ofLex x).2) h
  exact hpair

theorem nodup_eligible : (db.eligible before).Nodup := db.tasks.nodup.filter _

theorem mem_eligible : id ∈ db.eligible before ↔ db.inWindow before id = true := by
  rw [eligible, List.mem_filter, and_iff_right_iff_imp]
  intro h
  simp only [inWindow, aged, Bool.and_eq_true, Option.any_eq_true] at h
  obtain ⟨⟨⟨⟨⟨⟨createdAt, hcreated, -⟩, -⟩, -⟩, -⟩, -⟩, -⟩ := h
  exact Table.mem_keys_iff.mpr ⟨createdAt, hcreated⟩

def ahead (db : TerminalDb) (before : Cutoffs) (id : TaskId) : Nat :=
  (db.eligible before).countP fun other => db.age other < db.age id

theorem mem_window : id ∈ db.window before limit ↔
    db.inWindow before id = true ∧ db.ahead before id < min (limit * 4) 100000 := by
  rw [window, List.mem_firstBy db.age_injective nodup_eligible, mem_eligible]
  rfl

theorem candidates_eq_nil_iff (hlimit : 1 ≤ limit) : db.candidates before limit = [] ↔
    ∀ id ∈ db.window before limit, db.unprotected before id = false := by
  rw [candidates, List.take_eq_nil_iff, List.filter_eq_nil_iff]
  constructor
  · rintro (h | h)
    · omega
    · exact fun id hid => Bool.eq_false_iff.mpr (h id hid)
  · exact fun h => .inr fun id hid => Bool.eq_false_iff.mp (h id hid)

/-- A pass deletes a task or reports that an edge starves it. -/
def Progresses (db : TerminalDb) (before : Cutoffs) (limit : Nat) : Prop := ∃ db' pruned starved,
  db.pruneFullTerminalTasks before limit = .ok (db', pruned, starved) ∧ (0 < pruned ∨ starved = some true)

theorem progresses_iff (hlimit : 1 ≤ limit) : db.Progresses before limit ↔ limit ≤ 536870911 ∧
    ∃ id, db.inWindow before id = true ∧ (db.unprotected before id = true ∨ db.isPrerequisite id = true) ∧
      db.ahead before id < min (limit * 4) 100000 := by
  have hrun : db.pruneFullTerminalTasks before limit = if 2147483647 < limit * 4 then .error "integer out of range"
      else .ok (db.delete (db.candidates before limit), (db.candidates before limit).length,
        some ((db.candidates before limit).isEmpty && (db.window before limit).any db.isPrerequisite)) :=
    if_neg (by omega)
  rw [Progresses, hrun]
  constructor
  · rintro ⟨db', pruned, starved, hrun, hprogress⟩
    split at hrun
    · cases hrun
    · cases hrun
      refine ⟨by omega, ?_⟩
      rcases hprogress with hpruned | hstarved
      · have hne : db.candidates before limit ≠ [] := List.ne_nil_of_length_pos hpruned
        rw [ne_eq, candidates_eq_nil_iff hlimit] at hne
        push Not at hne
        obtain ⟨id, hid, hfree⟩ := hne
        obtain ⟨hin, hahead⟩ := mem_window.mp hid
        exact ⟨id, hin, .inl (by simpa using hfree), hahead⟩
      · simp only [Option.some.injEq, Bool.and_eq_true, List.any_eq_true] at hstarved
        obtain ⟨-, id, hid, hedge⟩ := hstarved
        obtain ⟨hin, hahead⟩ := mem_window.mp hid
        exact ⟨id, hin, .inr hedge, hahead⟩
  · rintro ⟨hmax, id, hin, hreached, hahead⟩
    refine ⟨_, _, _, if_neg (by omega), ?_⟩
    have hid := mem_window.mpr ⟨hin, hahead⟩
    by_cases hnil : db.candidates before limit = []
    · have hprotected := (candidates_eq_nil_iff hlimit).mp hnil id hid
      rw [hprotected] at hreached
      right
      simp only [hnil, List.isEmpty_nil, Bool.true_and, Option.some.injEq, List.any_eq_true]
      exact ⟨id, hid, hreached.resolve_left Bool.false_ne_true⟩
    · exact .inl (List.length_pos_of_ne_nil hnil)

/-- Every condition of the cleanup. -/
def prunable (db : TerminalDb) (before : Cutoffs) (id : TaskId) : Bool :=
  db.inWindow before id && db.unprotected before id

/-- The tasks past the cutoffs that are older than everything that may be pruned and than every
prerequisite: an occurrence, an idempotency row or a live child protects each of them. -/
def sheltered (db : TerminalDb) (before : Cutoffs) : List TaskId := (db.eligible before).filter fun id =>
  (db.eligible before).all fun other =>
    !(db.unprotected before other || db.isPrerequisite other) || db.age id < db.age other

theorem mem_sheltered : id ∈ db.sheltered before ↔ db.inWindow before id = true ∧
    ∀ other, db.inWindow before other = true →
      (db.unprotected before other = true ∨ db.isPrerequisite other = true) → db.age id < db.age other := by
  simp only [sheltered, List.mem_filter, mem_eligible, List.all_eq_true, Bool.or_eq_true, Bool.not_eq_true',
    Bool.or_eq_false_iff, decide_eq_true_eq]
  grind

theorem exists_ahead_lt_iff (h : ∃ id, db.prunable before id = true) {n : Nat} :
    (∃ id, db.inWindow before id = true ∧ (db.unprotected before id = true ∨ db.isPrerequisite id = true) ∧
      db.ahead before id < n) ↔ (db.sheltered before).length < n := by
  constructor
  · rintro ⟨id, hin, hreached, hahead⟩
    refine lt_of_le_of_lt ?_ hahead
    rw [ahead, List.countP_eq_length_filter]
    refine ((nodup_eligible.filter _).subperm fun other hother => ?_).length_le
    have hother := mem_sheltered.mp hother
    simp [mem_eligible, hother.1, hother.2 id hin hreached]
  · intro hlt
    -- Everything ahead of the oldest of the tasks that a pass deletes or reports hides it.
    obtain ⟨id, ⟨hin, hreached⟩, holdest⟩ := Set.exists_min_image
      {id | db.inWindow before id = true ∧ (db.unprotected before id = true ∨ db.isPrerequisite id = true)} db.age
      ((db.eligible before).finite_toSet.subset fun id hid => mem_eligible.mpr hid.1)
      (h.imp fun id hid => by simp_all [prunable])
    refine ⟨id, hin, hreached, lt_of_le_of_lt ?_ hlt⟩
    rw [ahead, List.countP_eq_length_filter]
    refine ((nodup_eligible.filter _).subperm fun other hother => ?_).length_le
    simp only [List.mem_filter, mem_eligible, decide_eq_true_eq] at hother
    exact mem_sheltered.mpr ⟨hother.1, fun o ho hreached => lt_of_lt_of_le hother.2 (holdest o ⟨ho, hreached⟩)⟩

/-- With a task to prune, a pass makes progress exactly if four times its limit is an integer of four bytes and
the window is larger than the number of sheltered tasks. -/
theorem prune_progress_iff (hlimit : 1 ≤ limit) :
    ((∃ id, db.prunable before id = true) → db.Progresses before limit) ↔
      ((∃ id, db.prunable before id = true) →
        limit ≤ 536870911 ∧ (db.sheltered before).length < min (limit * 4) 100000) := by
  refine imp_congr_right fun h => ?_
  rw [progresses_iff hlimit, exists_ahead_lt_iff h]

def keyedTasks : TerminalDb where
  tasks := ⟨[(1, 0), (2, 0), (3, 0), (4, 0), (5, 0)], by decide⟩
  outcomes := ⟨[(1, ⟨1, 1⟩), (2, ⟨2, 2⟩), (3, ⟨3, 3⟩), (4, ⟨4, 4⟩), (5, ⟨5, 5⟩)], by decide⟩
  runtime := []
  events := []
  attempts := []
  redrives := []
  members := []
  finishedGroups := []
  occurrences := []
  idempotency := [1, 2, 3, 4]
  dependencies := []
  children := []

/-- Task 5 may be pruned, and a pass of limit 1 deletes nothing and reports nothing. -/
theorem keyed_tasks_hide_prunable : keyedTasks.prunable ⟨10, 10, 10⟩ 5 = true ∧
    ∃ db', keyedTasks.pruneFullTerminalTasks ⟨10, 10, 10⟩ 1 = .ok (db', 0, some false) := by
  refine ⟨by decide +kernel, _, rfl⟩

/-- A limit of 2 reaches it. -/
theorem prune_progress_iff_keyedTasks : keyedTasks.sheltered ⟨10, 10, 10⟩ = [1, 2, 3, 4] ∧
    keyedTasks.Progresses ⟨10, 10, 10⟩ 2 := by
  have hsheltered : keyedTasks.sheltered ⟨10, 10, 10⟩ = [1, 2, 3, 4] := by decide +kernel
  refine ⟨hsheltered, (prune_progress_iff (by decide)).mpr (fun _ => ?_) ⟨5, by decide +kernel⟩⟩
  simp [hsheltered]

end Workhorse.TerminalDb
