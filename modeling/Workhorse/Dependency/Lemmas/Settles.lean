import Workhorse.Dependency.Lemmas.Cascade

/-!
# Settlement in a cascade

Each statement of a settlement is a statement of the run that it is a part of.
-/

namespace Workhorse

open Db

variable {fire : Fire} {s t : Session} {id : TaskId} {new chosen : TaskId → Prop} {a b b' : Db} {now : Time}

def Db.Ends (db : Db) (e : TaskId × OutcomeState) : Prop :=
  db.runtime.get? e.1 = none ∧ ∃ o, db.outcomes.get? e.1 = some o ∧ o.state = e.2

def Cascading (fire : Fire) : Prop := ∀ new (s : Session), (∀ e ∈ new, s.db.Ends e) →
  Cascade (fun id => id ∈ new.map Prod.fst) (fun _ => False) s.db (fire new s).db

structure Db.Agrees (a b : Db) : Prop where
  runtime : b.runtime = a.runtime
  outcomes : b.outcomes = a.outcomes
  dependencies : b.dependencies = a.dependencies

namespace Db.Agrees

theorem refl (a : Db) : a.Agrees a := ⟨rfl, rfl, rfl⟩

theorem trans {c : Db} (h : a.Agrees b) (h' : b.Agrees c) : a.Agrees c :=
  ⟨h'.runtime.trans h.runtime, h'.outcomes.trans h.outcomes, h'.dependencies.trans h.dependencies⟩

theorem statement {base : Db} (h : b.Agrees b') : Statement new chosen base b b' :=
  .same h.runtime h.outcomes h.dependencies

theorem onward (h : b.Agrees b') : b.Onward b' := by
  have hstatement : Statement (fun _ => False) (fun _ => False) b b b' := h.statement
  exact hstatement.onward

theorem pendingEdges (h : a.Agrees b) : b.pendingEdges id = a.pendingEdges id := by
  rw [Db.pendingEdges, Db.pendingEdges, h.dependencies]

theorem foldl {α : Type} {f : Db → α → Db} {xs : List α} (hf : ∀ b x, a.Agrees b → x ∈ xs → b.Agrees (f b x)) :
    a.Agrees (xs.foldl f a) := by
  suffices h : ∀ (ys : List α) b, (∀ y ∈ ys, y ∈ xs) → a.Agrees b → a.Agrees (ys.foldl f b) from
    h xs a (fun _ h => h) (refl a)
  intro ys
  induction ys with
  | nil => exact fun b _ hb => hb
  | cons y ys ih =>
    intro b hys hb
    exact ih _ (fun z hz => hys z (by simp [hz])) (hb.trans (hf b y hb (hys y (by simp))))

end Db.Agrees

/-! ## Closing rows -/

def Db.closeRows (db : Db) (rows : List (TaskId × Outcome)) : Db :=
  rows.foldl (fun db e => db.setOutcome e.1 e.2) (removeSettled db rows)

theorem foldl_unwritten {α β : Type} (π : Db → β) {f : Db → α → Db} (hf : ∀ db x, π (f db x) = π db)
    (xs : List α) (db : Db) : π (xs.foldl f db) = π db := by
  induction xs generalizing db with
  | nil => rfl
  | cons x xs ih => exact (ih (f db x)).trans (hf db x)

section Close

variable {rows : List (TaskId × Outcome)}

theorem runtime_closeRows : (b.closeRows rows).runtime = rows.foldl (fun t e => t.erase e.1) b.runtime := by
  simp only [closeRows, removeSettled]
  rw [foldl_unwritten Db.runtime ?_ rows]
  · exact (List.foldl_hom Db.runtime fun _ _ => rfl).symm
  · exact fun _ _ => rfl

theorem outcomes_closeRows : (b.closeRows rows).outcomes = rows.foldl (fun t e => t.put e.1 e.2) b.outcomes := by
  have hremove : (removeSettled b rows).outcomes = b.outcomes := by
    rw [removeSettled, foldl_unwritten Db.outcomes ?_ rows]
    exact fun _ _ => rfl
  rw [closeRows, ← hremove]
  exact (List.foldl_hom Db.outcomes fun _ _ => rfl).symm

theorem dependencies_closeRows : (b.closeRows rows).dependencies = b.dependencies := by
  unfold closeRows removeSettled
  rw [foldl_unwritten Db.dependencies ?_ rows, foldl_unwritten Db.dependencies ?_ rows]
  · exact fun _ _ => rfl
  · exact fun _ _ => rfl

theorem closeRows_statement (hnd : (rows.map Prod.fst).Nodup)
    (hrows : ∀ e ∈ rows, Ripe new chosen a b e.1 ∧ ∃ r, b.runtime.get? e.1 = some r) :
    Statement new chosen a b (b.closeRows rows) where
  edges := dependencies_closeRows
  change id := by
    by_cases hid : id ∈ rows.map Prod.fst
    · obtain ⟨e, he, rfl⟩ := List.mem_map.mp hid
      obtain ⟨hripe, r, hr⟩ := hrows e he
      refine .closed hr hripe ?_ (o := e.2) ?_
      · rw [runtime_closeRows, Table.get?_foldl_erase, if_pos hid]
      · rw [outcomes_closeRows, Table.get?_foldl_put_of_mem hnd he]
    · refine .same ?_ ?_
      · rw [runtime_closeRows, Table.get?_foldl_erase, if_neg hid]
      · rw [outcomes_closeRows, Table.get?_foldl_put hid]

theorem closeRows_ends (hnd : (rows.map Prod.fst).Nodup) :
    ∀ e ∈ rows.map fun e => (e.1, e.2.state), (b.closeRows rows).Ends e := by
  intro e' he'
  obtain ⟨e, he, rfl⟩ := List.mem_map.mp he'
  constructor
  · rw [runtime_closeRows, Table.get?_foldl_erase, if_pos (List.mem_map_of_mem he)]
  · exact ⟨e.2, by rw [outcomes_closeRows, Table.get?_foldl_put_of_mem hnd he], rfl⟩

end Close

/-! ## Parts of a settlement -/

section Run

variable {rows : List (TaskId × Outcome)} {r : Runtime}

theorem Db.Cascade.fire_closed (hfire : Cascading fire) (h : Cascade new chosen a s.db)
    (hnd : (rows.map Prod.fst).Nodup)
    (hrows : ∀ e ∈ rows, Ripe new chosen a s.db e.1 ∧ ∃ r, s.db.runtime.get? e.1 = some r) :
    Cascade new chosen a (insertOutcomes fire rows (s.update fun db => removeSettled db rows)).db ∧
      s.db.Onward (insertOutcomes fire rows (s.update fun db => removeSettled db rows)).db := by
  have hstatement := closeRows_statement hnd hrows
  have hfires := hfire (rows.map fun e => (e.1, e.2.state)) (s.update fun db => db.closeRows rows)
    (closeRows_ends hnd)
  have hkeys : ∀ id, id ∈ (rows.map fun e => (e.1, e.2.state)).map Prod.fst → Ripe new chosen a s.db id := by
    intro id hid
    simp only [List.map_map, List.mem_map, Function.comp_apply] at hid
    obtain ⟨e, he, rfl⟩ := hid
    exact (hrows e he).1
  refine ⟨(h.statement hstatement).fires hfires (fun id hid => ?_) (fun id p d hid hd => ?_),
    hstatement.onward.trans hfires.onward⟩
  · obtain ⟨r, hr, -⟩ := (hkeys id hid).blocked
    exact .inr ⟨r, hr⟩
  · exact (hkeys id hid).settled p d (dependencies_closeRows ▸ hd)

theorem Cascading.finish (hfire : Cascading fire) (id : TaskId) (o : Outcome) (s : Session) :
    Cascade (fun k => k = id) (fun _ => False) ((s.db.deleteRuntime id).setOutcome id o) (finish fire id o s).db := by
  have hends : ∀ e ∈ [(id, o.state)], ((s.db.deleteRuntime id).setOutcome id o).Ends e := by
    simp [Ends, deleteRuntime, setOutcome]
  have hkeys : (fun k => k ∈ [(id, o.state)].map Prod.fst) = fun k => k = id := by
    funext k
    simp
  exact hkeys ▸ hfire [(id, o.state)] ((s.update fun db => db.deleteRuntime id).update fun db => db.setOutcome id o)
    hends

theorem Db.Cascade.finish (hfire : Cascading fire) (h : Cascade new chosen a s.db)
    (hripe : Ripe new chosen a s.db id) (hr : s.db.runtime.get? id = some r) (o : Outcome) :
    Cascade new chosen a (finish fire id o s).db ∧ s.db.Onward (finish fire id o s).db := by
  have hstatement : Statement new chosen a s.db ((s.db.deleteRuntime id).setOutcome id o) := by
    refine ⟨rfl, fun k => ?_⟩
    by_cases hk : k = id
    · subst hk
      refine .closed hr hripe ?_ (o := o) ?_ <;> simp [deleteRuntime, setOutcome]
    · refine .same ?_ ?_ <;> simp [deleteRuntime, setOutcome, hk]
  have hfires := hfire.finish id o s
  refine ⟨(h.statement hstatement).fires hfires (fun k hk => ?_) (fun k p d hk hd => ?_),
    hstatement.onward.trans hfires.onward⟩
  · obtain ⟨r, hr, -⟩ := hripe.blocked
    exact .inr ⟨r, hk ▸ hr⟩
  · subst hk
    exact hripe.settled p d hd

theorem terminalizeDeadlineWith_cases (fire : Fire) (id : TaskId) (s : Session) :
    s.db.Agrees (terminalizeDeadlineWith fire id s).2.db ∨
      ∃ r deadline o, s.db.runtime.get? id = some r ∧ r.deadlineAt = some deadline ∧
        (r.cancelRequestedAt = none → o.state = .failed ∧ o.error = some (.deadlineExceeded deadline)) ∧
        (finish fire id o s.ask.ask).db.Agrees (terminalizeDeadlineWith fire id s).2.db := by
  unfold terminalizeDeadlineWith
  split
  · left
    unfold fastTerminalizeDeadline
    split
    · exact .refl _
    · split
      · exact .refl _
      · split
        · exact .refl _
        · split <;> (simp only [fastFinish, Session.update_db]; split <;> exact ⟨rfl, rfl, rfl⟩)
  · split
    · exact .inl (.refl _)
    · rename_i r hr
      split
      · exact .inl (.refl _)
      · rename_i deadline hdeadline
        split
        · exact .inl (.refl _)
        · right
          split
          · rename_i hcancel
            refine ⟨r, deadline, _, hr, hdeadline, fun hnone => ?_, ⟨rfl, rfl, rfl⟩⟩
            rw [hcancel] at hnone
            cases hnone
          · refine ⟨r, deadline, ?_⟩
            apply Exists.intro
            refine ⟨hr, hdeadline, ?_, ?_⟩
            swap
            · dsimp only [Session.update_db]
              split <;> exact ⟨rfl, rfl, rfl⟩
            · exact fun _ => ⟨rfl, rfl⟩

theorem Db.Cascade.terminalizeDeadline (hfire : Cascading fire) (h : Cascade new chosen a s.db)
    (hripe : Ripe new chosen a s.db id) :
    Cascade new chosen a (terminalizeDeadlineWith fire id s).2.db ∧
      s.db.Onward (terminalizeDeadlineWith fire id s).2.db := by
  rcases terminalizeDeadlineWith_cases fire id s with hsame | ⟨r, deadline, o, hr, -, -, hagrees⟩
  · exact ⟨h.statement hsame.statement, hsame.onward⟩
  · obtain ⟨hc, hon⟩ := Db.Cascade.finish (s := s.ask.ask) hfire h hripe hr o
    exact ⟨hc.statement hagrees.statement, hon.trans hagrees.onward⟩

theorem releaseDependent_cases (now : Time) (s : Session) (id : TaskId) :
    s.db.Agrees (releaseDependent now s id).db ∧ s.db.isBlocked id = false ∨
      ∃ r sequence, s.db.runtime.get? id = some r ∧ r.state = .blocked ∧
        (s.db.setRuntime id (r.dependencyReleased now sequence)).Agrees (releaseDependent now s id).db := by
  unfold releaseDependent
  cases hr : s.db.runtime.get? id with
  | none => exact .inl ⟨.refl _, by simp [isBlocked, hr]⟩
  | some r =>
    by_cases hs : r.state = .blocked
    · refine .inr ⟨r, if r.runAt ≤ now then s.db.readySeq + 1 else 0, rfl, hs, ?_⟩
      by_cases hrun : r.runAt ≤ now <;> simp only [hs, hrun, if_true, if_false] <;> exact ⟨rfl, rfl, rfl⟩
    · refine .inl ⟨?_, by simp [isBlocked, hr, hs]⟩
      by_cases hrun : r.runAt ≤ now <;> simp only [hs, hrun, if_true, if_false] <;> exact ⟨rfl, rfl, rfl⟩

theorem releaseDependent_statement (hripe : Ripe new chosen a s.db id) :
    Statement new chosen a s.db (releaseDependent now s id).db := by
  rcases releaseDependent_cases now s id with ⟨hsame, -⟩ | ⟨r, sequence, hr, hs, hagrees⟩
  · exact hsame.statement
  · refine ⟨hagrees.dependencies, fun k => ?_⟩
    by_cases hk : k = id
    · subst hk
      have hr' : (releaseDependent now s k).db.runtime.get? k = some (r.dependencyReleased now sequence) := by
        rw [hagrees.runtime]
        simp [setRuntime]
      exact .released hr hs hripe hr' (congrArg (·.get? k) hagrees.outcomes)
    · refine .same ?_ (congrArg (·.get? k) hagrees.outcomes)
      rw [hagrees.runtime]
      simp [setRuntime, hk]

theorem Db.Cascade.foldl {f : Session → TaskId → Session} {ids : List TaskId} (h : Cascade new chosen a s.db)
    (hripe : ∀ id ∈ ids, Ripe new chosen a s.db id)
    (hf : ∀ (s : Session) id, Cascade new chosen a s.db → Ripe new chosen a s.db id →
      Cascade new chosen a (f s id).db ∧ s.db.Onward (f s id).db) :
    Cascade new chosen a (ids.foldl f s).db ∧ s.db.Onward (ids.foldl f s).db := by
  induction ids generalizing s with
  | nil => exact ⟨h, .refl _⟩
  | cons id ids ih =>
    obtain ⟨hc, hon⟩ := hf s id h (hripe id (by simp))
    obtain ⟨hc', hon'⟩ := ih hc fun k hk => (hripe k (by simp [hk])).onward hon
    exact ⟨hc', hon.trans hon'⟩

end Run

/-! ## The settlement -/

theorem foldl_recountRejected {db : Db} {ids : List TaskId} (h : ∀ id ∈ ids, db.pendingEdges id = 0) :
    db.Agrees (ids.foldl recountRejected db) := by
  refine .foldl fun b id hb hid => ?_
  have hzero : (b.addEvent id none .dependencyCounterRepaired).pendingEdges id = 0 := (hb.pendingEdges).trans (h id hid)
  simp only [recountRejected, hzero, if_true]
  exact ⟨rfl, rfl, rfl⟩

def unexplained (db : Db) (rejected : List TaskId) : List TaskId :=
  rejected.filter fun id => db.isBlocked id && !db.rejectedEdges id

def closing (fire : Fire) (now : Time) (rejected : List TaskId) (s : Session) : Session :=
  let s := s.update fun db => (byId (unexplained s.db rejected)).foldl recountRejected db
  insertOutcomes fire (settledRows s.db now rejected)
    (s.update fun db => removeSettled db (settledRows s.db now rejected))

def releasing (db : Db) (rejected released : List TaskId) : List TaskId :=
  byId (released ++ (unexplained db rejected).filter fun id => db.pendingEdges id = 0)

def dueAt (db : Db) (now : Time) (ids : List TaskId) : List TaskId :=
  ids.filter fun id => (db.runtime.get? id).any fun r => r.state == .blocked && r.deadlineAt.any (· ≤ now)

def freeing (fire : Fire) (now : Time) (rejected released : List TaskId) (s : Session) : Session :=
  (releasing s.db rejected released).foldl (releaseDependent now) (closing fire now rejected s)

section Settlement

variable {rejected released : List TaskId}

theorem settleDependents_eq : settleDependents fire now rejected released s =
    (dueAt (closing fire now rejected s).db now (releasing s.db rejected released)).foldl
      (fun s id => (terminalizeDeadlineWith fire id s).2) (freeing fire now rejected released s) := rfl

theorem mem_releasing : id ∈ releasing s.db rejected released ↔
    id ∈ released ∨ id ∈ unexplained s.db rejected ∧ s.db.pendingEdges id = 0 := by
  simp [releasing, mem_byId]

theorem mem_of_unexplained (h : id ∈ unexplained b rejected) : id ∈ rejected := (List.mem_filter.mp h).1

theorem recount_agrees (hzero : ∀ id ∈ rejected, s.db.pendingEdges id = 0) :
    s.db.Agrees ((byId (unexplained s.db rejected)).foldl recountRejected s.db) :=
  foldl_recountRejected fun _ hid => hzero _ (mem_of_unexplained (mem_byId.mp hid))

theorem Db.Ripe.pendingEdges (h : Ripe new chosen a b id) : b.pendingEdges id = 0 := by
  refine Table.count_eq_zero_iff.mpr fun k d hd => ?_
  by_cases hk : k.1 = id
  · subst hk
    simp [h.settled k.2 d hd]
  · simp [hk]

theorem Db.Cascade.closing (hfire : Cascading fire) (h : Cascade new chosen a s.db) (hnd : rejected.Nodup)
    (hripe : ∀ id ∈ rejected, Ripe new chosen a s.db id) (now : Time) :
    Cascade new chosen a (closing fire now rejected s).db ∧ s.db.Onward (closing fire now rejected s).db := by
  have hagrees := recount_agrees fun id hid => (hripe id hid).pendingEdges
  have hon := hagrees.onward
  let t := s.update fun db => (byId (unexplained s.db rejected)).foldl recountRejected db
  have hrows : ∀ e ∈ settledRows t.db now rejected,
      Ripe new chosen a t.db e.1 ∧ ∃ r, t.db.runtime.get? e.1 = some r := by
    intro e he
    obtain ⟨hid, hrow⟩ := mem_settledRows.mp he
    obtain ⟨r, _, hr, -⟩ := settledRow_eq_some.mp hrow
    exact ⟨(hripe _ hid).onward hon, r, hr⟩
  obtain ⟨hc, hon'⟩ := Db.Cascade.fire_closed (s := t) hfire (h.statement hagrees.statement)
    (nodup_settledRows hnd) hrows
  exact ⟨hc, hon.trans hon'⟩

theorem Db.Cascade.stages (hfire : Cascading fire) (h : Cascade new chosen a s.db) (hnd : rejected.Nodup)
    (hripe : ∀ id, id ∈ rejected ∨ id ∈ released → Ripe new chosen a s.db id) (now : Time) :
    s.db.Onward (Workhorse.closing fire now rejected s).db ∧
      (Workhorse.closing fire now rejected s).db.Onward (freeing fire now rejected released s).db ∧
      (freeing fire now rejected released s).db.Onward (settleDependents fire now rejected released s).db ∧
      Cascade new chosen a (settleDependents fire now rejected released s).db := by
  obtain ⟨hc, hon⟩ := h.closing hfire hnd (fun id hid => hripe id (.inl hid)) now
  have hripe' : ∀ id ∈ releasing s.db rejected released,
      Ripe new chosen a (Workhorse.closing fire now rejected s).db id := by
    intro id hid
    rcases mem_releasing.mp hid with hid | ⟨hid, -⟩
    · exact (hripe id (.inr hid)).onward hon
    · exact (hripe id (.inl (mem_of_unexplained hid))).onward hon
  obtain ⟨hc', hon'⟩ := hc.foldl hripe' (f := releaseDependent now) fun s id hs hr =>
    ⟨hs.statement (releaseDependent_statement hr), (releaseDependent_statement hr).onward⟩
  have hdue : ∀ id ∈ dueAt (Workhorse.closing fire now rejected s).db now (releasing s.db rejected released),
      Ripe new chosen a (freeing fire now rejected released s).db id :=
    fun id hid => (hripe' id (List.mem_filter.mp hid).1).onward hon'
  obtain ⟨hc'', hon''⟩ := hc'.foldl hdue fun s id hs hr => hs.terminalizeDeadline hfire hr
  exact ⟨hon, hon', hon'', hc''⟩

end Settlement

end Workhorse
