import Workhorse.Task.Lemmas.Invariants

/-!
# Calls on one generation

A call that names a task and a fence token is a sequence of acts. When it accepts, it closes the
generation: the row of the task was active under the token, and no longer is.
-/

namespace Workhorse

open Relation Transaction

variable {c c' : Core} {id : TaskId} {fence : Nat} {accepted : Prop} {r r' : FastRuntime} {s : Session} {o : Outcome}

def Closes (c c' : Core) (id : TaskId) (fence : Nat) : Prop := ∃ tier, c.Holds tier id fence ∧ ¬c'.Holds tier id fence

theorem closes_setRuntime {r r' : Runtime} (hr : c.runtime.get? id = some r) (hs : r.state = .active)
    (hf : r.fenceToken = fence) (hs' : r'.state ≠ .active) : Closes c (c.setRuntime id r') id fence := by
  refine ⟨.full, ⟨r, hr, hs, hf⟩, ?_⟩
  rintro ⟨r'', hr'', h, -⟩
  simp only [Core.setRuntime, Table.get?_put, if_true, Option.some.injEq] at hr''
  exact hs' (hr'' ▸ h)

theorem closes_setFast (hr : c.fastRuntime.get? id = some r)
    (hs : r.state = .active) (hf : r.fenceToken = fence) (hs' : r'.state ≠ .active) :
    Closes c (c.setFast id r') id fence := by
  refine ⟨.fast, ⟨r, hr, hs, hf⟩, ?_⟩
  rintro ⟨r'', hr'', h, -⟩
  simp only [Core.setFast, Table.get?_put, if_true, Option.some.injEq] at hr''
  exact hs' (hr'' ▸ h)

theorem Closes.note (h : Closes c c' id fence) (k : TaskId) (n : Nat) (recorded : Bool) :
    Closes c (c'.note k n recorded) id fence := by
  obtain ⟨tier, hheld, hgone⟩ := h
  exact ⟨tier, hheld, fun h => hgone (by cases tier <;> exact h)⟩

theorem closes_fastClose {r : FastRuntime} {o : FastOutcome} (hr : c.fastRuntime.get? id = some r)
    (hs : r.state = .active) (hf : r.fenceToken = fence) : Closes c (c.fastClose id o) id fence := by
  refine ⟨.fast, ⟨r, hr, hs, hf⟩, ?_⟩
  rintro ⟨r'', hr'', -⟩
  simp [Core.fastClose] at hr''

theorem finish_runtime : (finish onOutcomes id o s).db.runtime.get? id = none := by
  refine (onOutcomes_resolves _ _).runtime_none ?_
  change (s.db.runtime.erase id).get? id = none
  simp

theorem closes_finish {r : Runtime} (hr : s.db.runtime.get? id = some r)
    (hs : r.state = .active) (hf : r.fenceToken = fence) : Closes s.core (finish onOutcomes id o s).core id fence := by
  refine ⟨.full, ⟨r, hr, hs, hf⟩, ?_⟩
  rintro ⟨r', hr', -⟩
  rw [Session.runtime_core, finish_runtime] at hr'
  cases hr'

theorem Resolves.fenceSeq (h : Resolves c c') : c'.fenceSeq = c.fenceSeq := by
  induction h with
  | refl => rfl
  | tail _ h ih => rw [h.fenceSeq, ih]

theorem finish_fenceSeq {r : Runtime} (hr : s.db.runtime.get? id = some r)
    (ho : o.currentAttempt = r.currentAttempt) : (finish onOutcomes id o s).core.fenceSeq = s.core.fenceSeq :=
  (finish_resolves onOutcomes_resolves hr ho false).fenceSeq

/-- What a call on a generation ensures: it acts without drawing a token, and closes the generation
if it accepts. -/
structure Calls (c : Core) (id : TaskId) (fence : Nat) (accepted : Prop) (c' : Core) : Prop where
  acts : Acts c c'
  seq : c'.fenceSeq = c.fenceSeq
  closes : accepted → Closes c c' id fence

theorem Calls.same (h : ¬accepted) : Calls c id fence accepted c :=
  ⟨.refl, rfl, fun ha => absurd ha h⟩

theorem Calls.bind {b : Boundaries} (hb : ∀ id, c.boundaries.Grows id b)
    (h : Calls { c with boundaries := b } id fence accepted c') : Calls c id fence accepted c' where
  acts := .bind hb h.acts
  seq := h.seq
  closes ha := by
    obtain ⟨tier, hheld, hgone⟩ := h.closes ha
    exact ⟨tier, by cases tier <;> exact hheld, hgone⟩

theorem Calls.mono {accepted accepted' : Prop} (h : Calls c id fence accepted c')
    (ha : accepted' → accepted) : Calls c id fence accepted' c' :=
  ⟨h.acts, h.seq, fun h' => h.closes (ha h')⟩

theorem Calls.closes_of {id' : TaskId} {fence' : Nat}
    (h : Calls c id fence accepted c') (ha : accepted ∧ id = id' ∧ fence = fence') : Closes c c' id' fence' := by
  obtain ⟨hacc, rfl, rfl⟩ := ha
  exact h.closes hacc

theorem Calls.setRuntime {r r' : Runtime} (hr : c.runtime.get? id = some r)
    (hs : r.state = .active) (hf : r.fenceToken = fence) (h : r.Revises r') (hs' : r'.state ≠ .active) :
    Calls c id fence accepted (c.setRuntime id r') :=
  ⟨.revise hr h, rfl, fun _ => closes_setRuntime hr hs hf hs'⟩

theorem Calls.retry {r r' : Runtime} (hr : c.runtime.get? id = some r)
    (hs : r.state = .active) (hf : r.fenceToken = fence) (h : r.Retries r') (hs' : r'.state ≠ .active)
    (hmax : ∀ t, c.tasks.get? id = some t → r.currentAttempt < t.maxAttempts) :
    Calls c id fence accepted ((c.setRuntime id r').record id r.currentAttempt) :=
  ⟨.single (.quiet (.retry hr h hmax)), rfl, fun _ => (closes_setRuntime hr hs hf hs').note id r.currentAttempt true⟩

theorem Calls.setFast (hr : c.fastRuntime.get? id = some r)
    (hs : r.state = .active) (hf : r.fenceToken = fence) (h : r.Becomes r') (hs' : r'.state ≠ .active) :
    Calls c id fence accepted (c.setFast id r') :=
  ⟨.fastRevise hr h, rfl, fun _ => closes_setFast hr hs hf hs'⟩

theorem Calls.fastRetry (hr : c.fastRuntime.get? id = some r)
    (hs : r.state = .active) (hf : r.fenceToken = fence) (h : r.Becomes r') (hs' : r'.state ≠ .active)
    (n : Nat) : Calls c id fence accepted ((c.record id n).setFast id r') :=
  ⟨.tail (.single (.quiet (.fastRecord (.inl (Table.contains_of_get? hr)) n)))
    (.quiet (.fastRevise (c := c.record id n) hr h)), rfl, fun _ => by
      obtain ⟨tier, hheld, hgone⟩ := closes_setFast hr hs hf hs'
      exact ⟨tier, hheld, fun h => hgone (by cases tier <;> exact h)⟩⟩

theorem Acts.fastClose {r : FastRuntime} (hr : c.fastRuntime.get? id = some r) (o : FastOutcome)
    (n : Nat) (recorded : Bool) : Acts c ((c.fastClose id o).note id n recorded) := by
  cases recorded with
  | false => exact .single (.quiet (.fastClose hr o))
  | true =>
    exact .tail (.single (.quiet (.fastClose hr o)))
      (.quiet (.fastRecord (.inr (by simp [Core.fastClose])) n))

theorem Calls.fastClose {r : FastRuntime} {o : FastOutcome} {n : Nat}
    {recorded : Bool} (hr : c.fastRuntime.get? id = some r) (hs : r.state = .active)
    (hf : r.fenceToken = fence) : Calls c id fence accepted ((c.fastClose id o).note id n recorded) :=
  ⟨.fastClose hr o n recorded, rfl, fun _ => (closes_fastClose hr hs hf).note id n recorded⟩

theorem Calls.finish {r : Runtime}
    (hr : s.db.runtime.get? id = some r) (hs : r.state = .active) (hf : r.fenceToken = fence)
    (ho : o.currentAttempt = r.currentAttempt) (recorded : Bool) : Calls s.core id fence accepted
      ((finish onOutcomes id o s).core.note id r.currentAttempt recorded) :=
  ⟨.single (.finish hr ho recorded), finish_fenceSeq hr ho,
    fun _ => (closes_finish hr hs hf).note id r.currentAttempt recorded⟩

end Workhorse
