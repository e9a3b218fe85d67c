import Workhorse.Dependency.Resolve

/-!
# What resolution leaves alone

The trigger on outcomes writes runtime rows, outcomes, edges, attempts and events. The other relations
stay as they are, and the host's answers are only used up.
-/

namespace Workhorse

variable {s s' t : Session} {id : TaskId} {fire : Fire}

def Db.rest (db : Db) :=
  (db.tasks, db.idempotency, db.waits, db.signalWaits, db.humanWaits, db.checkpoints, db.queueControl)

structure Session.Frames (s s' : Session) : Prop where
  rest : s'.db.rest = s.db.rest
  host : s'.host = s.host
  asked : s.asked ≤ s'.asked

namespace Session.Frames

theorem refl (s : Session) : s.Frames s := ⟨rfl, rfl, le_rfl⟩

theorem trans (h : s.Frames t) (h' : t.Frames s') : s.Frames s' :=
  ⟨h'.rest.trans h.rest, h'.host.trans h.host, h.asked.trans h'.asked⟩

theorem update {f : Db → Db} (h : (f s.db).rest = s.db.rest) : s.Frames (s.update f) := ⟨h, rfl, le_rfl⟩

theorem ask (s : Session) : s.Frames s.ask := ⟨rfl, rfl, Nat.le_succ _⟩

theorem nextReadySequence (s : Session) : s.Frames s.nextReadySequence.2 := ⟨rfl, rfl, le_rfl⟩

theorem tasks (h : s.Frames s') : s'.db.tasks = s.db.tasks := congrArg (·.1) h.rest

theorem idempotency (h : s.Frames s') : s'.db.idempotency = s.db.idempotency := congrArg (·.2.1) h.rest

theorem foldl {α : Type} {f : Session → α → Session} {xs : List α} (hf : ∀ (s : Session) x, s.Frames (f s x)) :
    s.Frames (xs.foldl f s) := by
  induction xs generalizing s with
  | nil => exact refl s
  | cons x xs ih => exact (hf s x).trans ih

end Session.Frames

open Session

theorem rest_foldl {α : Type} {f : Db → α → Db} (hf : ∀ db x, (f db x).rest = db.rest) (xs : List α)
    (db : Db) : (xs.foldl f db).rest = db.rest := by
  induction xs generalizing db with
  | nil => rfl
  | cons x xs ih => exact (ih (f db x)).trans (hf db x)

theorem fastFinish_frames {r : FastRuntime} {state : OutcomeState} {result : Option Jsonb}
    {error : Option Envelope} {closedAs : Option ClosedAs} {historyOutcome : AttemptOutcome} :
    s.Frames (fastFinish id r state result error closedAs historyOutcome s) := by
  unfold fastFinish
  refine (Frames.ask s).trans (Frames.update ?_)
  dsimp only
  split <;> rfl

theorem fastTerminalizeDeadline_frames : s.Frames (fastTerminalizeDeadline id s).2 := by
  unfold fastTerminalizeDeadline
  split
  · exact .refl s
  · split
    · exact .refl s
    · split
      · exact .ask s
      · split
        · exact (Frames.ask s).trans fastFinish_frames
        · exact (Frames.ask s).trans fastFinish_frames

theorem releaseDependent_frames {now : Time} : s.Frames (releaseDependent now s id) := by
  unfold releaseDependent
  split
  · exact .refl s
  · rename_i r _
    have hnext : s.Frames (if r.runAt ≤ now then s.nextReadySequence else (0, s)).2 := by
      split
      · exact .nextReadySequence s
      · exact .refl s
    dsimp only
    split
    · exact hnext.trans (.update rfl)
    · exact hnext

theorem rest_recountRejected (db : Db) : (recountRejected db id).rest = db.rest := by
  unfold recountRejected
  dsimp only
  split <;> rfl

theorem rest_recordMeasure (db : Db) (m : Measure) : (recordMeasure db m).rest = db.rest := by
  unfold recordMeasure
  dsimp only
  split <;> split <;> rfl

section Fire

variable (hfire : ∀ new (s : Session), s.Frames (fire new s))

include hfire

theorem insertOutcomes_frames {rows : List (TaskId × Outcome)} : s.Frames (insertOutcomes fire rows s) := by
  refine Frames.trans (.update ?_) (hfire _ _)
  exact rest_foldl (f := fun db e => db.setOutcome e.1 e.2) (fun _ _ => rfl) rows s.db

theorem finish_frames {o : Outcome} : s.Frames (finish fire id o s) := by
  have hdelete : s.Frames (s.update fun db => db.deleteRuntime id) := .update rfl
  exact hdelete.trans (insertOutcomes_frames hfire)

theorem terminalizeDeadlineWith_frames : s.Frames (terminalizeDeadlineWith fire id s).2 := by
  unfold terminalizeDeadlineWith
  split
  · exact fastTerminalizeDeadline_frames
  · split
    · exact .refl s
    · split
      · exact .refl s
      · split
        · exact .ask s
        · split
          · dsimp only
            refine ((Frames.ask s).trans (Frames.ask s.ask)).trans ?_
            exact (finish_frames hfire).trans (Frames.update rfl)
          · dsimp only
            refine ((Frames.ask s).trans (Frames.ask s.ask)).trans ?_
            refine (finish_frames hfire).trans (Frames.update ?_)
            split <;> rfl

theorem settleDependents_frames {now : Time} {rejected released : List TaskId} :
    s.Frames (settleDependents fire now rejected released s) := by
  unfold settleDependents
  extract_lets unexplained repaired s₁ rows s₂ releasing due s₃
  have h₁ : s.Frames s₁ := .update (rest_foldl (fun db id => rest_recountRejected db) _ _)
  have h₂ : s₁.Frames s₂ := by
    refine Frames.trans (.update ?_) (insertOutcomes_frames hfire)
    exact rest_foldl (f := fun db e => (db.deleteRuntime e.1).addEvent e.1 none
      (if e.2.state = .failed then .dependencyFailed else .dependencyCanceled)) (fun _ _ => rfl) rows s₁.db
  have h₃ : s₂.Frames s₃ := .foldl fun _ _ => releaseDependent_frames
  exact ((h₁.trans h₂).trans h₃).trans (.foldl fun _ _ => terminalizeDeadlineWith_frames hfire)

theorem resolveDependentsMany_frames (new : List (TaskId × OutcomeState)) :
    s.Frames (resolveDependentsMany fire new s) := by
  unfold resolveDependentsMany
  extract_lets now s₁ before dependents s₂ measures s₃ settled
  have h₁ : s.Frames s₁ := .ask s
  have h₂ : s₁.Frames s₂ := .update rfl
  have h₃ : s₂.Frames s₃ := .update (rest_foldl rest_recordMeasure _ _)
  split
  · exact h₁
  · exact ((h₁.trans h₂).trans h₃).trans (settleDependents_frames hfire)

theorem resolveTaskOutcomeDependencies_frames (new : List (TaskId × OutcomeState)) :
    s.Frames (resolveTaskOutcomeDependencies fire new s) := by
  unfold resolveTaskOutcomeDependencies
  split
  · exact ((Frames.ask s).trans (.update rfl)).trans (hfire _ _)
  · exact .refl s

end Fire

theorem trigger_frames (fuel : Nat) (new : List (TaskId × OutcomeState)) (s : Session) :
    s.Frames (trigger fuel new s) := by
  induction fuel generalizing new s with
  | zero => exact .refl s
  | succ fuel ih =>
    exact resolveTaskOutcomeDependencies_frames (fun new _ => resolveDependentsMany_frames ih new) new

theorem onOutcomes_frames (new : List (TaskId × OutcomeState)) (s : Session) : s.Frames (onOutcomes new s) :=
  trigger_frames _ new s

theorem terminalizeDeadline_frames : s.Frames (terminalizeDeadline id s).2 :=
  terminalizeDeadlineWith_frames onOutcomes_frames

end Workhorse
