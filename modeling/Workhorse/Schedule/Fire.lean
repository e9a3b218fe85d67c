import Workhorse.Lib.Table
import Workhorse.Schema.Types

/-!
# Firing a schedule

`cron_occurrences_v1`, `fire_schedule_v1` and `fire_due_schedules_v2` for one enabled schedule whose
catch-up policy is `all`. An expression in a time zone is given by the wall-clock times that its fields
match, each with the instant `resolve_cron_wall_clock_v1` gives it. A pass and the callers of
`fire_schedule_v1` are transactions that take the lock of an occurrence, then the row lock of the
definition, and keep both until they end.
-/

namespace Workhorse

/-- `date_trunc('second', t)`. -/
def truncSecond (t : Time) : Time := t - t % 1000000

/-- A wall-clock time: its local date, the instant it resolves to, and whether the instant shows another
wall-clock time because this one falls into a gap. -/
structure WallClock where
  date : Int
  instant : Time
  normalized : Bool
deriving DecidableEq

structure Cron where
  wallClocks : List WallClock
  dateOf : Time → Int
  horizonDate : Int → Int
  whole : ∀ w ∈ wallClocks, truncSecond w.instant = w.instant
  exact : ((wallClocks.filter fun w => !w.normalized).map WallClock.instant).Nodup

namespace Cron

/-- The walk goes over the dates from the position, or from the horizon, to the date of `now`. -/
def visits (e : Cron) (last now : Time) (w : WallClock) : Bool :=
  max (e.dateOf last) (e.horizonDate (e.dateOf now)) ≤ w.date && w.date ≤ e.dateOf now

def due (last now : Time) (w : WallClock) : Bool := last < w.instant && w.instant ≤ truncSecond now

/-- The candidates of the walk, which stops when those without a normalized one reach the limit. -/
def walk (last now : Time) (limit : Nat) : Nat → List WallClock → List Time
  | _, [] => []
  | found, w :: ws =>
    if due last now w then
      let found' := if w.normalized then found else found + 1
      if limit ≤ found' then [w.instant] else w.instant :: walk last now limit found' ws
    else walk last now limit found ws

/-- `cron_occurrences_v1` with a position: each instant once, in the order of the walk. -/
def occurrences (e : Cron) (last now : Time) (limit : Nat) : List Time :=
  (walk last now limit 0 (e.wallClocks.filter (e.visits last now))).eraseDups.take limit

end Cron

/-- The transactions that can hold a lock: the pass, which holds the lock of the namespace, and the
callers of `fire_schedule_v1`. -/
inductive Firer
  | pass
  | caller (conn : Nat)
deriving DecidableEq

structure Pass where
  now : Time
  limit : Nat
  start : Time
  todo : List Time
  count : Nat
  last : Option Time
  /-- The lock of the first occurrence of `todo` is taken, and the pass waits for the row. -/
  waiting : Bool
  deferred : Bool
  inserted : List Time

/-- A transaction that calls `fire_schedule_v1` directly. -/
structure Caller where
  waiting : Option Time
  inserted : List Time

/-- The schedule with the transactions that fire it. Rows of `schedule_occurrence` are written with
their task. -/
structure Firing where
  position : Time
  rows : List Time
  locks : Table Time Firer
  holder : Option Firer
  pass : Option Pass
  callers : Table Nat Caller
  ended : List Pass

/-- What `fire_schedule_v1` adds to the rows of its transaction, once it has the locks. -/
def fireSchedule (rows inserted : List Time) (occurrenceAt : Time) : List Time :=
  let occurrence := truncSecond occurrenceAt
  if occurrence ∈ rows ∨ occurrence ∈ inserted then inserted else inserted ++ [occurrence]

namespace Pass

def opened (e : Cron) (start now : Time) (limit : Nat) : Pass where
  now := now
  limit := limit
  start := start
  todo := (e.occurrences start now limit).filter fun t => start < t
  count := 0
  last := none
  waiting := false
  deferred := false
  inserted := []

/-- `v_next_evaluated_at`. -/
def next (p : Pass) : Option Time :=
  if p.deferred then p.last
  else if p.count = p.limit ∧ p.last.isSome then p.last
  else some p.now

end Pass

namespace Firing

def initial (position : Time) (rows : List Time) : Firing := ⟨position, rows, .empty, none, none, .empty, []⟩

def start (σ : Firing) : Time := σ.rows.foldl max σ.position

def free (σ : Firing) (f : Firer) : Bool := σ.holder.all (· = f)

def lockable (σ : Firing) (f : Firer) (t : Time) : Bool := (σ.locks.get? t).all (· = f)

def release (σ : Firing) (f : Firer) : Firing :=
  { σ with
    locks := σ.locks.filter fun _ g => g ≠ f
    holder := if σ.holder = some f then none else σ.holder }

inductive Event
  /-- A pass gets the namespace lock and reads the definition with its newest occurrence. -/
  | start (now : Time) (limit : Nat)
  | lock
  | fire
  | finish
  | abort
  | call (conn : Nat) (occurrenceAt : Time)
  | callFire (conn : Nat)
  | commit (conn : Nat)
  | rollback (conn : Nat)

/-- One step of a transaction, if it can take it. A pass that finds the namespace locked does nothing. -/
def apply (e : Cron) (σ : Firing) : Event → Option Firing
  | .start now limit =>
    if σ.pass.isNone ∧ 1 ≤ limit ∧ limit ≤ 10000 then
      some { σ with pass := some (.opened e σ.start now limit) }
    else none
  | .lock =>
    match σ.pass with
    | none => none
    | some p =>
      match p.todo with
      | [] => none
      | t :: _ =>
        if p.waiting ∨ p.deferred then none
        else if σ.lockable .pass (truncSecond t) then
          some { σ with
            locks := σ.locks.put (truncSecond t) .pass
            pass := some { p with waiting := true, count := p.count + 1, last := some t } }
        else some { σ with pass := some { p with deferred := true } }
  | .fire =>
    match σ.pass with
    | none => none
    | some p =>
      match p.todo with
      | [] => none
      | t :: ts =>
        if p.waiting ∧ σ.free .pass then
          some { σ with
            holder := some .pass
            pass := some { p with
              waiting := false, todo := ts, inserted := fireSchedule σ.rows p.inserted t } }
        else none
  | .finish =>
    match σ.pass with
    | none => none
    | some p =>
      if (p.todo = [] ∨ p.deferred) ∧ (p.next.all (· = σ.position) ∨ σ.free .pass) then
        some <| release { σ with
          position := p.next.getD σ.position
          rows := σ.rows ++ p.inserted
          pass := none
          ended := σ.ended ++ [p] } .pass
      else none
  | .abort => some <| release { σ with pass := none } .pass
  | .call conn occurrenceAt =>
    let c := (σ.callers.get? conn).getD ⟨none, []⟩
    if c.waiting.isSome then none
    else if σ.lockable (.caller conn) (truncSecond occurrenceAt) then
      some { σ with
        locks := σ.locks.put (truncSecond occurrenceAt) (.caller conn)
        callers := σ.callers.put conn { c with waiting := some occurrenceAt } }
    else some σ
  | .callFire conn =>
    match σ.callers.get? conn with
    | none => none
    | some c =>
      match c.waiting with
      | none => none
      | some t =>
        if σ.free (.caller conn) then
          some { σ with
            holder := some (.caller conn)
            callers := σ.callers.put conn ⟨none, fireSchedule σ.rows c.inserted t⟩ }
        else none
  | .commit conn =>
    match σ.callers.get? conn with
    | none => none
    | some c =>
      if c.waiting.isSome then none
      else some <| release { σ with
        rows := σ.rows ++ c.inserted
        callers := σ.callers.erase conn } (.caller conn)
  | .rollback conn => some <| release { σ with callers := σ.callers.erase conn } (.caller conn)

inductive Reaches (e : Cron) (σ₀ : Firing) (P : Firing → Event → Prop) : Firing → Prop
  | initial : Reaches e σ₀ P σ₀
  | step {σ σ' : Firing} {event : Event} (h : Reaches e σ₀ P σ) (hP : P σ event)
      (hs : σ.apply e event = some σ') : Reaches e σ₀ P σ'

end Firing

end Workhorse
