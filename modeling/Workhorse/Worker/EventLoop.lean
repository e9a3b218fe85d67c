import Workhorse.Worker.Dispatch

/-!
# The dispatch loop of the TypeScript worker

`dispatchLoop` and `startExecution` of `worker.ts`. The worker runs on one event loop, so each step here is one turn:
the loop starts a claim, a settlement reaches the loop, a completion reserves slots for its fused claim, that claim
settles, an execution ends. Whether a turn comes at all (a stop, a pause, a closed gate, an empty wait) is up to the
run.
-/

namespace Workhorse

structure Execution (n : Nat) where
  cohort : Fin (n + 1)
  /-- The task is in the set `handedOver` of the loop. -/
  handedOver : Bool
  fused : Option Int
  /-- The task is in the set `slotHandedOver` of the worker. -/
  slotHandedOver : Bool
  ended : Bool

structure EventLoop (n : Nat) where
  slots : Slots n
  executions : Table Nat (Execution n)
  claims : Table Nat (PlainClaim n)
  activeSlots : Int

inductive Turn where
  /-- The loop claims, under the name `id`. -/
  | claim (id : Nat) (fastTierOnly tierKnown : Bool)
  /-- A plain claim settles: with the tasks that it returned, also when it failed after them, or withheld. -/
  | settleClaim (id : Nat) (attempt : Option (List Nat))
  | reserve (task : Nat)
  | settleFused (task : Nat) (claimed : Option (List Nat))
  | finish (task : Nat)
  | observe (task : Nat)

namespace EventLoop

variable {n : Nat} (w : EventLoop n)

def new (n concurrency : Nat) : EventLoop n where
  slots :=
    { concurrency
      refillBatch := (concurrency + 3) / 4
      cohorts := fun c =>
        ⟨concurrency / (n + 1) + if c.val < concurrency % (n + 1) then 1 else 0, 0, 0, 0, 0⟩
      reserved := 0
      wholeClaims := 0 }
  executions := .empty
  claims := .empty
  activeSlots := 0

/-- The number of tasks in `handedOver`. -/
def handedOver : Nat := w.executions.count fun _ e => e.handedOver

def freeSlots : Int := w.slots.concurrency - w.executions.size + w.handedOver - w.slots.reserved

def launch (preferred : Option (Fin (n + 1))) (task : Nat) : Option (EventLoop n) :=
  if w.executions.contains task then none
  else
    let cohort := w.slots.assigned preferred
    some { w with
      slots := w.slots.assign cohort
      executions := w.executions.put task ⟨cohort, false, none, false, false⟩
      activeSlots := w.activeSlots + 1 }

def launchAll (preferred : Option (Fin (n + 1))) : List Nat → EventLoop n → Option (EventLoop n)
  | [], w => some w
  | task :: tasks, w => (w.launch preferred task).bind (launchAll preferred tasks)

/-- The claim that the loop starts. With cohorts and only fast-tier queues it is for one cohort. -/
def plan (fastTierOnly tierKnown : Bool) : Option (PlainClaim n) :=
  if !(0 < n && fastTierOnly) then
    if 0 < w.freeSlots && (w.claims.size == 0 || w.slots.refillBatch ≤ w.freeSlots) then
      some ⟨w.freeSlots, none, 0⟩
    else none
  else if w.claims.size == 0 && 0 < w.freeSlots then
    let cohort := w.slots.roomiest
    let cohortLimit := min w.freeSlots (w.slots.cohorts cohort).free
    some ⟨if tierKnown then cohortLimit else w.freeSlots, some cohort, cohortLimit⟩
  else none

def startClaim (id : Nat) (p : PlainClaim n) : Option (EventLoop n) :=
  if w.claims.contains id then none
  else some { w with slots := w.slots.reservePlain p, claims := w.claims.put id p }

def settleClaim (id : Nat) (attempt : Option (List Nat)) : Option (EventLoop n) :=
  match w.claims.get? id with
  | some p =>
    -- A claim returns at most its limit.
    if (attempt.getD []).length ≤ p.limit then
      launchAll p.cohort (attempt.getD []) { w with slots := w.slots.returnPlain p, claims := w.claims.erase id }
    else none
  | none => none

/-- An execution writes its completion once, so its slot is not handed over yet. -/
def reserveCompletionClaim (task : Nat) : Option (EventLoop n) :=
  match w.executions.get? task with
  | some e =>
    let limit := min w.freeSlots (w.slots.cohorts e.cohort).free + 1
    if e.ended || e.handedOver || w.slots.waits e.cohort limit then none
    else some { w with
      slots := w.slots.reserveFused e.cohort limit
      executions := w.executions.put task { e with handedOver := true, fused := some limit } }
  | none => none

/-- A fused claim that returned tasks keeps the slot of its execution for one of them. -/
def settleFused (task : Nat) (claimed : Option (List Nat)) : Option (EventLoop n) :=
  match w.executions.get? task with
  | some e =>
    match e.fused with
    | some limit =>
      let tasks := claimed.getD []
      if tasks.length ≤ limit then
        launchAll (some e.cohort) tasks { w with
          slots := w.slots.returnFused e.cohort limit (tasks ≠ [])
          executions := w.executions.put task
            { e with fused := none, handedOver := tasks ≠ [], slotHandedOver := tasks ≠ [] }
          activeSlots := if tasks ≠ [] then w.activeSlots - 1 else w.activeSlots }
      else none
    | none => none
  | none => none

/-- An execution settles its fused claim before it ends. -/
def finish (task : Nat) : Option (EventLoop n) :=
  match w.executions.get? task with
  | some e =>
    if e.ended || e.fused.isSome then none
    else some { w with
      executions := w.executions.put task { e with slotHandedOver := false, ended := true }
      activeSlots := if e.slotHandedOver then w.activeSlots else w.activeSlots - 1 }
  | none => none

def observe (task : Nat) : Option (EventLoop n) :=
  match w.executions.get? task with
  | some e =>
    if e.ended then some { w with
      slots := w.slots.release e.cohort e.handedOver
      executions := w.executions.erase task }
    else none
  | none => none

def step : Turn → Option (EventLoop n)
  | .claim id fastTierOnly tierKnown => (w.plan fastTierOnly tierKnown).bind (w.startClaim id)
  | .settleClaim id attempt => w.settleClaim id attempt
  | .reserve task => w.reserveCompletionClaim task
  | .settleFused task claimed => w.settleFused task claimed
  | .finish task => w.finish task
  | .observe task => w.observe task

end EventLoop

inductive Turns (n concurrency : Nat) : EventLoop n → Prop
  | start : Turns n concurrency (.new n concurrency)
  | turn {w w' : EventLoop n} {t : Turn} (h : Turns n concurrency w) (hs : w.step t = some w') : Turns n concurrency w'

end Workhorse
