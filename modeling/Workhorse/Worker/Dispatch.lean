import Mathlib.Algebra.BigOperators.Fin
import Workhorse.Lib.TableSum

/-!
# The dispatch loop of a worker

`worker/dispatch.rs` and `worker.py`. A worker has a number of slots, split into cohorts. Its loop plans
a claim from the free slots, reserves them, and gives the claimed tasks their slots when the claim
returns. A task that completes may claim its successors in the same statement: it reserves slots of its
cohort and hands its own slot over. The slots stand behind a lock, and each step here is one critical
section.
-/

namespace Workhorse

/-- `Cohort` of `dispatch.rs`; one index of the lists `cohort_*` of `_DispatchSlots`. The counts are
integers: what is taken off was put on before. -/
structure Cohort where
  capacity : Nat
  /-- Tasks that hold a ticket in this cohort. -/
  active : Int
  /-- Active tasks whose slot a fused claim has taken over. -/
  handedOver : Int
  reserved : Int
  claims : Int

def Cohort.free (c : Cohort) : Int := c.capacity - c.active + c.handedOver - c.reserved

/-- A plain claim: its limit, its cohort (none for the whole worker) and its slots in that cohort. -/
structure PlainClaim (n : Nat) where
  limit : Int
  cohort : Option (Fin (n + 1))
  cohortLimit : Int
deriving DecidableEq

/-- `Slots`, with `n + 1` cohorts. -/
structure Slots (n : Nat) where
  concurrency : Nat
  refillBatch : Nat
  cohorts : Fin (n + 1) → Cohort
  reserved : Int
  /-- Plain claims in flight that fill any cohort. -/
  wholeClaims : Int

namespace Slots

variable {n : Nat} (s : Slots n)

def active : Int := ∑ c, (s.cohorts c).active

def handedOver : Int := ∑ c, (s.cohorts c).handedOver

def free : Int := s.concurrency - s.active + s.handedOver - s.reserved

def roomiest : Fin (n + 1) := (List.finRange (n + 1)).foldl
    (fun best c => if (s.cohorts best).free < (s.cohorts c).free then c else best) 0

def updateCohort (c : Fin (n + 1)) (f : Cohort → Cohort) : Slots n :=
  { s with cohorts := Function.update s.cohorts c (f (s.cohorts c)) }

/-- The cohort of a claimed task: the preferred one when it has room, and otherwise the roomiest. -/
def assigned : Option (Fin (n + 1)) → Fin (n + 1)
  | some c => if 0 < (s.cohorts c).free then c else s.roomiest
  | none => s.roomiest

def assign (c : Fin (n + 1)) : Slots n := s.updateCohort c fun x => { x with active := x.active + 1 }

/-- The critical section of `start_claim`. -/
def reservePlain (p : PlainClaim n) : Slots n :=
  match p.cohort with
  | some c => { s with reserved := s.reserved + p.limit }.updateCohort c fun x =>
      { x with claims := x.claims + 1, reserved := x.reserved + p.cohortLimit }
  | none => { s with reserved := s.reserved + p.limit, wholeClaims := s.wholeClaims + 1 }

def returnPlain (p : PlainClaim n) : Slots n :=
  match p.cohort with
  | some c => { s with reserved := s.reserved - p.limit }.updateCohort c fun x =>
      { x with claims := x.claims - 1, reserved := x.reserved - p.cohortLimit }
  | none => { s with reserved := s.reserved - p.limit, wholeClaims := s.wholeClaims - 1 }

def reserveFused (c : Fin (n + 1)) (limit : Int) : Slots n :=
  { s with reserved := s.reserved + limit }.updateCohort c fun x =>
    { x with reserved := x.reserved + limit, handedOver := x.handedOver + 1 }

/-- A fused claim gives its slots back. If it claimed nothing, the completion keeps its own slot. -/
def returnFused (c : Fin (n + 1)) (limit : Int) (claimed : Bool) : Slots n :=
  { s with reserved := s.reserved - limit }.updateCohort c fun x =>
    { x with
      reserved := x.reserved - limit
      handedOver := if claimed then x.handedOver else x.handedOver - 1 }

def release (c : Fin (n + 1)) (handedOver : Bool) : Slots n := s.updateCohort c fun x =>
    { x with
      active := x.active - 1
      handedOver := if handedOver then x.handedOver - 1 else x.handedOver }

/-- Whether a completion that may claim `limit` tasks waits for a plain claim in flight. -/
def waits (c : Fin (n + 1)) (limit : Int) : Bool :=
  (0 < s.wholeClaims || 0 < (s.cohorts c).claims) && limit < s.refillBatch

/-- The reading of `Dispatcher::fill`. `noClaims` says that no plain claim is in flight. -/
def fill (noClaims fastTierOnly tiersKnown : Bool) : Option (PlainClaim n) :=
  if 0 < n && fastTierOnly then
    if noClaims && 0 < s.free then
      let cohortLimit := max (min s.free (s.cohorts s.roomiest).free) 0
      let limit := if tiersKnown then cohortLimit else s.free
      if 0 < limit then some ⟨limit, some s.roomiest, cohortLimit⟩ else none
    else none
  else if s.free ≤ 0 || (!noClaims && s.free < s.refillBatch) then none
  else some ⟨s.free, none, s.free⟩

/-- `next_claim` of `worker.py`. -/
def nextClaim (noClaims fullTier allFast : Bool) : Option (PlainClaim n) :=
  if s.free ≤ 0 then none
  else if n = 0 || fullTier then
    if !noClaims && s.free < s.refillBatch then none else some ⟨s.free, none, s.free⟩
  else if !noClaims then none
  else
    let cohortLimit := min s.free (s.cohorts s.roomiest).free
    if allFast then
      if 0 < cohortLimit then some ⟨cohortLimit, some s.roomiest, cohortLimit⟩ else none
    else some ⟨s.free, some s.roomiest, max 0 cohortLimit⟩

end Slots

/-- A running task's hold on its slot: a `Ticket`, or a handler thread. -/
structure Ticket (n : Nat) where
  cohort : Fin (n + 1)
  handedOver : Bool

inductive Phase (n : Nat) where
  | idle
  /-- It has read the free slots, and not reserved them yet. -/
  | planned (p : PlainClaim n)
  /-- It has given back the slots of a claim, and places the tasks that the claim returned. -/
  | launching (cohort : Option (Fin (n + 1))) (tasks : List Nat)
deriving DecidableEq

def Phase.unplaced {n : Nat} : Phase n → Nat
  | .launching _ tasks => tasks.length
  | _ => 0

structure Dispatcher (n : Nat) where
  slots : Slots n
  tickets : Table Nat (Ticket n)
  reservations : Table Nat Int
  plain : Table Nat (PlainClaim n)
  phase : Phase n
  /-- A stop, a pause, a closed gate or an empty wait: no completion claims. -/
  refusing : Bool

inductive DispatchEvent where
  | fill (fastTierOnly tiersKnown : Bool)
  | startClaim (id : Nat)
  | settle (id : Nat) (tasks : List Nat)
  | launch
  | reserve (ticket : Nat)
  | finish (ticket : Nat) (tasks : List Nat)
  | drop (ticket : Nat)
  | refuse (refusing : Bool)

namespace Dispatcher

variable {n : Nat} (d : Dispatcher n)

/-- A worker of some concurrency before its first claim. The first cohorts take the remainder. -/
def new (n concurrency : Nat) : Dispatcher n where
  slots :=
    { concurrency
      refillBatch := (concurrency + 3) / 4
      cohorts := fun c =>
        ⟨concurrency / (n + 1) + if c.val < concurrency % (n + 1) then 1 else 0, 0, 0, 0, 0⟩
      reserved := 0
      wholeClaims := 0 }
  tickets := .empty
  reservations := .empty
  plain := .empty
  phase := .idle
  refusing := false

/-- Place a claimed task: `assign` and a new ticket. -/
def admitTask (preferred : Option (Fin (n + 1))) (task : Nat) : Option (Dispatcher n) :=
  if d.tickets.contains task then none
  else some { d with
    slots := d.slots.assign (d.slots.assigned preferred)
    tickets := d.tickets.put task ⟨d.slots.assigned preferred, false⟩ }

def admitAll (preferred : Option (Fin (n + 1))) : List Nat → Dispatcher n → Option (Dispatcher n)
  | [], d => some d
  | task :: tasks, d => (d.admitTask preferred task).bind (admitAll preferred tasks)

def startClaim (id : Nat) : Option (Dispatcher n) :=
  match d.phase with
  | .planned p =>
    if d.plain.contains id then none
    else some { d with slots := d.slots.reservePlain p, plain := d.plain.put id p, phase := .idle }
  | _ => none

/-- A completion reserves `limit` slots for its fused claim, unless it has to wait. -/
def reserveWith (limit : Slots n → Fin (n + 1) → Int) (ticket : Nat) : Option (Dispatcher n) :=
  match d.tickets.get? ticket with
  | some t =>
    if d.refusing || t.handedOver || d.slots.waits t.cohort (limit d.slots t.cohort) then none
    else some { d with
      slots := d.slots.reserveFused t.cohort (limit d.slots t.cohort)
      tickets := d.tickets.put ticket { t with handedOver := true }
      reservations := d.reservations.put ticket (limit d.slots t.cohort) }
  | none => none

def finish (ticket : Nat) (tasks : List Nat) : Option (Dispatcher n) :=
  match d.tickets.get? ticket, d.reservations.get? ticket with
  | some t, some limit =>
    if tasks.length ≤ limit.toNat then
      admitAll (some t.cohort) tasks { d with
        slots := d.slots.returnFused t.cohort limit (tasks ≠ [])
        tickets := d.tickets.put ticket { t with handedOver := tasks ≠ [] }
        reservations := d.reservations.erase ticket }
    else none
  | _, _ => none

/-- A task ends. Its reservation borrows the ticket, so it has settled. -/
def drop (ticket : Nat) : Option (Dispatcher n) :=
  match d.tickets.get? ticket, d.reservations.get? ticket with
  | some t, none =>
    some { d with slots := d.slots.release t.cohort t.handedOver, tickets := d.tickets.erase ticket }
  | _, _ => none

end Dispatcher

namespace Rust

variable {n : Nat}

/-- The limit of `Ticket::reserve`. -/
def reserveLimit (s : Slots n) (c : Fin (n + 1)) : Int := max (min s.free (s.cohorts c).free + 1) 0

/-- One critical section of `dispatch.rs`. -/
def step (d : Dispatcher n) : DispatchEvent → Option (Dispatcher n)
  | .fill fastTierOnly tiersKnown =>
    match d.phase with
    | .idle => (d.slots.fill (d.plain.size == 0) fastTierOnly tiersKnown).map fun p =>
        { d with phase := .planned p }
    | _ => none
  | .startClaim id => d.startClaim id
  | .settle id tasks =>
    match d.phase, d.plain.get? id with
    | .idle, some p =>
      if tasks.length ≤ p.limit then some { d with
        slots := d.slots.returnPlain p, plain := d.plain.erase id, phase := .launching p.cohort tasks }
      else none
    | _, _ => none
  | .launch =>
    match d.phase with
    | .launching cohort (task :: tasks) =>
      (d.admitTask cohort task).map ({ · with phase := .launching cohort tasks })
    | .launching _ [] => some { d with phase := .idle }
    | _ => none
  | .reserve ticket => d.reserveWith reserveLimit ticket
  | .finish ticket tasks => d.finish ticket tasks
  | .drop ticket => d.drop ticket
  | .refuse refusing => some { d with refusing }

end Rust

namespace Python

variable {n : Nat}

/-- The limit of `_reserve_completion_claim`. -/
def reserveLimit (s : Slots n) (c : Fin (n + 1)) : Int := min s.free (s.cohorts c).free + 1

/-- One block under the state lock of `worker.py`. A returned claim gives its slots back and places its
tasks in the same block. A completion whose limit was zero settles nothing. -/
def step (d : Dispatcher n) : DispatchEvent → Option (Dispatcher n)
  | .fill fullTier allFast =>
    match d.phase with
    | .idle => (d.slots.nextClaim (d.plain.size == 0) fullTier allFast).map fun p =>
        { d with phase := .planned p }
    | _ => none
  | .startClaim id => d.startClaim id
  | .settle id tasks =>
    match d.phase, d.plain.get? id with
    | .idle, some p =>
      if tasks.length ≤ p.limit then Dispatcher.admitAll p.cohort tasks { d with
        slots := d.slots.returnPlain p, plain := d.plain.erase id }
      else none
    | _, _ => none
  | .launch => none
  | .reserve ticket => d.reserveWith reserveLimit ticket
  | .finish ticket tasks =>
    match d.reservations.get? ticket with
    | some limit =>
      if limit = 0 then
        if tasks = [] then some { d with reservations := d.reservations.erase ticket } else none
      else d.finish ticket tasks
    | none => none
  | .drop ticket => d.drop ticket
  | .refuse refusing => some { d with refusing }

end Python

/-- No completion reserves slots between two critical sections of the loop that belong together. -/
def Calm {n : Nat} (d : Dispatcher n) : DispatchEvent → Prop
  | .reserve _ => d.phase = .idle
  | _ => True

instance {n : Nat} (d : Dispatcher n) (e : DispatchEvent) : Decidable (Calm d e) := by
  cases e <;> dsimp only [Calm] <;> infer_instance

inductive Dispatches {n : Nat} (step : Dispatcher n → DispatchEvent → Option (Dispatcher n))
    (d₀ : Dispatcher n) : Dispatcher n → Prop
  | refl : Dispatches step d₀ d₀
  | tail {d d' : Dispatcher n} {e : DispatchEvent} (h : Dispatches step d₀ d) (hcalm : Calm d e)
      (hs : step d e = some d') : Dispatches step d₀ d'

def Dispatcher.run {n : Nat} (step : Dispatcher n → DispatchEvent → Option (Dispatcher n)) :
    Dispatcher n → List DispatchEvent → Option (Dispatcher n)
  | d, [] => some d
  | d, e :: es => (step d e).bind fun d => d.run step es

/-- The leased tasks of the worker if every claim in flight has leased its limit: running tasks that have
not handed their slot over, tasks that wait to be placed, and what claims in flight may return. -/
def Dispatcher.leased {n : Nat} (d : Dispatcher n) : Int :=
  (d.tickets.sum fun t => if t.handedOver then 0 else 1) + d.phase.unplaced + d.plain.sum (·.limit) +
    d.reservations.sum fun limit => limit

end Workhorse
