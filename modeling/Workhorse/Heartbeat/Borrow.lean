import Workhorse.Lib.Table

/-!
# Borrowed connections

`borrowAcquisition` and `borrowConnectionWithin` of `heartbeat-connection.ts`, on one pool. A borrow waits for a
connect, runs an operation on the connection and releases it. A borrow whose wait ends first parks its connect, and the
next borrow takes the oldest parked one. Each step here is one turn of the event loop; between the end of a wait and the
turn that resumes the borrow, the connect may still settle.
-/

namespace Workhorse

structure BorrowAcquisition where
  waiter : Option Nat
  settled : Bool
  connected : Bool
  released : Nat
  /-- It was released with an error, which destroys it. -/
  destroyed : Bool

/-- Where a call of `borrowConnectionWithin` stands. `stop` says that its timer or its signal ended the wait first. -/
inductive Borrow where
  | waiting (acquisition : Nat) (stop : Bool)
  /-- The connect has reached it, and it has not resumed yet. -/
  | received (acquisition : Nat) (stop : Bool)
  /-- The connect failed, and it has not resumed yet. -/
  | refused (stop : Bool)
  | operating (acquisition : Nat)
  | done

inductive BorrowOutcome where
  | value
  | error
  | stopped
  deriving DecidableEq

namespace Borrow

def deliver : Borrow → Borrow
  | waiting a stop => received a stop
  | b => b

def fail : Borrow → Borrow
  | waiting _ stop => refused stop
  | b => b

def waits : Borrow → Bool
  | waiting _ _ => true
  | _ => false

def owns (a : Nat) : Borrow → Bool
  | waiting a' _ | received a' _ | operating a' => a' = a
  | refused _ | done => false

end Borrow

structure BorrowPool where
  acquisitions : Table Nat BorrowAcquisition
  parked : List Nat
  borrows : Table Nat Borrow

inductive BorrowTurn where
  /-- A call. `fresh` names its connect if it starts one, and `aborted` says that its signal has aborted before. -/
  | borrow (id fresh : Nat) (aborted : Bool)
  | connected (acquisition : Nat)
  | failed (acquisition : Nat)
  | stop (id : Nat)
  | resume (id : Nat)
  | finish (id : Nat) (outcome : BorrowOutcome)

namespace BorrowPool

variable (s : BorrowPool)

def empty : BorrowPool := ⟨.empty, [], .empty⟩

def borrow (id fresh : Nat) (aborted : Bool) : Option BorrowPool :=
  if s.borrows.contains id || s.acquisitions.contains fresh then none
  else
    match s.parked with
    | [] => some
      { s with
        acquisitions := s.acquisitions.put fresh ⟨some id, false, false, 0, false⟩
        borrows := s.borrows.put id (.waiting fresh aborted) }
    | a :: parked =>
      (s.acquisitions.get? a).map fun taken =>
        { acquisitions := s.acquisitions.put a { taken with waiter := some id }
          parked
          borrows := s.borrows.put id (.waiting a aborted) }

/-- The handler of a connect. A connection that no borrow waits for goes back to the pool. -/
def settle (a : Nat) (connected : Bool) : Option BorrowPool :=
  match s.acquisitions.get? a with
  | some acquisition =>
    if acquisition.settled then none
    else
      let settled := { acquisition with settled := true, connected, waiter := none }
      match acquisition.waiter with
      | some id =>
        (s.borrows.get? id).map fun b =>
          { acquisitions := s.acquisitions.put a settled
            parked := s.parked.erase a
            borrows := s.borrows.put id (if connected then b.deliver else b.fail) }
      | none => some
        { s with
          acquisitions := s.acquisitions.put a
            (if connected then { settled with released := settled.released + 1 } else settled)
          parked := s.parked.erase a }
  | none => none

def stop (id : Nat) : Option BorrowPool :=
  match s.borrows.get? id with
  | some (.waiting a false) => some { s with borrows := s.borrows.put id (.waiting a true) }
  | _ => none

def release (id a : Nat) (destroyed : Bool) : Option BorrowPool := (s.acquisitions.get? a).map fun acquisition =>
    { s with
      acquisitions := s.acquisitions.put a { acquisition with released := acquisition.released + 1, destroyed }
      borrows := s.borrows.put id .done }

def resume (id : Nat) : Option BorrowPool :=
  match s.borrows.get? id with
  | some (.waiting a true) =>
    (s.acquisitions.get? a).map fun acquisition =>
      if acquisition.waiter.isSome then
        { acquisitions := s.acquisitions.put a { acquisition with waiter := none }
          parked := if acquisition.settled then s.parked else s.parked ++ [a]
          borrows := s.borrows.put id .done }
      else { s with borrows := s.borrows.put id .done }
  | some (.received a true) => s.release id a false
  | some (.received a false) => some { s with borrows := s.borrows.put id (.operating a) }
  | some (.refused _) => some { s with borrows := s.borrows.put id .done }
  | _ => none

/-- A connection on which a query failed, or still runs, is destroyed. -/
def finish (id : Nat) (outcome : BorrowOutcome) : Option BorrowPool :=
  match s.borrows.get? id with
  | some (.operating a) => s.release id a (outcome ≠ .value)
  | _ => none

def step : BorrowTurn → Option BorrowPool
  | .borrow id fresh aborted => s.borrow id fresh aborted
  | .connected a => s.settle a true
  | .failed a => s.settle a false
  | .stop id => s.stop id
  | .resume id => s.resume id
  | .finish id outcome => s.finish id outcome

def run : List BorrowTurn → BorrowPool → Option BorrowPool
  | [], s => some s
  | t :: turns, s => (s.step t).bind (run turns)

def outstanding : Nat := s.acquisitions.count fun _ a => !a.settled

def waiting : Nat := s.borrows.count fun _ b => b.waits

end BorrowPool

/-- The states that the borrows of a pool reach, with the most borrows that waited at once. -/
inductive Borrowing : Nat → BorrowPool → Prop
  | start : Borrowing 0 .empty
  | turn {peak : Nat} {s s' : BorrowPool} {t : BorrowTurn} (h : Borrowing peak s) (hs : s.step t = some s') :
    Borrowing (max peak s'.waiting) s'

inductive BorrowOwner where
  | borrow (id : Nat)
  | parked
  | pool

def BorrowPool.Owns (s : BorrowPool) (a : Nat) : BorrowOwner → Prop
  | .borrow id => ∃ b, s.borrows.get? id = some b ∧ b.owns a
  | .parked => a ∈ s.parked
  | .pool => ∃ acquisition, s.acquisitions.get? a = some acquisition ∧ acquisition.settled ∧
      (acquisition.connected → 0 < acquisition.released)

end Workhorse
