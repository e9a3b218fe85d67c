import Workhorse.Task.Enqueue

/-!
# Interleaved enqueue batches

Batches of several connections run with each other's commits between their statements. A batch reads
the clock, locks its keys one by one in their order, works through its requests, and commits. Its
writes become visible with the commit; the key locks are held until then.
-/

namespace Workhorse

/-- The row that a request names in `enqueue_idempotency`. -/
def Request.identity (r : Request) : Option (String × String) := r.idempotency.map IdempotencyKey.identity

def lockOrder (requests : List Request) : List (String × String) :=
  (requests.filterMap Request.identity).dedup.insertionSort fun a b =>
    a.1 < b.1 ∨ (a.1 = b.1 ∧ a.2 ≤ b.2)

def readTiers (requests : List Request) (db : Db) (b : Batch) : Batch :=
  { b with
    fastQueues := (requests.map (·.queue)).filter fun q =>
      (db.queueControl.get? q).any (·.tier == .fast) }

structure OpenBatch where
  requests : List Request
  batch : Batch
  unlocked : List (String × String)
  held : List (String × String)
  done : List Request
  todo : List Request

structure Batches where
  session : Session
  running : Table Nat OpenBatch

namespace Batches

def initial (host : Host) : Batches := ⟨⟨.empty, host, 0⟩, .empty⟩

def row (σ : Batches) (k : String × String) : Option Idempotency := σ.session.db.idempotency.get? k

abbrev Accepted := List (Request × (TaskId × Bool))

inductive Step : Batches → Accepted → Batches → Prop
  | start {σ : Batches} {conn : Nat} {requests : List Request} {b : Batch} {s : Session}
      (hconn : σ.running.get? conn = none) (h : openBatch requests σ.session = .ok (b, s)) :
      Step σ [] ⟨s, σ.running.put conn ⟨requests, b, lockOrder requests, [], [], requests⟩⟩
  /-- A lock is waited for until no other batch holds it. -/
  | lock {σ : Batches} {conn : Nat} {o : OpenBatch} {k : String × String} {ks : List (String × String)}
      (hconn : σ.running.get? conn = some o) (hk : o.unlocked = k :: ks)
      (hfree : ∀ conn' o', σ.running.get? conn' = some o' → conn' ≠ conn → k ∉ o'.held) :
      Step σ [] { σ with running := σ.running.put conn { o with unlocked := ks, held := k :: o.held } }
  | request {σ : Batches} {conn : Nat} {o : OpenBatch} {r : Request} {rs : List Request} {b : Batch}
      {s : Session} (hconn : σ.running.get? conn = some o) (hlocked : o.unlocked = [])
      (hr : o.todo = r :: rs)
      (h : enqueueRequest (readTiers o.requests σ.session.db o.batch) r σ.session = .ok (b, s)) :
      Step σ [] ⟨s, σ.running.put conn { o with batch := b, done := o.done ++ [r], todo := rs }⟩
  | commit {σ : Batches} {conn : Nat} {o : OpenBatch} {s : Session}
      (hconn : σ.running.get? conn = some o) (hlocked : o.unlocked = []) (hdone : o.todo = [])
      (h : (decideEdges o.batch >>= insertBatch) σ.session = .ok ((), s)) :
      Step σ (o.done.zip o.batch.replies) ⟨s, σ.running.erase conn⟩
  | abort (σ : Batches) (conn : Nat) : Step σ [] { σ with running := σ.running.erase conn }
  /-- Other transactions, which leave the keys as they are; time passes. -/
  | other {σ : Batches} {s : Session} (hkeys : s.db.idempotency = σ.session.db.idempotency)
      (hhost : s.host = σ.session.host) (hasked : σ.session.asked ≤ s.asked) :
      Step σ [] { σ with session := s }

inductive Run : Batches → List Accepted → Batches → Prop
  | refl (σ : Batches) : Run σ [] σ
  | tail {σ σ' σ'' : Batches} {trace : List Accepted} {accepted : Accepted} (h : Run σ trace σ')
      (hs : Step σ' accepted σ'') : Run σ (trace ++ [accepted]) σ''

end Batches

end Workhorse
