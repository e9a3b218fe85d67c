import Workhorse.Admission.Claim

/-!
# Interleaved claims and heartbeats

Claims and heartbeats of several connections run with each other's commits between their statements.
A claim locks shards, reads the clock, counts the committed leases and its own, and starts rows on the
shards it holds; its leases become visible with the commit. A heartbeat locks its row, reads the clock,
updates the row and commits. Everybody else reads committed rows only.
-/

namespace Workhorse

structure Gate where
  cap : Nat
  counts : Runtime → Bool
  /-- Whether a row counts is decided by columns that a heartbeat does not write. -/
  renewed : ∀ r now leaseMs, counts (r.renewed now leaseMs) = counts r

namespace Gate

theorem counts_renewed {p : Runtime → Bool} {r : Runtime} {now : Time} {leaseMs : Nat}
    (h : ∀ heartbeatAt expiresAt, p { r with heartbeatAt, expiresAt } = p r) :
    p (r.renewed now leaseMs) = p r := by
  unfold Runtime.renewed
  split
  · exact h _ _
  · rfl

/-- `max_active` of a queue. -/
def queue (maxActive : Nat) (name : String) : Gate where
  cap := maxActive
  counts r := r.queueName = name
  renewed _ _ _ := counts_renewed (p := fun r => r.queueName = name) fun _ _ => rfl

/-- `max_active_per_key` of a concurrency key. Such a queue has one shard. -/
def key (maxActivePerKey : Nat) (name key : String) : Gate where
  cap := maxActivePerKey
  counts r := r.queueName = name && r.concurrencyKey = some key
  renewed _ _ _ := counts_renewed (p := fun r => r.queueName = name && r.concurrencyKey = some key)
    fun _ _ => rfl

/-- `max_active` of a budget, whose lock stands for a single shard. -/
def budget (maxActive : Nat) (name : String) : Gate where
  cap := maxActive
  counts r := r.budgetName = some name
  renewed _ _ _ := counts_renewed (p := fun r => r.budgetName = some name) fun _ _ => rfl

variable (gate : Gate)

/-- A lease that counts and has not expired at `now`. -/
def leases (now : Time) (r : Runtime) : Bool := r.state == .active && gate.counts r && r.expiresAt.any (now < ·)

def leasesIn (now : Time) (shards shard : Nat) (r : Runtime) : Bool :=
  gate.leases now r && r.admissionShard.getD 0 % shards == shard

end Gate

structure OpenBeat where
  taskId : TaskId
  leaseMs : Nat
  now : Option Time
  /-- Whether it has updated the row. Its lock keeps the row as the update found it. -/
  updated : Bool

/-- A lease, as a generation of a task, that a claim counted as expired at its clock reading. -/
structure Expired where
  taskId : TaskId
  fenceToken : Nat
  now : Time

structure OpenClaim where
  held : List Nat
  started : Table TaskId Runtime
  expired : List Expired

structure Admissions where
  clock : Time
  fenceSeq : Nat
  shards : Nat
  runtime : Table TaskId Runtime
  beats : Table Nat OpenBeat
  claims : Table Nat OpenClaim
  expired : List Expired

namespace Admissions

variable (gate : Gate) (σ : Admissions)

def Free (id : TaskId) : Prop := (∀ conn b, σ.beats.get? conn = some b → b.taskId ≠ id) ∧
  ∀ conn c, σ.claims.get? conn = some c → c.started.get? id = none

def rooms (c : OpenClaim) (now : Time) : Nat → Int := shardRoom gate.cap σ.shards
    (((σ.runtime.overlay c.started).select fun _ r => gate.leases now r).map (·.2.admissionShard))

/-- The committed leases that a count at `now` leaves out. -/
def countedExpired (now : Time) : List Expired :=
  (σ.runtime.select fun _ r => r.state == .active && gate.counts r && !r.expiresAt.any (now < ·)).map
    fun e => ⟨e.1, e.2.fenceToken, now⟩

/-- The leases that claims and heartbeats accept. -/
abbrev AllowedLease (leaseMs : Nat) : Prop := 100 ≤ leaseMs ∧ leaseMs ≤ 86400000

/-- One statement of one connection, or a step of the clock. The commit of a heartbeat is labelled with
its connection. -/
inductive Step : Admissions → Option Nat → Admissions → Prop
  | tick {σ : Admissions} {t : Time} (h : σ.clock ≤ t) : Step σ none { σ with clock := t }
  | beat {σ : Admissions} {conn : Nat} {id : TaskId} {worker : String} {fence : Nat} {r : Runtime}
      (hconn : σ.beats.get? conn = none) (hr : σ.runtime.get? id = some r)
      (ho : r.ownedBy worker fence = true) (hfree : σ.Free id) {leaseMs : Nat} (hlease : AllowedLease leaseMs) :
      Step σ none { σ with beats := σ.beats.put conn ⟨id, leaseMs, none, false⟩ }
  | read {σ : Admissions} {conn : Nat} {b : OpenBeat} (hb : σ.beats.get? conn = some b)
      (hnow : b.now = none) :
      Step σ none { σ with beats := σ.beats.put conn { b with now := some σ.clock } }
  | update {σ : Admissions} {conn : Nat} {b : OpenBeat} (hb : σ.beats.get? conn = some b)
      (hnow : b.now.isSome = true) :
      Step σ none { σ with beats := σ.beats.put conn { b with updated := true } }
  | commit {σ : Admissions} {conn : Nat} {b : OpenBeat} {now : Time} {r : Runtime}
      (hb : σ.beats.get? conn = some b) (hnow : b.now = some now) (hup : b.updated = true)
      (hr : σ.runtime.get? b.taskId = some r) :
      Step σ (some conn) { σ with
        runtime := σ.runtime.put b.taskId (r.renewed now b.leaseMs), beats := σ.beats.erase conn }
  | rollback (σ : Admissions) (conn : Nat) : Step σ none { σ with beats := σ.beats.erase conn }
  | heartbeat {σ : Admissions} {id : TaskId} {worker : String} {fence : Nat} {r : Runtime}
      (hr : σ.runtime.get? id = some r) (ho : r.ownedBy worker fence = true) (hfree : σ.Free id)
      {leaseMs : Nat} (hlease : AllowedLease leaseMs) :
      Step σ none { σ with runtime := σ.runtime.put id (r.renewed σ.clock leaseMs) }
  | write {σ : Admissions} {id : TaskId} {r : Runtime} (hs : r.state ≠ .active)
      (hfence : r.fenceToken ≤ σ.fenceSeq) (hfree : σ.Free id) :
      Step σ none { σ with runtime := σ.runtime.put id r }
  | start {σ : Admissions} {id : TaskId} {r : Runtime} (hcounts : gate.counts r = false)
      (hfence : σ.fenceSeq < r.fenceToken) (hfree : σ.Free id) :
      Step σ none { σ with runtime := σ.runtime.put id r, fenceSeq := r.fenceToken }
  | delete {σ : Admissions} {id : TaskId} (hfree : σ.Free id) : Step σ none { σ with runtime := σ.runtime.erase id }
  /-- A change of policies gives the queue another number of shards; it holds every shard lock. -/
  | reshard {σ : Admissions} (hnone : ∀ conn, σ.claims.get? conn = none) {shards : Nat}
      (h : 0 < shards) : Step σ none { σ with shards }
  | claim {σ : Admissions} {conn : Nat} {held : List Nat} (hconn : σ.claims.get? conn = none)
      (hnodup : held.Nodup)
      (hfree : ∀ conn' c, σ.claims.get? conn' = some c → ∀ shard ∈ held, shard ∉ c.held) :
      Step σ none { σ with claims := σ.claims.put conn ⟨held, .empty, []⟩ }
  | borrow {σ : Admissions} {conn : Nat} {c : OpenClaim} {shard : Nat}
      (hc : σ.claims.get? conn = some c)
      (hfree : ∀ conn' c', σ.claims.get? conn' = some c' → shard ∉ c'.held) :
      Step σ none { σ with claims := σ.claims.put conn { c with held := c.held ++ [shard] } }
  /-- A round of a claim, with a reading of the clock that it took before it counted. -/
  | round {σ : Admissions} {conn : Nat} {c : OpenClaim} {now : Time} {rows : List (TaskId × Runtime)}
      {fenceSeq : Nat} (hc : σ.claims.get? conn = some c) (hnow : now ≤ σ.clock)
      (hnodup : (rows.map Prod.fst).Nodup)
      {leaseMs : Nat} (hlease : AllowedLease leaseMs)
      (hrows : ∀ e ∈ rows, σ.Free e.1 ∧ ∃ r, σ.runtime.get? e.1 = some r ∧ r.state = .ready ∧
        ∃ worker timeoutMs shard,
          e.2 = r.claimed worker e.2.fenceToken now (now + milliseconds leaseMs) timeoutMs shard)
      (hfences : ∀ e ∈ rows, σ.fenceSeq < e.2.fenceToken ∧ e.2.fenceToken ≤ fenceSeq)
      (hseq : σ.fenceSeq ≤ fenceSeq)
      (hroom : (rows.length : Int) ≤ concRoom σ.shards c.held (σ.rooms gate c now))
      (hslots : rows.map (fun e => e.2.admissionShard.getD 0 % σ.shards) =
        slots (some (σ.rooms gate c now)) c.held rows.length) :
      Step σ none { σ with
        fenceSeq
        claims := σ.claims.put conn { c with
          started := c.started.overlay ⟨rows, hnodup⟩
          expired := c.expired ++ σ.countedExpired gate now } }
  | claimCommit {σ : Admissions} {conn : Nat} {c : OpenClaim} (hc : σ.claims.get? conn = some c) : Step σ none { σ with
        runtime := σ.runtime.overlay c.started
        claims := σ.claims.erase conn
        expired := σ.expired ++ c.expired }
  | claimRollback (σ : Admissions) (conn : Nat) : Step σ none { σ with claims := σ.claims.erase conn }

def Prompt (label : Option Nat) : Prop :=
  ∀ conn b now r, label = some conn → σ.beats.get? conn = some b → b.now = some now →
    σ.runtime.get? b.taskId = some r → r.renewed now b.leaseMs ≠ r → r.expiresAt.any (σ.clock < ·) = true

inductive Reaches (σ₀ : Admissions) : Admissions → Prop
  | refl : Reaches σ₀ σ₀
  | tail {σ σ' : Admissions} {label : Option Nat} (h : Reaches σ₀ σ) (hs : Step gate σ label σ')
      (hprompt : σ.Prompt label) : Reaches σ₀ σ'

def Fresh : Prop := (∀ conn, σ.beats.get? conn = none) ∧ (∀ conn, σ.claims.get? conn = none) ∧ σ.expired = [] ∧
  0 < σ.shards ∧ ∀ id r, σ.runtime.get? id = some r → r.fenceToken ≤ σ.fenceSeq

end Admissions

end Workhorse
