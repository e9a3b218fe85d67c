import Mathlib.Algebra.BigOperators.Group.Finset.Basic
import Mathlib.Data.Rat.Floor
import Workhorse.Schema.Db

/-!
# Admission shards

The capacity of a queue with a concurrency or a rate policy is split into shards. Each owns a share
of `max_active` and of the queue's token bucket. Tokens are `numeric` in the source; a division is exact here.
-/

namespace Workhorse

open Finset

/-- `admission_share_v1`. -/
def admissionShare (total shards shard : Nat) : Nat := total / shards + if shard < total % shards then 1 else 0

/-- `admission_shard_count_v1`. -/
def admissionShardCount (policy : Option ConcurrencyPolicy) (rate : Option RateLimitPolicy) : Nat :=
  if policy.isNone && rate.isNone then 0
  else if (policy.bind (·.maxActivePerKey)).isSome || (rate.bind (·.perKey)).isSome then 1
  else min 8 (min ((policy.map (·.maxActive)).getD 8) ((rate.map (·.queue.burst)).getD 8))

/-- The milliseconds since an instant, none when the clock stands before it. -/
def elapsedMs (since now : Time) : ℚ := max 0 (((now - since : Int) : ℚ) / 1000)

namespace RateRule

/-- The tokens of a shard at `now`. A missing row and null tokens stand for a full shard. -/
def shardTokens (rule : RateRule) (shards shard : Nat) (row : Option AdmissionShard) (now : Time) : ℚ :=
  let share : ℚ := admissionShare rule.burst shards shard
  match row.bind fun r => r.tokens.map fun t => (t, r.refilledAt) with
  | none => share
  | some (tokens, since) =>
    min share (tokens + elapsedMs since now * rule.limit * share / (rule.intervalMs * rule.burst))

/-- The tokens of a key bucket or of a budget bucket at `now`. A missing bucket is full. -/
def bucketTokens (rule : RateRule) (bucket : Option Bucket) (now : Time) : ℚ :=
  match bucket with
  | none => rule.burst
  | some b => min rule.burst (b.tokens + elapsedMs b.refilledAt now * rule.limit / rule.intervalMs)

end RateRule

namespace Db

def storedShards (db : Db) (queue : String) : List (Nat × AdmissionShard) :=
  ((db.admissionShards.select fun k _ => k.1 = queue).map fun e => (e.1.2, e.2)).insertionSort
    fun a b => a.1 ≤ b.1

def shardCount (db : Db) (queue : String) : Nat :=
  admissionShardCount (db.concurrencyPolicies.get? queue) (db.rateLimitPolicies.get? queue)

end Db

/-- The tokens that a rebalance spreads: none without a rate policy, a full bucket when rows are
missing or full, else the sum of the refilled shards, at most the burst. -/
def rebalanceTotal (rate : Option RateLimitPolicy) (stored : List AdmissionShard) (now : Time) : Option ℚ :=
  rate.map fun rate =>
    if stored = [] ∨ stored.any (·.tokens.isNone) then (rate.queue.burst : ℚ)
    else min (rate.queue.burst : ℚ) ((stored.zipIdx.map fun e =>
      rate.queue.shardTokens stored.length e.2 (some e.1) now).sum)

def rebalanceTime (stored : List AdmissionShard) (now : Time) : Time :=
  stored.foldl (fun t row => max t row.refilledAt) now

def rebalancedShards (policy : Option ConcurrencyPolicy) (rate : Option RateLimitPolicy)
    (stored : List AdmissionShard) (now : Time) : List (Nat × AdmissionShard) :=
  let shards := admissionShardCount policy rate
  let total := rebalanceTotal rate stored now
  (List.range shards).map fun shard => (shard, {
    tokens := total.bind fun total => rate.map fun rate =>
      total * (admissionShare rate.queue.burst shards shard : ℚ) / rate.queue.burst
    refilledAt := rebalanceTime stored now })

/-- `rebalance_admission_shards_v1`. -/
def rebalanceAdmissionShards (queue : String) (now : Time) (db : Db) : Db :=
  let rows := rebalancedShards (db.concurrencyPolicies.get? queue) (db.rateLimitPolicies.get? queue)
    ((db.storedShards queue).map Prod.snd) now
  { db with
    admissionShards := rows.foldl (fun t e => t.put (queue, e.1) e.2)
      (db.admissionShards.filter fun k _ => k.1 ≠ queue) }

/-! ## What a claim reads -/

/-- The rooms and the refilled tokens of the shards, each present when a policy limits it. -/
structure Reading where
  rooms : Option (Nat → Int)
  tokens : Option (Nat → ℚ)

/-- The leases that count against a shard. A lease without a shard counts against the first. -/
def shardLeases (shards shard : Nat) (leases : List (Option Nat)) : Nat :=
  leases.countP fun s => s.getD 0 % shards = shard

/-- The room of a shard: its share of `max_active` less its leases. -/
def shardRoom (maxActive shards : Nat) (leases : List (Option Nat)) (shard : Nat) : Int :=
  admissionShare maxActive shards shard - shardLeases shards shard leases

/-- What the held shards may still start under `max_active`. The overdraft of the shards that are not
held is subtracted. -/
def concRoom (shards : Nat) (held : List Nat) (rooms : Nat → Int) : Int :=
  min (∑ s ∈ range shards with s ∈ held, max (rooms s) 0)
    ((∑ s ∈ range shards with s ∈ held, rooms s) + ∑ s ∈ range shards with s ∉ held, min (rooms s) 0)

def rateRoom (shards : Nat) (held : List Nat) (tokens : Nat → ℚ) : Int := ⌊∑ s ∈ range shards with s ∈ held, tokens s⌋

/-- `LEAST` of two values of which either may be null. -/
def least (a b : Option Int) : Option Int :=
  match a, b with
  | some a, some b => some (min a b)
  | some a, none => some a
  | none, b => b

namespace Reading

variable (r : Reading) (shards : Nat) (held : List Nat)

def conc : Option Int := r.rooms.map (concRoom shards held)

def rate : Option Int := r.tokens.map (rateRoom shards held)

def room : Option Int := least (r.conc shards held) (r.rate shards held)

/-- What the whole queue could start, up to what the batch still wants. -/
def want (left : Int) : Int := ((least (some left) (least (r.rooms.map fun f => ∑ s ∈ range shards, f s)
    (r.tokens.map fun f => ⌊∑ s ∈ range shards, f s⌋))).getD left)

def exhausted (shard : Nat) : Bool := (r.rooms.any fun f => f shard ≤ 0) || (r.tokens.any fun f => f shard ≤ 0)

end Reading

end Workhorse
