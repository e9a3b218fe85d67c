import Workhorse.Admission.Shards
import Workhorse.Task.Heartbeat

/-!
# Claims

`claim_policy_batch_v1` and the functions around it. A batch runs in rounds. A round locks the budgets
that its window names, reads the room of the shards, borrows further shards when the held ones fall
short, picks ready rows, activates them and charges the buckets.
-/

namespace Workhorse

structure ClaimedTask where
  taskId : TaskId
  attempt : Nat
  fenceToken : Nat
  attemptTimeoutAt : Option Time
  leaseExpiresAt : Time
deriving DecidableEq

/-! ## The ready rows -/

/-- The order in which ready rows are claimed: priority, then sequence, then identity. -/
def claimBefore (a b : TaskId × Runtime) : Prop := b.2.priority < a.2.priority ∨ (b.2.priority = a.2.priority ∧
    (a.2.sequence.getD 0 < b.2.sequence.getD 0 ∨ (a.2.sequence.getD 0 = b.2.sequence.getD 0 ∧ a.1 ≤ b.1)))

instance (a b : TaskId × Runtime) : Decidable (claimBefore a b) := inferInstanceAs (Decidable (_ ∨ _))

namespace Db

def readyRows (db : Db) (queue : String) : List (TaskId × Runtime) :=
  (db.runtime.select fun _ r => r.state == .ready && r.queueName = queue).insertionSort claimBefore

/-- Whether a ready row may be claimed at `now`. -/
def claimable (db : Db) (now : Time) (e : TaskId × Runtime) : Bool := e.2.deadlineAt.all (now < ·) &&
    ((db.tasks.get? e.1).any fun t => t.executionTimeoutMs.all (e.2.executionUsedMs < ·)) &&
    !(db.queueControl.get? e.2.queueName).any (·.paused)

def claimableRows (db : Db) (queue : String) (now : Time) : List (TaskId × Runtime) :=
  (db.readyRows queue).filter (db.claimable now)

def sampledBudgets (db : Db) (queue : String) : List String :=
  (((db.readyRows queue).take 100).filterMap (·.2.budgetName)).dedup.insertionSort (· ≤ ·)

def activeLeases (db : Db) (queue : String) (now : Time) : List (Option Nat) :=
  (db.runtime.select fun _ r => r.state == .active && r.queueName = queue &&
    r.expiresAt.any (now < ·)).map (·.2.admissionShard)

def keyLeases (db : Db) (queue key : String) (now : Time) : Nat :=
  db.runtime.count fun _ r => r.state == .active && r.queueName = queue &&
    r.concurrencyKey = some key && r.expiresAt.any (now < ·)

def budgetLeases (db : Db) (budget : String) (now : Time) : Nat :=
  db.runtime.count fun _ r => r.state == .active && r.budgetName = some budget &&
    r.expiresAt.any (now < ·)

/-- The rooms and tokens of a queue's shards at `now`. -/
def readShards (db : Db) (queue : String) (now : Time) : Reading where
  rooms := (db.concurrencyPolicies.get? queue).map fun p =>
    shardRoom p.maxActive (db.shardCount queue) (db.activeLeases queue now)
  tokens := (db.rateLimitPolicies.get? queue).map fun p shard =>
    p.queue.shardTokens (db.shardCount queue) shard (db.admissionShards.get? (queue, shard)) now

def keyRoom (db : Db) (queue : String) (now : Time) (key : Option String) : Option Int := key.bind fun key => least
    ((db.concurrencyPolicies.get? queue).bind fun p => p.maxActivePerKey.map fun m =>
      (m : Int) - db.keyLeases queue key now)
    ((db.rateLimitPolicies.get? queue).bind fun p => p.perKey.map fun rule =>
      ⌊rule.bucketTokens (db.rateLimitBuckets.get? (queue, key)) now⌋)

/-- What a budget may still start. A budget that the claim did not lock has no room. -/
def budgetRoom (db : Db) (locked : List String) (now : Time) (budget : Option String) : Option Int :=
  budget.bind fun name =>
    if !locked.contains name then some 0
    else (db.budgets.get? name).bind fun b => least
      (b.maxActive.map fun m => (m : Int) - db.budgetLeases name now)
      (b.rate.map fun rule => ⌊rule.bucketTokens (db.budgetBuckets.get? name) now⌋)

end Db

/-! ## Picking rows -/

structure Candidate where
  taskId : TaskId
  row : Runtime
  keyRoom : Option Int
  budgetRoom : Option Int

def Candidate.fits (c : Candidate) (keyRank budgetRank : Nat) : Bool :=
  c.keyRoom.all ((keyRank : Int) ≤ ·) && c.budgetRoom.all ((budgetRank : Int) ≤ ·)

/-- The candidates whose ranks within their key and within their budget fit, in claim order. -/
def fitting (before : List Candidate) : List Candidate → List Candidate
  | [] => []
  | c :: rest =>
    let keyRank := before.countP (fun b => b.row.concurrencyKey = c.row.concurrencyKey) + 1
    let budgetRank := before.countP (fun b => b.row.budgetName = c.row.budgetName) + 1
    let fit := fitting (before ++ [c]) rest
    if c.fits keyRank budgetRank then c :: fit else fit

def windowCandidates (db : Db) (queue : String) (budgets : List String) (now : Time) : List Candidate :=
  ((db.claimableRows queue now).take 100).map fun e =>
    ⟨e.1, e.2, db.keyRoom queue now e.2.concurrencyKey, db.budgetRoom budgets now e.2.budgetName⟩

structure Picked where
  rows : List TaskId
  window : Nat
  mixed : Bool
  fit : Nat

/-- Pick without a rule that passes over a row: the first rows, up to one that names a budget. -/
def pickDirect (queue : String) (now : Time) (take : Nat) : Tx (List TaskId) := do
  let db ← database
  let rows := db.claimableRows queue now
  let locked := (← lockRows (rows.map Prod.fst)).take take
  pure (((rows.filter fun e => locked.contains e.1).takeWhile (·.2.budgetName.isNone)).map Prod.fst)

def pickWindow (queue : String) (budgets : List String) (now : Time) (take : Nat) : Tx Picked := do
  let db ← database
  let window := windowCandidates db queue budgets now
  let eligible := window.filter fun c => c.fits 1 1
  let fit := fitting [] eligible
  let mixed := eligible.any fun c => c.keyRoom.isSome && c.budgetRoom.isSome
  let locked := (← lockRows (fit.map (·.taskId))).take take
  pure ⟨locked, window.length, mixed, fit.length⟩

/-! ## Starting rows -/

/-- The shard of each picked row: the held shards in order, each up to its room. -/
def slots (rooms : Option (Nat → Int)) : List Nat → Nat → List Nat
  | [], _ => []
  | shard :: held, left =>
    let part := match rooms with
      | none => left
      | some f => min left (f shard).toNat
    List.replicate part shard ++ slots rooms held (left - part)

/-- The active row of a claim at `now`. -/
def Runtime.claimed (r : Runtime) (worker : String) (fence : Nat) (now expires : Time)
    (timeoutMs : Option Nat) (shard : Option Nat) : Runtime :=
  { r with
    state := .active, fenceToken := fence, workerId := some worker, acquiredAt := some now
    heartbeatAt := some now, expiresAt := some expires, readyAt := none, sequence := none
    waitName := none, attemptStartedAt := some (r.attemptStartedAt.getD now)
    attemptTimeoutAt := timeoutMs.map fun t =>
      now + milliseconds ((t : Int) - (r.executionUsedMs : Int))
    error := none, admissionShard := shard }

/-- `nextval('fence_token_seq')`. -/
def nextFence : Tx Nat := fun s =>
  .ok (s.db.fenceSeq + 1, s.update fun db => { db with fenceSeq := db.fenceSeq + 1 })

def activate (worker : String) (now expires : Time) (e : TaskId × (Runtime → Option Nat)) :
    Tx (Option ClaimedTask) := do
  let fence ← nextFence
  let db ← database
  match db.runtime.get? e.1, db.tasks.get? e.1 with
  | some r, some task =>
    if r.state = .ready ∧ r.deadlineAt.all (now < ·) then
      let row := r.claimed worker fence now expires task.executionTimeoutMs (e.2 r)
      write fun db => (db.setRuntime e.1 row).addEvent e.1 (some r.currentAttempt) .claimed
      pure (some ⟨e.1, r.currentAttempt, fence, row.attemptTimeoutAt, expires⟩)
    else pure none
  | _, _ => pure none

def activateAll (worker : String) (now expires : Time)
    (picked : List (TaskId × (Runtime → Option Nat))) : Tx (List ClaimedTask) :=
  picked.foldlM (fun acc e => do
    match ← activate worker now expires e with
    | some c => pure (acc ++ [c])
    | none => pure acc) []

/-! ## Charging -/

/-- What each held shard keeps: they give their tokens in order until the starts are paid. -/
def charges (tokens : Nat → ℚ) : List Nat → ℚ → List (Nat × ℚ)
  | [], _ => []
  | shard :: held, rest =>
    if rest ≤ 0 then []
    else
      let charge := min (tokens shard) rest
      if charge ≤ 0 then charges tokens held rest
      else (shard, tokens shard - charge) :: charges tokens held (rest - charge)

def chargeShards (queue : String) (now : Time) (kept : List (Nat × ℚ)) (db : Db) : Db :=
  { db with
    admissionShards := kept.foldl (fun t e =>
      t.put (queue, e.1) ⟨some e.2,
        ((t.get? (queue, e.1)).map fun row => max now row.refilledAt).getD now⟩) db.admissionShards }

/-- The bucket of a rule after some starts at `now`. A missing one starts full. -/
def RateRule.charged (rule : RateRule) (bucket : Option Bucket) (now : Time) (starts : Nat) : Bucket :=
  let b := bucket.getD ⟨rule.burst, now⟩
  ⟨rule.bucketTokens (some b) now - starts, max now b.refilledAt⟩

def chargeKeys (queue : String) (now : Time) (keys : List String) (db : Db) : Db :=
  match (db.rateLimitPolicies.get? queue).bind (·.perKey) with
  | none => db
  | some rule =>
    { db with
      rateLimitBuckets := keys.dedup.foldl (fun t key =>
        t.put (queue, key) (rule.charged (t.get? (queue, key)) now (keys.count key)))
        db.rateLimitBuckets }

def chargeBudgets (now : Time) (names : List String) (db : Db) : Db :=
  { db with
    budgetBuckets := names.dedup.foldl (fun t name =>
      match (db.budgets.get? name).bind (·.rate) with
      | none => t
      | some rule => t.put name (rule.charged (t.get? name) now (names.count name)))
      db.budgetBuckets }

/-- Discard the key buckets that are full at `now`, among the 100 oldest. -/
def discardFullBuckets (queue : String) (now : Time) : Tx Unit := do
  let db ← database
  let stored := (db.rateLimitBuckets.select fun k _ => k.1 = queue).insertionSort fun a b =>
    a.2.refilledAt < b.2.refilledAt ∨ (a.2.refilledAt = b.2.refilledAt ∧ a.1.2 ≤ b.1.2)
  let locked ← stored.foldlM (fun acc e => do
    if ← tryLock (.bucket queue e.1.2) then pure (acc ++ [e]) else pure acc) []
  let rule := (db.rateLimitPolicies.get? queue).bind (·.perKey)
  let full := (locked.take 100).filter fun e =>
    rule.all fun rule => (rule.burst : ℚ) ≤ rule.bucketTokens (some e.2) now
  write fun db => { db with
    rateLimitBuckets := db.rateLimitBuckets.filter fun k _ => !(full.map Prod.fst).contains k }

/-! ## Shard locks -/

structure Borrowed where
  held : List Nat
  room : Int
  tokens : ℚ
  enough : Bool

/-- Try to borrow one more shard, unless the held ones are enough or the shard has nothing to give. -/
def borrowShard (queue : String) (r : Reading) (conc rate : Option Int) (want : Int) (b : Borrowed)
    (shard : Nat) : Tx Borrowed := do
  if b.enough || b.held.contains shard || r.exhausted shard then pure b
  else if ← tryLock (.shard queue shard) then
    let room := b.room + (r.rooms.map (· shard)).getD 0
    let tokens := b.tokens + (r.tokens.map (· shard)).getD 0
    pure {
      held := b.held ++ [shard], room, tokens
      enough := (conc.all fun c => want ≤ c + room) && (rate.all fun t => (want : ℚ) ≤ t + tokens) }
  else pure b

def shardsFrom (home shards : Nat) : List Nat := (List.range shards).map fun i => (home + i) % shards

/-- Read the shards, borrow when the held ones cannot cover what the queue could start, read again. -/
def readRoom (queue : String) (home shards : Nat) (now : Time) (left : Nat) (held : List Nat) :
    Tx (Reading × List Nat) := do
  let r := (← database).readShards queue now
  let want := r.want shards left
  if (r.room shards held).any (· < want) && held.length ≠ shards then
    let b ← (shardsFrom home shards).foldlM
      (borrowShard queue r (r.conc shards held) (r.rate shards held) want) ⟨held, 0, 0, false⟩
    pure ((← database).readShards queue now, b.held)
  else pure (r, held)

def firstFreeShard (queue : String) : List Nat → Tx (Option Nat)
  | [] => pure none
  | shard :: rest => do
    if ← tryLock (.shard queue shard) then pure (some shard) else firstFreeShard queue rest

def lockBudgets (queue : String) (mayWait : Bool) (held : List String) : Tx (List String) := do
  ((← database).sampledBudgets queue).foldlM (fun held name => do
    if held.contains name then pure held
    else if mayWait then pure (held ++ [name])
    else if ← tryLock (.budget name) then pure (held ++ [name])
    else pure held) held

/-! ## The batch -/

structure ClaimCall where
  queue : String
  worker : String
  limit : Nat
  leaseMs : Nat
  mayWait : Bool
  home : Nat
  shards : Nat
  rebalanced : Bool

structure ClaimState where
  budgets : List String
  held : List Nat
  claimed : List ClaimedTask

/-- Take the locks of a round. Only the first round takes a shard of its own; it gives up when no
shard is free and it may not wait. -/
def roundLocks (c : ClaimCall) (first : Bool) (st : ClaimState) : Tx (Option ClaimState) := do
  let budgets ← lockBudgets c.queue (first && c.mayWait && !c.rebalanced) st.budgets
  if first && !c.rebalanced && 0 < c.shards then
    match ← firstFreeShard c.queue (shardsFrom c.home c.shards) with
    | some shard => pure (some { st with budgets, held := [shard] })
    | none => pure (if c.mayWait then some { st with budgets, held := [c.home] } else none)
  else pure (some { st with budgets })

def isDirect (db : Db) (queue : String) (budgets : List String) : Bool :=
  ((db.concurrencyPolicies.get? queue).bind (·.maxActivePerKey)).isNone &&
    ((db.rateLimitPolicies.get? queue).bind (·.perKey)).isNone && budgets.isEmpty

def startRows (c : ClaimCall) (now : Time) (r : Reading) (held : List Nat) (picked : List TaskId) :
    Tx (List ClaimedTask) := do
  let slots := slots r.rooms held picked.length
  let started ← activateAll c.worker now (now + milliseconds c.leaseMs)
    (picked.zipIdx.map fun e => (e.1, fun _ => slots[e.2]?))
  let db ← database
  let keys := started.filterMap fun t => (db.runtime.get? t.taskId).bind (·.concurrencyKey)
  let budgets := started.filterMap fun t => (db.runtime.get? t.taskId).bind (·.budgetName)
  match r.tokens with
  | some tokens => write (chargeShards c.queue now (charges tokens held started.length))
  | none => pure ()
  write (chargeKeys c.queue now keys)
  write (chargeBudgets now budgets)
  pure started

/-- The part of a round at its clock reading: read the room, pick rows and start them. It returns the
state after it, and whether another round follows. -/
def roundStarts (c : ClaimCall) (now : Time) (st : ClaimState) : Tx (ClaimState × Bool) := do
  let left := c.limit - st.claimed.length
  let (r, held) ← readRoom c.queue c.home c.shards now left st.held
  let st := { st with held }
  let room := r.room c.shards held
  let take := ((room.map fun n => min n (left : Int)).getD left).toNat
  let capped := room.any (· ≤ (left : Int))
  if take = 0 then pure (st, false)
  else if isDirect (← database) c.queue st.budgets then
    let picked ← pickDirect c.queue now take
    let started ← startRows c now r held picked
    pure ({ st with claimed := st.claimed ++ started }, false)
  else
    let picked ← pickWindow c.queue st.budgets now take
    if picked.rows = [] then pure (st, false)
    else
      let started ← startRows c now r held picked.rows
      let st := { st with claimed := st.claimed ++ started }
      let stop := c.limit ≤ st.claimed.length || (capped && take ≤ started.length) ||
        (picked.window < 100 && !picked.mixed && picked.fit ≤ started.length)
      pure (st, !stop)

def claimRound (c : ClaimCall) (first : Bool) (st : ClaimState) : Tx (ClaimState × Bool) := do
  match ← roundLocks c first st with
  | none => pure (st, false)
  | some st =>
    let now ← clockTimestamp
    if first then discardFullBuckets c.queue now
    roundStarts c now st

/-- The rounds of a batch. Each round that another follows starts a task. -/
def claimRounds (c : ClaimCall) : Nat → Bool → ClaimState → Tx ClaimState
  | 0, _, st => pure st
  | fuel + 1, first, st => do
    let (st, again) ← claimRound c first st
    if again then claimRounds c fuel false st else pure st

def shardsMatch (db : Db) (queue : String) (shards : Nat) : Bool := (db.storedShards queue).length = shards &&
    ((db.storedShards queue).map Prod.fst).max? = some (shards - 1)

/-- `claim_policy_batch_v1`. -/
def claimPolicyBatch (queue worker : String) (limit leaseMs : Nat) (mayWait : Bool) : Tx (List ClaimedTask) := do
  ensureWorker worker
  ensureLease leaseMs
  ensure (1 ≤ limit ∧ limit ≤ 100) "limit must be between 1 and 100"
  let db ← database
  let shards := db.shardCount queue
  let home := (← asking Host.backendPid) % shards
  if 0 < shards && !shardsMatch db queue shards then
    let now ← clockTimestamp
    write (rebalanceAdmissionShards queue now)
    let st ← claimRounds ⟨queue, worker, limit, leaseMs, mayWait, home, shards, true⟩ limit true
      ⟨[], List.range shards, []⟩
    pure st.claimed
  else
    let st ← claimRounds ⟨queue, worker, limit, leaseMs, mayWait, home, shards, false⟩ limit true
      ⟨[], [], []⟩
    pure st.claimed

/-! ## The other claims -/

/-- The active fast-tier row of a claim at `now`. -/
def FastRuntime.claimed (r : FastRuntime) (worker : String) (fence : Nat) (now : Time)
    (leaseMs : Nat) : FastRuntime :=
  { r with
    state := .active, fenceToken := fence, workerId := some worker, claimedAt := some now
    expiresAt := some (now + milliseconds leaseMs)
    attemptTimeoutAt := r.executionTimeoutMs.map fun t => now + milliseconds t }

def fastClaimBefore (a b : TaskId × FastRuntime) : Prop := b.2.priority < a.2.priority ∨ (b.2.priority = a.2.priority ∧
    (a.2.runAt < b.2.runAt ∨ (a.2.runAt = b.2.runAt ∧ a.2.sequence ≤ b.2.sequence)))

instance (a b : TaskId × FastRuntime) : Decidable (fastClaimBefore a b) := inferInstanceAs (Decidable (_ ∨ _))

def fastActivate (worker : String) (now : Time) (leaseMs : Nat) (recordClaims : Bool)
    (acc : List ClaimedTask) (id : TaskId) : Tx (List ClaimedTask) := do
  let fence ← nextFence
  match (← database).fastRuntime.get? id with
  | none => pure acc
  | some r =>
    if r.state = .ready then
      let row := r.claimed worker fence now leaseMs
      write fun db =>
        let db := db.setFast id row
        if recordClaims then db.addEvent id (some r.attempt) .claimed else db
      pure (acc ++ [⟨id, r.attempt, fence, row.attemptTimeoutAt, now + milliseconds leaseMs⟩])
    else pure acc

/-- `fast_claim_v1`. -/
def fastClaim (queue worker : String) (limit leaseMs : Nat) (recordClaims : Bool) : Tx (List ClaimedTask) := do
  let now ← clockTimestamp
  let ready := ((← database).fastRuntime.select fun _ r => r.state == .ready &&
    r.queueName = queue && r.runAt ≤ now && r.deadlineAt.all (now < ·)).insertionSort fastClaimBefore
  let locked := (← lockRows (ready.map Prod.fst)).take limit
  locked.foldlM (fastActivate worker now leaseMs recordClaims) []

def fastControl (db : Db) (queue : String) : Option QueueControl :=
  (db.queueControl.get? queue).filter (·.tier == .fast)

/-- `claim_many_v1`. -/
def claimMany (queue worker : String) (limit leaseMs : Nat) : Tx (List ClaimedTask) := do
  ensure (1 ≤ limit ∧ limit ≤ 100) "limit must be between 1 and 100"
  match fastControl (← database) queue with
  | some control =>
    ensureWorker worker
    ensureLease leaseMs
    if control.paused then pure [] else fastClaim queue worker limit leaseMs control.recordClaims
  | none => claimPolicyBatch queue worker limit leaseMs true

/-- `claim_v1`. -/
def claim (queue worker : String) (leaseMs : Nat) : Tx (List ClaimedTask) := claimMany queue worker 1 leaseMs

/-- The row that `claim_one_v1` takes from a queue without a policy. -/
def pickOne (queue : String) (budgets : List String) (now : Time) : Tx (Option TaskId) := do
  let db ← database
  let rows := db.claimableRows queue now
  if budgets = [] then
    let locked ← lockRows (rows.map Prod.fst)
    pure (((rows.find? fun e => locked.contains e.1).filter fun e => e.2.budgetName.isNone).map Prod.fst)
  else
    let admissible := (rows.take 100).filter fun e =>
      (db.budgetRoom budgets now e.2.budgetName).all (1 ≤ ·)
    pure (← lockRows (admissible.map Prod.fst)).head?

/-- `claim_one_v1`. Without a policy it takes one row, which keeps the shard of its last lease. -/
def claimOne (queue worker : String) (leaseMs : Nat) (mayWait : Bool) : Tx (List ClaimedTask) := do
  ensureWorker worker
  ensureLease leaseMs
  let db ← database
  match fastControl db queue with
  | some control =>
    if control.paused then pure [] else fastClaim queue worker 1 leaseMs control.recordClaims
  | none =>
    if 0 < db.shardCount queue then claimPolicyBatch queue worker 1 leaseMs mayWait
    else
      let budgets ← lockBudgets queue mayWait []
      let now ← clockTimestamp
      match ← pickOne queue budgets now with
      | none =>
        let _ ← nextFence
        pure []
      | some id =>
        let started ← activateAll worker now (now + milliseconds leaseMs) [(id, (·.admissionShard))]
        let db ← database
        let names := started.filterMap fun t => (db.runtime.get? t.taskId).bind (·.budgetName)
        write (chargeBudgets now names)
        pure started

/-- `complete_many_and_claim_v1`. -/
def completeManyAndClaim (worker : String) (entries : List Completion) (queue : String)
    (limit leaseMs : Nat) : Tx (List TaskId × List ClaimedTask) := do
  ensureWorker worker
  ensureLease leaseMs
  ensure (limit ≤ 100) "limit must be between 0 and 100"
  ensure (entries.length ≤ 100)
    "completions must contain at most 100 entries with one fence token and result each"
  match fastControl (← database) queue with
  | none => raise ("queue " ++ queue ++ " is not a fast-tier queue")
  | some control =>
    let accepted ← fastCompleteMany worker entries
    if 0 < limit ∧ !control.paused then
      pure (accepted, ← fastClaim queue worker limit leaseMs control.recordClaims)
    else pure (accepted, [])

end Workhorse
