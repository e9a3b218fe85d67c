import Workhorse.Admission.Claim
import Workhorse.Task.Enqueue
import Workhorse.Task.Purge

/-!
# Calls and runs

The system as workers, operators and maintenance loops see it: a call runs as one transaction, which
commits with a reply or raises. A raised error undoes every write, but the sequences and the clock do
not go back. Any number of parties may call; a run is the sequence in which their transactions take
effect.
-/

namespace Workhorse

structure Policies where
  queueControl : Table String QueueControl
  concurrencyPolicies : Table String ConcurrencyPolicy
  rateLimitPolicies : Table String RateLimitPolicy
  rateLimitBuckets : Table (String × String) Bucket
  admissionShards : Table (String × Nat) AdmissionShard
  budgets : Table String Budget
  budgetBuckets : Table String Bucket

def Db.configure (db : Db) (p : Policies) : Db :=
  { db with
    queueControl := p.queueControl
    concurrencyPolicies := p.concurrencyPolicies
    rateLimitPolicies := p.rateLimitPolicies
    rateLimitBuckets := p.rateLimitBuckets
    admissionShards := p.admissionShards
    budgets := p.budgets
    budgetBuckets := p.budgetBuckets }

inductive Call
  | heartbeat (id : TaskId) (worker : String) (fence leaseMs : Nat)
  | heartbeatMany (worker : String) (beats : List Beat)
  | heartbeatV2 (id : TaskId) (worker : String) (fence leaseMs : Nat)
  | heartbeatManyV2 (worker : String) (beats : List Beat)
  | complete (id : TaskId) (worker : String) (fence : Nat) (result : Option Jsonb)
  | fail (id : TaskId) (worker : String) (fence : Nat) (error : Option Envelope)
      (retryDelayMs : Option Int)
  | releaseOwned (id : TaskId) (worker : String) (fence : Nat)
  | acknowledgeCancel (id : TaskId) (worker : String) (fence : Nat)
  | expireOwned (id : TaskId) (worker : String) (fence : Nat)
  | saveCheckpoint (id : TaskId) (worker : String) (fence : Nat) (name : String) (value : Jsonb)
      (inputFingerprint : Option String)
  | updateProgress (id : TaskId) (worker : String) (fence : Nat) (value : Jsonb)
  | scheduleWait (id : TaskId) (worker : String) (fence : Nat) (name : String)
      (durationMs : Option Nat) (wakeAt : Option Time)
  | waitForSignal (id : TaskId) (worker : String) (fence : Nat) (name : String)
      (timeoutMs : Option Nat)
  | waitForHuman (id : TaskId) (worker : String) (fence : Nat) (name : String) (context : Jsonb)
      (timeoutMs : Option Nat)
  | claim (queue worker : String) (leaseMs : Nat)
  | claimMany (queue worker : String) (limit leaseMs : Nat)
  | claimOne (queue worker : String) (leaseMs : Nat) (mayWait : Bool)
  | completeManyAndClaim (worker : String) (entries : List Completion) (queue : String)
      (limit leaseMs : Nat)
  | enqueueBatch (requests : List Request)
  | promote (limit : Int)
  | runTaskNow (id : TaskId) (requestedBy reason requestId : String)
  | recoverExpired (limit : Int) (retryDelayMs : Option Int) (skipExpiredLeases : Bool)
  | cancel (id : TaskId) (requestedBy reason : Option String)
  | sendSignal (id : TaskId) (name : String) (payload : Jsonb) (key requestedBy : String)
  | completeHumanWait (id : TaskId) (name : String) (result : Jsonb) (key completedBy : String)
  | purgeQueue (queue : String)
  | configure (policies : Policies)

inductive Reply
  | status (status : Status)
  | statuses (statuses : List (TaskId × Status))
  | done (ok : Bool)
  | checkpoint (status : CheckpointStatus) (stored : Option Checkpoint)
  | progress (status : ProgressStatus) (stored : Option Progress)
  | wait (status : WaitStatus) (stored : Option TaskWait)
  | delivery (status : DeliveryStatus) (payload : Option Jsonb)
  | claimed (tasks : List ClaimedTask)
  | completed (accepted : List TaskId) (tasks : List ClaimedTask)
  | enqueued (tasks : List (TaskId × Bool))
  | count (n : Nat)
  | runNow (status : RunNowStatus)
  | canceled (reply : CancelReply)
  | sent (status : SendStatus) (delivery : Option Delivery)
  | configured

def exec : Call → Tx Reply
  | .heartbeat id worker fence leaseMs => .status <$> heartbeat id worker fence leaseMs
  | .heartbeatMany worker beats => .statuses <$> heartbeatMany worker beats
  | .heartbeatV2 id worker fence leaseMs => .status <$> heartbeatV2 id worker fence leaseMs
  | .heartbeatManyV2 worker beats => .statuses <$> heartbeatManyV2 worker beats
  | .complete id worker fence result => .done <$> complete id worker fence result
  | .fail id worker fence error retryDelayMs => .status <$> fail id worker fence error retryDelayMs
  | .releaseOwned id worker fence => .status <$> releaseOwned id worker fence
  | .acknowledgeCancel id worker fence => .done <$> acknowledgeCancel id worker fence
  | .expireOwned id worker fence => .status <$> expireOwned id worker fence
  | .saveCheckpoint id worker fence name value inputFingerprint =>
    (fun r => .checkpoint r.1 r.2) <$> saveCheckpoint id worker fence name value inputFingerprint
  | .updateProgress id worker fence value =>
    (fun r => .progress r.1 r.2) <$> updateProgress id worker fence value
  | .scheduleWait id worker fence name durationMs wakeAt =>
    (fun r => .wait r.1 r.2) <$> scheduleWait id worker fence name durationMs wakeAt
  | .waitForSignal id worker fence name timeoutMs =>
    (fun r => .delivery r.1 r.2) <$> waitForSignal id worker fence name timeoutMs
  | .waitForHuman id worker fence name context timeoutMs =>
    (fun r => .delivery r.1 r.2) <$> waitForHuman id worker fence name context timeoutMs
  | .claim queue worker leaseMs => .claimed <$> claim queue worker leaseMs
  | .claimMany queue worker limit leaseMs => .claimed <$> claimMany queue worker limit leaseMs
  | .claimOne queue worker leaseMs mayWait => .claimed <$> claimOne queue worker leaseMs mayWait
  | .completeManyAndClaim worker entries queue limit leaseMs =>
    (fun r => .completed r.1 r.2) <$> completeManyAndClaim worker entries queue limit leaseMs
  | .enqueueBatch requests => .enqueued <$> enqueueBatch requests
  | .promote limit => .count <$> promote limit
  | .runTaskNow id requestedBy reason requestId =>
    .runNow <$> runTaskNow id requestedBy reason requestId
  | .recoverExpired limit retryDelayMs skipExpiredLeases =>
    .count <$> recoverExpired limit retryDelayMs skipExpiredLeases
  | .cancel id requestedBy reason => .canceled <$> cancel id requestedBy reason
  | .sendSignal id name payload key requestedBy =>
    (fun r => .sent r.1 r.2) <$> sendSignal id name payload key requestedBy
  | .completeHumanWait id name result key completedBy =>
    (fun r => .sent r.1 r.2) <$> completeHumanWait id name result key completedBy
  | .purgeQueue queue => .count <$> purgeQueue queue
  | .configure policies => (fun _ => .configured) <$> write fun db => db.configure policies

/-! ## Runs -/

structure Exchange where
  call : Call
  reply : Option Reply

/-- The session after a transaction that raised: only sequences and the clock have moved. -/
def Session.aborted (s : Session) (asked fences ready : Nat) : Session :=
  { s with
    asked := s.asked + asked
    db := { s.db with fenceSeq := s.db.fenceSeq + fences, readySeq := s.db.readySeq + ready } }

inductive Step : Session → Exchange → Session → Prop
  | commit {s s' : Session} {call : Call} {reply : Reply} (h : exec call s = .ok (reply, s')) :
      Step s ⟨call, some reply⟩ s'
  | abort {s : Session} {call : Call} {fault : Fault} (h : exec call s = .error fault)
      (asked fences ready : Nat) : Step s ⟨call, none⟩ (s.aborted asked fences ready)

inductive Run : Session → List Exchange → Session → Prop
  | nil (s : Session) : Run s [] s
  | snoc {s s' s'' : Session} {es : List Exchange} {e : Exchange} (h : Run s es s') (h' : Step s' e s'') :
      Run s (es ++ [e]) s''

def initial (host : Host) : Session := ⟨.empty, host, 0⟩

def runCalls (s : Session) : List Call → List Exchange × Session
  | [] => ([], s)
  | call :: calls =>
    match exec call s with
    | .ok (reply, s') => let r := runCalls s' calls; (⟨call, some reply⟩ :: r.1, r.2)
    | .error _ => let r := runCalls s calls; (⟨call, none⟩ :: r.1, r.2)

/-! ## What calls name and replies accept -/

def Call.generation : Call → Option (TaskId × String × Nat)
  | .complete id worker fence _ => some (id, worker, fence)
  | .fail id worker fence _ _ => some (id, worker, fence)
  | .releaseOwned id worker fence => some (id, worker, fence)
  | .acknowledgeCancel id worker fence => some (id, worker, fence)
  | .saveCheckpoint id worker fence _ _ _ => some (id, worker, fence)
  | .updateProgress id worker fence _ => some (id, worker, fence)
  | .scheduleWait id worker fence _ _ _ => some (id, worker, fence)
  | .waitForSignal id worker fence _ _ => some (id, worker, fence)
  | .waitForHuman id worker fence _ _ _ => some (id, worker, fence)
  | _ => none

def Call.beats : Call → Option (String × List Beat)
  | .heartbeat id worker fence leaseMs => some (worker, [⟨id, fence, leaseMs⟩])
  | .heartbeatMany worker beats => some (worker, beats)
  | .heartbeatV2 id worker fence leaseMs => some (worker, [⟨id, fence, leaseMs⟩])
  | .heartbeatManyV2 worker beats => some (worker, beats)
  | _ => none

namespace Exchange

def claims (e : Exchange) : List ClaimedTask :=
  match e.reply with
  | some (.claimed tasks) => tasks
  | some (.completed _ tasks) => tasks
  | _ => []

/-- The exchange closed the attempt of a task under a fence token: completed, failed or retried it,
released it, suspended it in a wait, or acknowledged its cancellation. A batched completion accepts
an identity that its entries name under one token. -/
def Accepts (e : Exchange) (id : TaskId) (fence : Nat) : Prop :=
  match e.call, e.reply with
  | .complete id' _ fence' _, some (.done ok) => ok = true ∧ id' = id ∧ fence' = fence
  | .fail id' _ fence' _ _, some (.status st) => st.closed = true ∧ id' = id ∧ fence' = fence
  | .releaseOwned id' _ fence', some (.status st) =>
    st.closed = true ∧ id' = id ∧ fence' = fence
  | .acknowledgeCancel id' _ fence', some (.done ok) => ok = true ∧ id' = id ∧ fence' = fence
  | .expireOwned id' _ fence', some (.status st) =>
    st.closed = true ∧ id' = id ∧ fence' = fence
  | .scheduleWait id' _ fence' _ _ _, some (.wait st _) => st = .scheduled ∧ id' = id ∧ fence' = fence
  | .waitForSignal id' _ fence' _ _, some (.delivery st _) =>
    st = .waiting ∧ id' = id ∧ fence' = fence
  | .waitForHuman id' _ fence' _ _ _, some (.delivery st _) =>
    st = .waiting ∧ id' = id ∧ fence' = fence
  | .completeManyAndClaim _ entries _ _ _, some (.completed accepted _) =>
    id ∈ accepted ∧ ∀ c ∈ entries, c.taskId = id → c.fenceToken = fence
  | _, _ => False

end Exchange

end Workhorse
