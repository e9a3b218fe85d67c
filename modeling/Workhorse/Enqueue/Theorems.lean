import Workhorse.Enqueue.Lemmas.Replay
import Workhorse.Task.Theorems

/-!
# Results on enqueue
-/

namespace Workhorse

open Transaction

/-! ## Replay -/

/-- What a replay still needs of the database although its key is live: the tier of the queue supports
the request, and the prerequisites are full-tier tasks that exist. -/
def Db.Supports (db : Db) (r : Request) : Prop := (db.isFast r.queue = true → r.Plain) ∧ db.Offers r

section Replay

variable {s s₀ s₁ : Session} {requests : List Request} {replies : List (TaskId × Bool)} {r : Request}
  {i : IdempotencyKey} {e : Idempotency}

theorem enqueueBatch_checked (h : enqueueBatch requests s₀ = .ok (replies, s₁)) (hr : r ∈ requests) :
    (∃ fast t x, ensureRequest fast r t = .ok x) ∧ ∃ t x, ensureIdempotency r t = .ok x := by
  unfold enqueueBatch at h
  obtain ⟨b, t, hopen, h⟩ := bind_eq_ok.mp h
  obtain ⟨b', t', -, h⟩ := bind_eq_ok.mp h
  obtain ⟨b'', t'', hfold, -⟩ := bind_eq_ok.mp h
  constructor
  · obtain ⟨c, u, x, hx⟩ := foldlM_ok hfold hr
    obtain ⟨a, u'⟩ := x
    obtain ⟨_, _, hensure, -⟩ := bind_eq_ok.mp hx
    exact ⟨_, _, _, hensure⟩
  · unfold openBatch at hopen
    obtain ⟨_, _, -, hopen⟩ := bind_eq_ok.mp hopen
    obtain ⟨-, hopen⟩ := ensure_bind_ok.mp hopen
    obtain ⟨_, _, hforM, -⟩ := bind_eq_ok.mp hopen
    exact forM_ok hforM hr

theorem enqueueRequest_replay {b : Batch} (hi : r.idempotency = some i) (hkeys : b.keys = [])
    (hrow : s.db.idempotency.get? i.identity = some e) (hfingerprint : e.fingerprint = r.fingerprint)
    (hlive : b.now < e.expiresAt) (hoffers : s.db.Offers r)
    (hensure : ensureRequest (b.fastQueues.contains r.queue) r s = .ok ((), s)) :
    enqueueRequest b r s = .ok ({ b with
      locked := b.locked ++ r.prerequisites.filter fun id => s.db.runtime.contains id
      replies := b.replies ++ [(e.taskId, false)] }, s.ask) := by
  unfold enqueueRequest
  refine bind_eq_ok.mpr ⟨(), s, hensure, ?_⟩
  refine bind_eq_ok.mpr ⟨_, s, rfl, ?_⟩
  refine bind_eq_ok.mpr ⟨(), s, checkPrerequisites_ok.mpr ⟨hoffers, rfl⟩, ?_⟩
  refine bind_eq_ok.mpr ⟨_, s, rfl, bind_eq_ok.mpr ⟨_, s, rfl, ?_⟩⟩
  unfold bufferRequest
  exact bind_eq_ok.mpr ⟨_, s.ask, resolveIdentity_replay hi hkeys hrow hfingerprint hlive, rfl⟩

theorem enqueueBatch_replay_iff (haccepted : enqueueBatch requests s₀ = .ok (replies, s₁)) (hr : r ∈ requests)
    (hi : r.idempotency = some i) (hrow : s.db.idempotency.get? i.identity = some e)
    (hfingerprint : e.fingerprint = r.fingerprint) (hlive : s.now < e.expiresAt) :
    (∃ s', enqueueBatch [r] s = .ok ([(e.taskId, false)], s') ∧ s'.db = s.db) ↔ s.db.Supports r := by
  obtain ⟨⟨fast, t, x, hensure⟩, t', x', hkey⟩ := enqueueBatch_checked haccepted hr
  have hopen := openBatch_one (s := s) (ensureIdempotency_again hkey)
  have hfold (b : Batch) : [r].foldlM enqueueRequest b = enqueueRequest b r := by simp
  unfold enqueueBatch
  constructor
  · rintro ⟨s', h, -⟩
    obtain ⟨b, u, hb, h⟩ := bind_eq_ok.mp h
    rw [hopen] at hb
    cases hb
    obtain ⟨b', u', hlock, h⟩ := bind_eq_ok.mp h
    cases hlock
    obtain ⟨b'', u'', hrequest, -⟩ := bind_eq_ok.mp h
    rw [hfold] at hrequest
    unfold enqueueRequest at hrequest
    obtain ⟨_, _, htier, hrequest⟩ := bind_eq_ok.mp hrequest
    obtain ⟨hplain, hx⟩ := (ensureRequest_again hensure).mp htier
    cases hx
    obtain ⟨_, _, hlock, hrequest⟩ := bind_eq_ok.mp hrequest
    cases hlock
    obtain ⟨_, _, hoffers, -⟩ := bind_eq_ok.mp hrequest
    refine ⟨fun h => hplain ?_, (checkPrerequisites_ok.mp hoffers).1⟩
    exact (contains_fastQueues s.db s.now r.queue).trans h
  · rintro ⟨htier, hoffers⟩
    refine ⟨s.ask.ask, bind_eq_ok.mpr ⟨_, s.ask, hopen, bind_eq_ok.mpr ⟨_, s.ask, rfl, ?_⟩⟩, rfl⟩
    simp only [hfold]
    have htier' : (Batch.opened s.db s.now r.queue).fastQueues.contains r.queue = true → r.Plain :=
      fun h => htier ((contains_fastQueues s.db s.now r.queue).symm.trans h)
    refine bind_eq_ok.mpr ⟨_, s.ask.ask, enqueueRequest_replay hi rfl hrow hfingerprint hlive hoffers
      ((ensureRequest_again hensure).mpr ⟨htier', rfl⟩), bind_eq_ok.mpr ⟨_, s.ask.ask, rfl, ?_⟩⟩
    exact bind_eq_ok.mpr ⟨(), s.ask.ask, insertBatch_empty rfl rfl rfl rfl, rfl⟩

end Replay

/-! ## The rows of the keys along a run -/

/-- What transactions do to the rows of the keys, with the tasks that a purge deletes. -/
inductive KeyStep : Session → List TaskId → Session → Prop
  | enqueue {s s' : Session} {requests : List Request} {replies : List (TaskId × Bool)}
      (h : enqueueBatch requests s = .ok (replies, s')) : KeyStep s [] s'
  /-- `purge_queue_internal_v1` deletes the keys of the tasks that it deletes, expired or not. -/
  | purge {s s' : Session} (deleted : List TaskId)
      (hkeys : s'.db.idempotency = s.db.idempotency.filter fun _ e => !deleted.contains e.taskId)
      (hhost : s'.host = s.host) (hasked : s.asked ≤ s'.asked) : KeyStep s deleted s'
  /-- Retention deletes rows that are expired. A debounced call, and the release of a task before its time,
  change only rows of debounces. No other transaction writes a row. -/
  | other {s s' : Session} (hkeys : ∀ k e, s.db.idempotency.get? k = some e → e.debounce = false →
        s.now < e.expiresAt → s'.db.idempotency.get? k = some e)
      (hhost : s'.host = s.host) (hasked : s.asked ≤ s'.asked) : KeyStep s [] s'

inductive KeyRun : Session → List TaskId → Session → Prop
  | refl (s : Session) : KeyRun s [] s
  | tail {s s' s'' : Session} {deleted deleted' : List TaskId} (h : KeyRun s deleted s')
      (hs : KeyStep s' deleted' s'') : KeyRun s (deleted ++ deleted') s''

section KeyRun

variable {s s' : Session} {deleted : List TaskId} {k : String × String} {e : Idempotency}

theorem KeyStep.clock (h : KeyStep s deleted s') : s'.host = s.host ∧ s.asked ≤ s'.asked := by
  cases h with
  | enqueue h => exact (enqueueBatch_answers _ _ h).2
  | purge _ _ hhost hasked => exact ⟨hhost, hasked⟩
  | other _ hhost hasked => exact ⟨hhost, hasked⟩

theorem KeyStep.row (h : KeyStep s deleted s') (he : s.db.idempotency.get? k = some e) (hplain : e.debounce = false)
    (hlive : s.now < e.expiresAt) (hkept : e.taskId ∉ deleted) : s'.db.idempotency.get? k = some e := by
  cases h with
  | enqueue h =>
    obtain ⟨⟨keys, hanswered, hrows⟩, -⟩ := enqueueBatch_answers _ _ h
    rw [hrows k, (hanswered.live he hlive).1, Option.none_or, he]
  | purge _ hkeys =>
    rw [hkeys, Table.get?_filter, he]
    simpa using hkept
  | other hkeys => exact hkeys k e he hplain hlive

theorem KeyRun.host (h : KeyRun s deleted s') : s'.host = s.host := by
  induction h with
  | refl => rfl
  | tail _ hs ih => exact hs.clock.1.trans ih

theorem KeyRun.row (h : KeyRun s deleted s') (hclock : s.host.Monotone) (he : s.db.idempotency.get? k = some e)
    (hplain : e.debounce = false) (hlive : s'.now < e.expiresAt) (hkept : e.taskId ∉ deleted) :
    s'.db.idempotency.get? k = some e := by
  induction h with
  | refl => exact he
  | tail hrun hs ih =>
    rw [List.mem_append, not_or] at hkept
    -- The clock does not go back, so the row is live all along.
    have hbefore := lt_of_le_of_lt (Session.now_le_now (hrun.host ▸ hclock) hs.clock.1 hs.clock.2) hlive
    exact hs.row (ih hbefore hkept.1) hplain hbefore hkept.2

end KeyRun

/-- A request that created a task and is replayed while its key is live: unless a purge has deleted the task,
the replay returns it and changes no row exactly when the database still supports the request. Once the key
no longer names the task, no replay returns it. -/
theorem replay_iff {s₀ s₁ : Session} {requests : List Request} {replies : List (TaskId × Bool)} {r : Request}
    {i : IdempotencyKey} {id : TaskId} (hclock : s₀.host.Monotone)
    (haccepted : enqueueBatch requests s₀ = .ok (replies, s₁)) (hr : (r, (id, true)) ∈ requests.zip replies)
    (hi : r.idempotency = some i) :
    ∃ e, s₁.db.idempotency.get? i.identity = some e ∧ e.taskId = id ∧
      ∀ deleted s, KeyRun s₁ deleted s → s.now < e.expiresAt →
        (id ∉ deleted →
          ((∃ s', enqueueBatch [r] s = .ok ([(id, false)], s') ∧ s'.db = s.db) ↔ s.db.Supports r)) ∧
        ((∀ e', s.db.idempotency.get? i.identity = some e' → e'.taskId ≠ id) →
          ∀ s', enqueueBatch [r] s ≠ .ok ([(id, false)], s')) := by
  have hk : r.identity = some i.identity := by simp [Request.identity, hi]
  obtain ⟨⟨keys, hanswered, hrows⟩, hhost, -⟩ := enqueueBatch_answers _ _ haccepted
  obtain ⟨e, he, -, hholds⟩ := hanswered.named hr hk
  obtain ⟨rfl, hfingerprint, hplain⟩ := hholds
  refine ⟨e, (hrows _).trans he, rfl, fun deleted s hrun hlive => ⟨fun hkept => ?_, fun hgone s' h => ?_⟩⟩
  · have hrow := hrun.row (hhost ▸ hclock) ((hrows _).trans he) (hplain rfl) hlive hkept
    exact enqueueBatch_replay_iff haccepted (List.of_mem_zip hr).1 hi hrow hfingerprint hlive
  · obtain ⟨⟨keys', hanswered', -⟩, -⟩ := enqueueBatch_answers _ _ h
    obtain ⟨e', he', hid⟩ := hanswered'.replayed hk
    exact hgone e' he' hid

def keyedRequest : Request :=
  { plainRequest with concurrencyKey := some "tenant", idempotency := some ⟨"order", none, none⟩ }

/-- The request is accepted and its task completes; then the empty queue moves to the fast tier. -/
def tierChange : Tx (List (TaskId × Bool)) := do
  let replies ← enqueueBatch [keyedRequest]
  let _ ← claimMany "default" "a" 1 30000
  let _ ← complete 1 "a" 1 none
  let _ ← setQueueTier "default" .fast "operator" "throughput"
  pure replies

def afterTierChange : Option (List (TaskId × Bool) × Session) := (tierChange (initial steadyHost)).toOption

/-- The key still names the completed task for a day, but the replay raises. -/
theorem replay_raises : (afterTierChange.map fun p => (p.1, (p.2.db.idempotency.get? ("default", "order")).map
      fun e => (e.taskId, decide (p.2.now < e.expiresAt)), (enqueueBatch [keyedRequest] p.2).toOption.isSome)) =
    some ([(1, true)], some (1, true), false) := by
  decide +kernel

theorem any_toOption {ε α : Type} {x : Except ε α} {p : α → Bool} :
    x.toOption.any p = true ↔ ∃ a, x = .ok a ∧ p a = true := by
  cases x <;> simp [Except.toOption]

/-- After its acceptance and that of another request, the request is replayed. -/
theorem replay_iff_keyedRequest : ∃ s₁ s s' replies,
    enqueueBatch [keyedRequest] (initial steadyHost) = .ok ([(1, true)], s₁) ∧
    enqueueBatch [plainRequest] s₁ = .ok (replies, s) ∧
    enqueueBatch [keyedRequest] s = .ok ([(1, false)], s') ∧ s'.db = s.db := by
  have hlive : ((enqueueBatch [keyedRequest] (initial steadyHost)).toOption.any fun p => p.1 = [(1, true)] &&
      (enqueueBatch [plainRequest] p.2).toOption.any fun q => !q.2.db.isFast "default" &&
        (p.2.db.idempotency.get? ("default", "order")).any fun e => q.2.now < e.expiresAt) = true := by
    decide +kernel
  obtain ⟨⟨_, s₁⟩, haccepted, hlive⟩ := any_toOption.mp hlive
  rw [Bool.and_eq_true, decide_eq_true_eq] at hlive
  obtain ⟨rfl, hlive⟩ := hlive
  obtain ⟨⟨replies, s⟩, hother, hlive⟩ := any_toOption.mp hlive
  rw [Bool.and_eq_true, Bool.not_eq_true', Option.any_eq_true] at hlive
  obtain ⟨hfull, e', he', hnow⟩ := hlive
  have hsupports : s.db.Supports keyedRequest :=
    ⟨fun h => absurd (hfull.symm.trans h) Bool.false_ne_true, fun p hp => absurd hp List.not_mem_nil⟩
  obtain ⟨e, he, -, hreplay⟩ :=
    replay_iff (r := keyedRequest) (i := ⟨"order", none, none⟩) steadyHost_monotone haccepted
      List.mem_cons_self rfl
  cases he.symm.trans he'
  obtain ⟨s', hs'⟩ := ((hreplay _ s (.tail (.refl _) (.enqueue hother)) (of_decide_eq_true hnow)).1
    (by simp)).mpr hsupports
  exact ⟨s₁, s, s', replies, haccepted, hother, hs'⟩

/-! ## Keys under interleaving -/

/-- In every interleaving of enqueue batches, the accepted requests with a key name the task of the
key's row, and only the first request of a commit creates it, when the row is gone or expired; and
while a row is live, no run replaces it and every accepted request with its key repeats its task. -/
theorem one_task_per_key {host : Host} (hclock : host.Monotone) {reached : List Batches.Accepted}
    {σ : Batches}
    (hreached : Batches.Run (Batches.initial host) reached σ) :
    (∀ accepted σ', Batches.Step σ accepted σ' → accepted ≠ [] → (∀ id, σ'.session.db.tasks.contains id = true ↔
        σ.session.db.tasks.contains id = true ∨ ∃ r, (r, (id, true)) ∈ accepted) ∧
      ∀ k earlier p later, accepted = earlier ++ p :: later → p.1.identity = some k →
        (∃ e, σ'.row k = some e ∧ p.2.1 = e.taskId) ∧ (p.2.2 = true → (∀ q ∈ earlier, q.1.identity ≠ some k) ∧
          ∀ e, σ.row k = some e → e.expiresAt ≤ σ.session.now)) ∧
    ∀ trace σ' k e, Batches.Run σ trace σ' → σ.row k = some e → σ'.session.now < e.expiresAt → σ'.row k = some e ∧
        ∀ accepted ∈ trace, ∀ p ∈ accepted, p.1.identity = some k → p.2 = (e.taskId, false) := by
  have hσ := hreached.sound (Batches.initial_sound hclock)
  constructor
  · intro accepted σ' hs hne
    have hstep := hs.answers hσ
    refine ⟨hstep.tasks hne, fun k earlier p later hsplit hk => ?_⟩
    obtain ⟨now, hnow, keys, done, replies, rfl, hanswered, hrows⟩ := hstep.rows
    have hp : p ∈ done.zip replies := hsplit ▸ List.mem_append_right _ List.mem_cons_self
    constructor
    · obtain ⟨e, he, -, hholds⟩ := hanswered.named hp hk
      exact ⟨e, (hrows k).trans he, hholds.task⟩
    · intro hnew
      obtain ⟨hfirst, hexpired⟩ := hanswered.first hsplit hk hnew
      exact ⟨hfirst, fun e he => le_trans (hexpired e he) hnow⟩
  · exact fun trace σ' k e hrun he hlive => hrun.live hσ he hlive

def enqueueAlone (r : Request) : Tx (List (TaskId × Bool)) := do
  let b ← openBatch [r]
  let db ← database
  let b ← enqueueRequest (readTiers [r] db b) r
  let b' ← decideEdges b
  insertBatch b'
  pure b.replies

theorem enqueueAlone_run {σ : Batches} {r : Request} {k : String × String} {replies : List (TaskId × Bool)}
    {s : Session} (conn : Nat) (hidle : ∀ c, σ.running.get? c = none) (hk : lockOrder [r] = [k])
    (h : enqueueAlone r σ.session = .ok (replies, s)) :
    ∃ σ', Batches.Run σ [[], [], [], [r].zip replies] σ' ∧ σ'.session = s ∧ ∀ c, σ'.running.get? c = none := by
  obtain ⟨b, t, hopen, h⟩ := bind_eq_ok.mp h
  rw [database_bind] at h
  obtain ⟨b', t', hrequest, h⟩ := bind_eq_ok.mp h
  obtain ⟨b'', t'', hdecide, h⟩ := bind_eq_ok.mp h
  obtain ⟨_, _, hinsert, h⟩ := bind_eq_ok.mp h
  cases h
  have hself (running : Table Nat OpenBatch) (o : OpenBatch) : (running.put conn o).get? conn = some o := by
    simp
  have hstart := (Batches.Run.refl σ).tail (@Batches.Step.start _ conn [r] _ _ (hidle conn) hopen)
  rw [hk] at hstart
  have hlock := hstart.tail (@Batches.Step.lock _ conn _ k [] (hself _ _) rfl (by
    intro c o h hne
    rw [Table.get?_put, if_neg hne, hidle] at h
    cases h))
  have hdone := hlock.tail (@Batches.Step.request _ conn _ r [] _ _ (hself _ _) rfl rfl hrequest)
  have hcommit := hdone.tail (@Batches.Step.commit _ conn _ _ (hself _ _) rfl rfl
    (bind_eq_ok.mpr ⟨b'', t'', hdecide, hinsert⟩))
  refine ⟨_, hcommit, rfl, fun c => ?_⟩
  simp only [Table.get?_erase, Table.get?_put]
  split
  · rfl
  · exact hidle c

/-- Two connections enqueue a keyed request: the second gets the task of the first, which keeps the key for
the key's lifetime. -/
theorem one_task_per_key_enqueued : ∃ σ σ' e reply, Batches.Run (Batches.initial steadyHost)
      [[], [], [], [(keyedRequest, (1, true))]] σ ∧ σ.row ("default", "order") = some e ∧
    Batches.Run σ [[], [], [], [(keyedRequest, reply)]] σ' ∧ reply = (1, false) ∧
    σ'.row ("default", "order") = some e := by
  have hreplies : ((enqueueAlone keyedRequest (Batches.initial steadyHost).session).toOption.any fun p =>
      p.1 = [(1, true)] && (enqueueAlone keyedRequest p.2).toOption.any fun q => q.1.length = 1 &&
        (p.2.db.idempotency.get? ("default", "order")).any fun e => e.taskId = 1 ∧ q.2.now < e.expiresAt) = true := by
    decide +kernel
  obtain ⟨⟨_, s⟩, hfirst, hreplies⟩ := any_toOption.mp hreplies
  rw [Bool.and_eq_true, decide_eq_true_eq] at hreplies
  obtain ⟨rfl, hreplies⟩ := hreplies
  obtain ⟨⟨replies, s'⟩, hsecond, hreplies⟩ := any_toOption.mp hreplies
  simp only [Bool.and_eq_true, Option.any_eq_true, decide_eq_true_eq, List.length_eq_one_iff] at hreplies
  obtain ⟨⟨reply, rfl⟩, e, he, hid, hlive⟩ := hreplies
  have hk : lockOrder [keyedRequest] = [("default", "order")] := by decide
  obtain ⟨σ, hrun, rfl, hidle⟩ := enqueueAlone_run (σ := .initial steadyHost) 1 (fun _ => rfl) hk hfirst
  obtain ⟨σ', hrun', rfl, -⟩ := enqueueAlone_run 2 hidle hk hsecond
  obtain ⟨hrow, hrepeats⟩ := (one_task_per_key steadyHost_monotone hrun).2 _ σ' _ e hrun' he hlive
  have hreply := hrepeats [(keyedRequest, reply)] (by simp) (keyedRequest, reply) (by simp) rfl
  rw [hid] at hreply
  exact ⟨σ, σ', e, reply, hrun, he, hrun', hreply, hrow⟩

end Workhorse
