import Workhorse.Schema.Returns
import Workhorse.Task.Batch
import Workhorse.Task.Lemmas.FastActs

/-!
# What a batch decides of a task

A frozen clock separates the verdicts of a batch from the time that passes while it runs. Under it,
every entry acts on its own task only, and on that task as a function of its `Standing`. Once an entry
has completed or failed the attempt, the worker holds the row no longer, and the other entries of the
task do nothing.
-/

namespace Workhorse

open Transaction

variable {outcome : AttemptOutcome} {u : Session} {error : Option Envelope} {o : Option FastOutcome}

structure Standing where
  row : Option FastRuntime
  outcome : Option FastOutcome
  accepted : Nat

namespace FastRuntime

/-- A failure at `now` ends the attempt of the row. -/
def failable (r : FastRuntime) (now : Time) : Bool := r.cancelRequestedAt.isNone && !r.expiresAt.any (· ≤ now)

def due (r : FastRuntime) (now : Time) : Bool := r.deadlineAt.any (· ≤ now) || r.attemptTimeoutAt.any (· ≤ now)

/-- The outcome of a row whose result is oversized, if that was its last attempt or its deadline has
passed. -/
def oversizedOutcome (r : FastRuntime) (now : Time) : Option FastOutcome :=
  if r.due now then
    match r.deadlineAt.filter fun d => d ≤ now && r.attemptTimeoutAt.all fun t => now < t || d ≤ t with
    | some d => some (r.finished .failed none (some (.deadlineExceeded d)) (some .deadlineExceeded) now)
    | none =>
      if r.attempt < r.maxAttempts then none
      else some (r.finished .failed none
        (r.attemptTimeoutAt.map fun t => .executionTimeout r.executionTimeoutMs t) (some .timeout) now)
  else if r.attempt < r.maxAttempts then none
  else some (r.finished .failed none
    (redactErrorDetails (some (.taskValueSizeLimitError r.taskType)) r.redact) none now)

end FastRuntime

namespace Standing

variable (now : Time) (c : Completion) (x : Standing)

def fail : Standing :=
  match x.row with
  | none => x
  | some r =>
    if r.fenceToken = c.fenceToken ∧ r.failable now = true then
      { x with row := none, outcome := (r.oversizedOutcome now).or x.outcome }
    else x

def complete : Standing :=
  match x.row with
  | none => x
  | some r =>
    if r.fenceToken = c.fenceToken ∧ r.lease.renewable now = true then
      { row := none
        outcome := some (r.finished .succeeded (some (c.result.getD .null)) none none now)
        accepted := x.accepted + 1 }
    else x

def single : Standing :=
  match x.row with
  | none => x
  | some r => if r.resultMaxBytes < resultSize c.result then x.fail now c else x.complete now c

variable {now c x} {r : FastRuntime}

theorem fail_of_row (h : x.row = some r) : x.fail now c = if r.fenceToken = c.fenceToken ∧ r.failable now = true then
      { x with row := none, outcome := (r.oversizedOutcome now).or x.outcome }
    else x := by
  simp only [fail, h]

theorem complete_of_row (h : x.row = some r) : x.complete now c =
    if r.fenceToken = c.fenceToken ∧ r.lease.renewable now = true then
      { row := none
        outcome := some (r.finished .succeeded (some (c.result.getD .null)) none none now)
        accepted := x.accepted + 1 }
    else x := by
  simp only [complete, h]

theorem single_of_row (h : x.row = some r) : x.single now c =
    if r.resultMaxBytes < resultSize c.result then x.fail now c else x.complete now c := by
  simp only [single, h]

theorem fail_of_none (h : x.row = none) : x.fail now c = x := by
  simp only [fail, h]

theorem complete_of_none (h : x.row = none) : x.complete now c = x := by
  simp only [complete, h]

theorem single_of_none (h : x.row = none) : x.single now c = x := by
  simp only [single, h]

variable (x) in
def run (step : Completion → Standing → Standing) (entries : List Completion) : Standing :=
  entries.foldl (fun x c => step c x) x

end Standing

def Session.standing (worker : String) (s : Session) (accepted : List TaskId) (id : TaskId) : Standing where
  row := (s.db.fastRuntime.get? id).filter (·.workerId = some worker)
  outcome := s.db.fastOutcomes.get? id
  accepted := accepted.count id

/-- A session in the middle of a batch: its clock stands still, and what the worker holds it held from
the start. -/
structure Amid (worker : String) (now : Time) (db : Db) (s : Session) : Prop where
  clock : ∀ i, s.host.clock i = now
  held : ∀ id r, s.db.fastRuntime.get? id = some r → r.workerId = some worker → db.fastRuntime.get? id = some r

/-- The rows that the worker holds meet `fast_task_runtime_state_shape_check`. -/
def Db.HeldValid (worker : String) (db : Db) : Prop :=
  ∀ id r, db.fastRuntime.get? id = some r → r.workerId = some worker → r.shapeCheck = true

section Rules

variable {s : Session}

theorem returns_fastClose {id : TaskId} {r : FastRuntime} {state : OutcomeState}
    {result : Option Jsonb} {closedAs : Option ClosedAs} {Q : Unit → Session → Prop} :
    Returns (fastClose id r state result error closedAs outcome) s Q ↔
      Q () (fastFinish id r state result error closedAs outcome s) :=
  returns_ok rfl

end Rules

section Steps

variable {s t : Session} {worker : String} {now : Time} {db : Db} {id k : TaskId} {fence : Nat} {r : FastRuntime}
  {accepted : List TaskId}

theorem Amid.reads (h : Amid worker now db s) : s.now = now := h.clock _

theorem Amid.ask (h : Amid worker now db s) : Amid worker now db s.ask := ⟨h.clock, h.held⟩

structure LetsGo (worker : String) (id : TaskId) (o : Option FastOutcome) (s t : Session) : Prop where
  host : t.host = s.host
  row : ∀ r, t.db.fastRuntime.get? id = some r → r.workerId ≠ some worker
  outcome : t.db.fastOutcomes.get? id = o.or (s.db.fastOutcomes.get? id)
  others : ∀ k, k ≠ id → t.db.fastRuntime.get? k = s.db.fastRuntime.get? k ∧
    t.db.fastOutcomes.get? k = s.db.fastOutcomes.get? k

theorem LetsGo.earlier (h : LetsGo worker id o u t)
    (hdb : u.db = s.db) (hhost : u.host = s.host) : LetsGo worker id o s t :=
  ⟨h.host.trans hhost, h.row, hdb ▸ h.outcome, hdb ▸ h.others⟩

theorem fastFinish_letsGo (hu : Amid worker now db u) (hdb : u.db = s.db)
    (hhost : u.host = s.host) {state : OutcomeState} {result : Option Jsonb}
    {closedAs : Option ClosedAs} : LetsGo worker id (some (r.finished state result error closedAs now)) s
      (fastFinish id r state result error closedAs outcome u) := by
  have hcore := @core_fastFinish u id r state result error closedAs outcome
  have hrows := congrArg Core.fastRuntime hcore
  have houts := congrArg Core.fastOutcomes hcore
  simp only [Core.note, Core.fastClose, Session.fastRuntime_core, Session.fastOutcomes_core,
    hu.reads, hdb] at hrows houts
  refine ⟨hhost, fun r' hr' => ?_, ?_, fun k hk => ?_⟩
  · rw [hrows, Table.get?_erase, if_pos rfl] at hr'
    cases hr'
  · rw [houts, Table.get?_put, if_pos rfl]
    rfl
  · rw [hrows, houts, Table.get?_erase, Table.get?_put, if_neg hk, if_neg hk]
    exact ⟨rfl, rfl⟩

theorem LetsGo.amid (h : LetsGo worker id o s t) (hs : Amid worker now db s) : Amid worker now db t := by
  refine ⟨fun i => by rw [h.host]; exact hs.clock i, fun k r hr hw => ?_⟩
  by_cases hk : k = id
  · exact absurd hw (h.row r (hk ▸ hr))
  · exact hs.held k r ((h.others k hk).1 ▸ hr) hw

theorem retryDelay_host {attempt : Nat} {policy : Option RetryPolicy} {previous : Option Nat}
    {override : Option Int} {omitted : OmittedSource} :
    (retryDelay id attempt policy previous override omitted s).2.host = s.host :=
  congrArg Core.host core_retryDelay

theorem fastRetry_letsGo (worker : String) {delay : RetryDelay} :
    Returns (fastRetry id r outcome error delay) s fun _ => LetsGo worker id none s := by
  simp only [fastRetry, returns_bind, returns_clockTimestamp, returns_database,
    returns_nextReadySequence, returns_write, returns_pure]
  generalize fastRecordsAttempts s.ask.db r.queueName = records
  have hput : ∀ (db : Db) (r' : FastRuntime), db.fastRuntime = s.db.fastRuntime →
      db.fastOutcomes = s.db.fastOutcomes → r'.workerId = none →
      LetsGo worker id none s { s with db := db.setFast id r', asked := s.asked + 1 } := by
    intro db r' hrows houts hw
    refine ⟨rfl, fun q hq => ?_, by simp [Db.setFast, houts], fun k hk => ?_⟩
    · simp only [Db.setFast, Table.get?_put, if_pos, Option.some.injEq] at hq
      simp [← hq, hw]
    · simp [Db.setFast, Table.get?_put, hk, hrows, houts]
  cases records with
  | false => exact hput _ _ rfl rfl rfl
  | true => exact hput _ _ rfl rfl rfl

theorem ownedBy_of_held (h : r.shapeCheck = true) (hw : r.workerId = some worker) :
    r.ownedBy worker r.fenceToken = true := by
  refine FastRuntime.ownedBy_iff.mpr ⟨?_, hw, rfl⟩
  cases hstate : r.state with
  | active => rfl
  | ready => simp [FastRuntime.shapeCheck, hstate, hw] at h

theorem fastTerminalizeDeadline_letsGo (hu : Amid worker now db u) (hdb : u.db = s.db)
    (hhost : u.host = s.host) (hr : s.db.fastRuntime.get? id = some r)
    (hc : r.cancelRequestedAt = none) {d : Time} (hd : r.deadlineAt = some d) (hle : d ≤ now) :
    (fastTerminalizeDeadline id u).1 = true ∧
      LetsGo worker id (some (r.finished .failed none (some (.deadlineExceeded d))
        (some .deadlineExceeded) now)) s (fastTerminalizeDeadline id u).2 := by
  simp only [fastTerminalizeDeadline, hdb, hr, hd, hu.reads, hc, if_neg (not_lt.mpr hle), true_and]
  exact fastFinish_letsGo hu.ask hdb hhost

theorem fastTimeoutOwned_letsGo (hu : Amid worker now db u) (hdb : u.db = s.db)
    (hhost : u.host = s.host) (hr : s.db.fastRuntime.get? id = some r)
    (ho : r.ownedBy worker fence = true) (hc : r.cancelRequestedAt = none) {at_ : Time}
    (hat : r.attemptTimeoutAt = some at_) (hle : at_ ≤ now) (hlate : ∀ d, r.deadlineAt = some d → d ≤ now → at_ < d) :
    Returns (fastTimeoutOwned id worker fence) u fun ok t => ok = true ∧
      LetsGo worker id (if r.attempt < r.maxAttempts then none
        else some (r.finished .failed none (some (.executionTimeout r.executionTimeoutMs at_))
          (some .timeout) now)) s t := by
  have hdead : (r.deadlineAt.any fun d => decide (d ≤ at_) && decide (d ≤ now)) = false := by
    cases hd : r.deadlineAt with
    | none => rfl
    | some d =>
      by_cases hnow : d ≤ now
      · simp [not_le.mpr (hlate d hd hnow)]
      · simp [hnow]
  simp only [fastTimeoutOwned, fastOwned, returns_bind, returns_database, returns_pure, hdb, hr,
    Option.filter_some, ho, if_true, hat, hc, Option.isSome_none, Bool.false_eq_true, if_false,
    returns_clockTimestamp, hu.reads, if_neg (not_lt.mpr hle), hu.ask.reads, hdead]
  split
  · rename_i hlt
    simp only [returns_bind, returns_perform, returns_pure]
    refine Returns.mono (fastRetry_letsGo worker) fun _ t h => ⟨trivial, h.earlier ?_ ?_⟩
    · rw [retryDelay_db]
      exact hdb
    · rw [retryDelay_host]
      exact hhost
  · simp only [returns_bind, returns_fastClose, returns_pure, true_and]
    exact fastFinish_letsGo hu.ask.ask hdb hhost

theorem fastExpireOwned_letsGo (hu : Amid worker now db u) (hdb : u.db = s.db)
    (hhost : u.host = s.host) (hr : s.db.fastRuntime.get? id = some r)
    (ho : r.ownedBy worker fence = true) (hc : r.cancelRequestedAt = none) (hdue : r.due now = true) :
    Returns (fastExpireOwned id worker fence) u fun _ t =>
      LetsGo worker id (r.oversizedOutcome now) s t := by
  simp only [fastExpireOwned, fastOwned, returns_bind, returns_database, returns_pure, hdb, hr,
    Option.filter_some, ho, if_true, hc, Option.isSome_none, Bool.false_eq_true, if_false,
    returns_clockTimestamp, hu.reads, hu.ask.reads]
  by_cases hfirst : (r.deadlineAt.any fun d => decide (d ≤ now) &&
      r.attemptTimeoutAt.all fun t => decide (now < t) || decide (d ≤ t)) = true
  · rw [if_pos hfirst]
    obtain ⟨d, hd, hsel⟩ := (Option.any_eq_true _ _).mp hfirst
    have hle : d ≤ now := by simpa using (Bool.and_eq_true_iff.mp hsel).1
    obtain ⟨htrue, hgo⟩ := fastTerminalizeDeadline_letsGo (s := s) (r := r) hu.ask.ask hdb hhost hr hc hd hle
    simp only [returns_bind, returns_perform, htrue, if_true, returns_pure]
    simpa only [FastRuntime.oversizedOutcome, hdue, if_true, hd, Option.filter_some, hsel] using hgo
  · rw [if_neg hfirst]
    -- The timeout has passed, and before the deadline if that has passed too.
    obtain ⟨at_, hat, hle, hlate⟩ : ∃ at_, r.attemptTimeoutAt = some at_ ∧ at_ ≤ now ∧
        ∀ d, r.deadlineAt = some d → d ≤ now → at_ < d := by
      unfold FastRuntime.due at hdue
      cases hat : r.attemptTimeoutAt with
      | none => simp_all
      | some at_ =>
        refine ⟨at_, rfl, ?_, fun d hd hdn => ?_⟩
        · by_contra hlt
          simp_all
        · by_contra hlt
          simp_all
    have hnone : (r.deadlineAt.filter fun d => decide (d ≤ now) &&
        r.attemptTimeoutAt.all fun t => decide (now < t) || decide (d ≤ t)) = none := by
      rw [Option.filter_eq_none_iff]
      intro d hd hsel
      exact hfirst ((Option.any_eq_true _ _).mpr ⟨d, hd, hsel⟩)
    have hpast : r.attemptTimeoutAt.any (fun t => decide (t ≤ now)) = true := by simp [hat, hle]
    rw [returns_bind, returns_clockTimestamp, hu.ask.ask.reads, if_pos hpast, returns_bind]
    refine (fastTimeoutOwned_letsGo (s := s) hu.ask.ask.ask hdb hhost hr ho hc hat hle hlate).mono fun ok t h => ?_
    rw [h.1, if_pos rfl, returns_pure]
    rw [FastRuntime.oversizedOutcome, if_pos hdue, hnone]
    simp only [hat, Option.map_some]
    exact h.2

theorem fastFail_letsGo (hs : Amid worker now db s)
    (hvalid : db.HeldValid worker) {taskType : String}
    (htype : ∀ r, db.fastRuntime.get? id = some r → taskType = r.taskType) :
    Returns (fastFail id worker fence (some (.taskValueSizeLimitError taskType)) none) s fun _ t =>
      (∃ r, s.db.fastRuntime.get? id = some r ∧ r.workerId = some worker ∧ r.fenceToken = fence ∧
        r.failable now = true ∧ LetsGo worker id (r.oversizedOutcome now) s t) ∨
      (∀ r, s.db.fastRuntime.get? id = some r → r.workerId = some worker → r.fenceToken = fence →
        r.failable now = false) ∧ t.db = s.db ∧ t.host = s.host := by
  simp only [fastFail, fastOwned, returns_bind, returns_database, returns_pure]
  split
  · rename_i hnone
    rw [returns_pure]
    refine .inr ⟨fun r hr hw hf => ?_, rfl, rfl⟩
    have ho := ownedBy_of_held (hvalid id r (hs.held id r hr hw) hw) hw
    exact absurd (hf ▸ ho) (by simpa [hr] using hnone)
  · rename_i r h
    obtain ⟨hr, hactive, hw, hf⟩ := fastOwned_some h
    have ho : r.ownedBy worker fence = true := FastRuntime.ownedBy_iff.mpr ⟨hactive, hw, hf⟩
    have hidle (hno : r.failable now = false) : ∀ r', s.db.fastRuntime.get? id = some r' →
        r'.workerId = some worker → r'.fenceToken = fence → r'.failable now = false := by
      intro r' hr' _ _
      cases hr.symm.trans hr'
      exact hno
    simp only [returns_bind, returns_clockTimestamp, returns_ite, returns_pure, hs.reads, hs.ask.reads,
      hs.ask.ask.reads, returns_perform, returns_fastClose]
    refine ⟨fun hexp => .inr ⟨hidle (by simp [FastRuntime.failable, hexp]), rfl, rfl⟩, fun hexp =>
      ⟨fun hcancel => .inr ⟨hidle ?_, rfl, rfl⟩, fun hcancel => ?_⟩⟩
    · simp [FastRuntime.failable, Option.isNone_iff_eq_none, Option.isSome_iff_ne_none.mp hcancel]
    · have hc : r.cancelRequestedAt = none := by simpa using hcancel
      have hfail : r.failable now = true := by simpa [FastRuntime.failable, hc] using hexp
      change (r.due now = true → _) ∧ (¬r.due now = true → _)
      refine ⟨fun hdue => ?_, fun hdue => ⟨fun hleft => ?_, fun hlast => ?_⟩⟩
      · refine (fastExpireOwned_letsGo (s := s) hs.ask.ask.ask rfl rfl hr ho hc hdue).mono fun _ t h => ?_
        exact .inl ⟨r, hr, hw, hf, hfail, h⟩
      · have hout : r.oversizedOutcome now = none := by
          rw [FastRuntime.oversizedOutcome, if_neg hdue, if_pos hleft.1]
        refine (fastRetry_letsGo worker).mono fun _ t h => ?_
        refine .inl ⟨r, hr, hw, hf, hfail, hout ▸ h.earlier ?_ ?_⟩
        · rw [retryDelay_db]
          rfl
        · rw [retryDelay_host]
          rfl
      · have hout : r.oversizedOutcome now = some (r.finished .failed none
            (redactErrorDetails (some (.taskValueSizeLimitError taskType)) r.redact) none now) := by
          rw [FastRuntime.oversizedOutcome, if_neg hdue, if_neg (by simpa using hlast), htype r (hs.held id r hr hw)]
        refine .inl ⟨r, hr, hw, hf, hfail, ?_⟩
        rw [hout]
        exact fastFinish_letsGo (s := s) hs.ask.ask.ask rfl rfl

theorem LetsGo.standing (h : LetsGo worker id o s t) : t.standing worker accepted k = if k = id then
      { row := none, outcome := o.or (s.db.fastOutcomes.get? id), accepted := accepted.count id }
    else s.standing worker accepted k := by
  split
  · rename_i hk
    subst hk
    have hrow : (t.db.fastRuntime.get? k).filter (·.workerId = some worker) = none := by
      rw [Option.filter_eq_none_iff]
      exact fun r hr => by simpa using h.row r hr
    simp only [Session.standing, hrow, h.outcome]
  · rename_i hk
    simp only [Session.standing, h.others k hk]

theorem standing_row (hr : s.db.fastRuntime.get? id = some r) (hw : r.workerId = some worker) :
    (s.standing worker accepted id).row = some r := by
  simp [Session.standing, hr, hw]

theorem standing_row_iff : (s.standing worker accepted id).row = some r ↔
    s.db.fastRuntime.get? id = some r ∧ r.workerId = some worker := by
  simp [Session.standing, Option.filter_eq_some_iff]

theorem fastFail_standing (hs : Amid worker now db s) (hvalid : db.HeldValid worker) (c : Completion)
    {taskType : String} (htype : ∀ r, db.fastRuntime.get? c.taskId = some r → taskType = r.taskType) :
    Returns (fastFail c.taskId worker c.fenceToken (some (.taskValueSizeLimitError taskType)) none) s
      fun _ t => Amid worker now db t ∧ ∀ accepted k, t.standing worker accepted k =
        if k = c.taskId then (s.standing worker accepted k).fail now c
        else s.standing worker accepted k := by
  refine (fastFail_letsGo hs hvalid htype).mono fun _ t h => ?_
  rcases h with ⟨r, hr, hw, hf, hfail, hgo⟩ | ⟨hidle, hdb, hhost⟩
  · refine ⟨hgo.amid hs, fun accepted k => ?_⟩
    rw [hgo.standing]
    split
    · rename_i hk
      subst hk
      simp only [Standing.fail, standing_row hr hw, hf, hfail, and_self, if_true]
      rfl
    · rfl
  · have hsame accepted k : t.standing worker accepted k = s.standing worker accepted k := by
      simp only [Session.standing, hdb]
    refine ⟨⟨fun i => hhost ▸ hs.clock i, fun k r => hdb ▸ hs.held k r⟩, fun accepted k => ?_⟩
    rw [hsame]
    split
    · rename_i hk
      subst hk
      cases hrow : (s.standing worker accepted c.taskId).row with
      | none => simp only [Standing.fail, hrow]
      | some r =>
        obtain ⟨hr, hw⟩ := standing_row_iff.mp hrow
        rw [Standing.fail, hrow]
        refine (if_neg fun hboth => ?_).symm
        rw [hidle r hr hw hboth.1] at hboth
        cases hboth.2
    · rfl

theorem fastCompleteEntry_standing (hs : Amid worker now db s) (c : Completion) :
    Returns (fastCompleteEntry worker now accepted c) s fun accepted' t =>
      Amid worker now db t ∧ ∀ prior k, t.standing worker (prior ++ accepted') k =
        if k = c.taskId then (s.standing worker (prior ++ accepted) k).complete now c
        else s.standing worker (prior ++ accepted) k := by
  simp only [fastCompleteEntry, returns_bind, returns_database]
  split
  · rename_i hnone
    rw [returns_pure]
    refine ⟨hs, fun prior k => ?_⟩
    split
    · rename_i hk
      simp [Standing.complete, Session.standing, hk, hnone]
    · rfl
  · rename_i r hr
    rw [returns_ite]
    refine ⟨fun hyes => ?_, fun hno => ?_⟩
    · obtain ⟨hf, hw, hrenew⟩ := hyes
      have hgo : LetsGo worker c.taskId
          (some (r.finished .succeeded (some (c.result.getD .null)) none none now)) s
          (fastFinish c.taskId r .succeeded (some (c.result.getD .null)) none none .succeeded s) :=
        fastFinish_letsGo hs rfl rfl
      rw [returns_bind, returns_fastClose, returns_pure]
      refine ⟨hgo.amid hs, fun prior k => ?_⟩
      rw [hgo.standing]
      by_cases hk : k = c.taskId
      · subst hk
        rw [if_pos rfl, if_pos rfl, Standing.complete_of_row (standing_row hr hw), if_pos ⟨hf, hrenew⟩]
        simp [Session.standing, add_assoc]
      · simp [hk, Session.standing, List.count_append, Ne.symm hk]
    · rw [returns_pure]
      refine ⟨hs, fun prior k => ?_⟩
      split
      · rename_i hk
        subst hk
        cases hrow : (s.standing worker (prior ++ accepted) c.taskId).row with
        | none => simp only [Standing.complete, hrow]
        | some r' =>
          obtain ⟨hr', hw⟩ := standing_row_iff.mp hrow
          cases hr.symm.trans hr'
          rw [Standing.complete, hrow]
          exact (if_neg fun hboth => hno ⟨hboth.1, hw, hboth.2⟩).symm
      · rfl

theorem run_entriesOf_append {step : Completion → Standing → Standing} {done : List Completion}
    {c : Completion} {x : Standing} : x.run step (entriesOf k (done ++ [c])) =
      if k = c.taskId then step c (x.run step (entriesOf k done)) else x.run step (entriesOf k done) := by
  by_cases hk : k = c.taskId
  · simp [entriesOf, Standing.run, hk]
  · simp [entriesOf, Standing.run, hk, Ne.symm hk]

theorem fastCompleteJoined_standing (hclock : ∀ i, s.host.clock i = now)
    (hvalid : s.db.HeldValid worker) (oversized rest : List Completion) :
    Returns (fastCompleteJoined worker oversized rest) s fun accepted t =>
      Amid worker now s.db t ∧ ∀ prior k, t.standing worker (prior ++ accepted) k =
        ((s.standing worker prior k).run (.fail now) (entriesOf k oversized)).run (.complete now)
          (entriesOf k rest) := by
  have hs : Amid worker now s.db s := ⟨hclock, fun _ _ hr _ => hr⟩
  simp only [fastCompleteJoined, returns_bind, returns_database]
  refine (Returns.forM (fun done t => Amid worker now s.db t ∧ ∀ prior k, t.standing worker prior k =
    (s.standing worker prior k).run (.fail now) (entriesOf k done)) (fun done c _ t ht => ?_)
    [] ⟨hs, fun _ _ => rfl⟩).mono fun _ t ht => ?_
  · simp only [returns_bind, returns_pure]
    refine (fastFail_standing ht.1 hvalid c fun r hr => by rw [hr]; rfl).mono fun _ t' h => ?_
    refine ⟨h.1, fun prior k => ?_⟩
    rw [h.2, run_entriesOf_append, ht.2]
  · rw [returns_clockTimestamp, ht.1.reads]
    refine (Returns.foldlM (fun done accepted u => Amid worker now s.db u ∧ ∀ prior k,
      u.standing worker (prior ++ accepted) k = (t.standing worker prior k).run (.complete now)
        (entriesOf k done)) (fun done accepted c _ u hu => ?_) []
      ⟨ht.1.ask, fun prior k => by rw [List.append_nil]; rfl⟩).mono fun accepted u hu => ?_
    · refine (fastCompleteEntry_standing hu.1 c).mono fun accepted' u' h => ⟨h.1, fun prior k => ?_⟩
      rw [h.2, run_entriesOf_append, hu.2]
    · refine ⟨hu.1, fun prior k => ?_⟩
      rw [hu.2, ht.2]
      rfl

/-- A single call judges the size by the row that is there; only a row that the worker holds matters. -/
theorem fastCompleteMany_single (hclock : ∀ i, s.host.clock i = now)
    (hvalid : s.db.HeldValid worker) (c : Completion) :
    Returns (fastCompleteMany worker [c]) s fun accepted t =>
      Amid worker now s.db t ∧ ∀ prior k, t.standing worker (prior ++ accepted) k =
        if k = c.taskId then (s.standing worker prior k).single now c
        else s.standing worker prior k := by
  unfold Returns
  rw [fastCompleteMany_eq_joined]
  refine (fastCompleteJoined_standing hclock hvalid _ _).mono fun accepted t h => ⟨h.1, fun prior k => ?_⟩
  rw [h.2]
  have hjudged : (if c.oversized s.db = true then (s.standing worker prior c.taskId).fail now c
      else (s.standing worker prior c.taskId).complete now c) =
      (s.standing worker prior c.taskId).single now c := by
    cases hrow : (s.standing worker prior c.taskId).row with
    | none =>
      rw [Standing.fail_of_none hrow, Standing.complete_of_none hrow, Standing.single_of_none hrow, ite_self]
    | some r =>
      have hr := (standing_row_iff.mp hrow).1
      rw [Standing.single_of_row hrow]
      simp only [Completion.oversized, hr, Option.any_some, decide_eq_true_eq]
  by_cases hbig : c.oversized s.db = true
  · rw [if_pos hbig] at hjudged
    by_cases hk : c.taskId = k
    · subst hk
      simpa [entriesOf, Standing.run, hbig] using hjudged
    · simp [entriesOf, Standing.run, hbig, hk, Ne.symm hk]
  · rw [if_neg hbig] at hjudged
    by_cases hk : c.taskId = k
    · subst hk
      simpa [entriesOf, Standing.run, hbig] using hjudged
    · simp [entriesOf, Standing.run, hbig, hk, Ne.symm hk]

theorem completeOneByOne_standing (hclock : ∀ i, s.host.clock i = now)
    (hvalid : s.db.HeldValid worker) (entries : List Completion) :
    Returns (completeOneByOne worker entries) s fun accepted t => ∀ k, t.standing worker accepted k =
      (s.standing worker [] k).run (.single now) (entriesOf k entries) := by
  refine (Returns.foldlM (fun done accepted t => Amid worker now s.db t ∧ ∀ k,
    t.standing worker accepted k = (s.standing worker [] k).run (.single now) (entriesOf k done))
    (fun done accepted c _ t ht => ?_) [] ⟨⟨hclock, fun _ _ hr _ => hr⟩, fun _ => rfl⟩).mono
    fun accepted t h => h.2
  have htvalid : t.db.HeldValid worker := fun id r hr hw => hvalid id r (ht.1.held id r hr hw) hw
  rw [returns_bind]
  refine (fastCompleteMany_single ht.1.clock htvalid c).mono fun accepted' t' h => ?_
  rw [returns_pure]
  refine ⟨⟨h.1.clock, fun id r hr hw => ht.1.held id r (h.1.held id r hr hw) hw⟩, fun k => ?_⟩
  rw [h.2, run_entriesOf_append, ht.2]

end Steps

end Workhorse
