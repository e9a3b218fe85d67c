import Mathlib.Order.Bounds.Basic
import Workhorse.Schema.Returns
import Workhorse.Task.Heartbeat

/-!
# Batched renewals

`heartbeat_many_v2` makes three statements, and other transactions may commit between them. `BeatCall` holds what
each of them meets. An entry of the batch is compared with a heartbeat of its own at the reading of the batch.
-/

namespace Workhorse

variable {r : FastRuntime}

/-- A call of `heartbeat_many_v2`, with the committed rows that each of its statements sees. -/
structure BeatCall where
  worker : String
  beats : List Beat
  /-- At the statement that locks the rows of the fast tier. -/
  atFastLock : Db
  fastHeld : TaskId → Bool
  /-- At the statement that locks the rows of the full tier. -/
  atFullLock : Db
  fullHeld : TaskId → Bool
  /-- At the statement that renews. -/
  atRenewal : Db
  now : Time

namespace BeatCall

variable (c : BeatCall)

def ids : List TaskId := byId (c.beats.map (·.taskId)).dedup

/-- `v_fast_locked`. -/
def fastLocked : List TaskId :=
  c.ids.filter fun id => (c.atFastLock.fastRuntime.get? id).any (·.workerId == some c.worker) && !c.fastHeld id

/-- `v_full_locked`. -/
def fullLocked : List TaskId :=
  c.ids.filter fun id => (c.atFullLock.runtime.get? id).any (·.workerId == some c.worker) && !c.fullHeld id

def status (b : Beat) : Status := beatStatus c.atRenewal c.worker c.beats c.now c.fastLocked c.fullLocked b

def after : Db := c.fullLocked.foldl (fun db id => renewLocked c.worker c.beats c.now id db)
    (c.fastLocked.foldl (fun db id => fastRenewLocked c.worker c.beats c.now id db) c.atRenewal)

/-- Another transaction holds the fast-tier row of a task while the call runs. A transaction that changes a row holds
it until it commits. -/
def FastHeld (id : TaskId) : Prop :=
  c.fastHeld id = true ∨ c.atFastLock.fastRuntime.get? id ≠ c.atRenewal.fastRuntime.get? id

def FullHeld (id : TaskId) : Prop := c.fullHeld id = true ∨ c.atFullLock.runtime.get? id ≠ c.atRenewal.runtime.get? id

def Accepted : Prop := c.worker ≠ "" ∧ (1 ≤ c.beats.length ∧ c.beats.length ≤ 100) ∧
    ∀ b ∈ c.beats, 100 ≤ b.leaseMs ∧ b.leaseMs ≤ 86400000

end BeatCall

/-- The table constraints that the renewals rely on: an active row has an expiry, and a task has a row in one tier. -/
structure Db.Leased (db : Db) : Prop where
  fast : ∀ id r, db.fastRuntime.get? id = some r → r.state = .active → r.expiresAt.isSome
  full : ∀ id r, db.runtime.get? id = some r → r.state = .active → r.expiresAt.isSome
  one_tier : ∀ id, db.fastRuntime.get? id = none ∨ db.runtime.get? id = none

/-! ## Verdicts -/

namespace Lease

variable {l : Lease} {now : Time} {ms : Nat}

def verdict (l : Lease) (now : Time) : Status := if l.renewable now then .accepted else l.beat now

theorem beat_extended (h : l.renewable now = true) (hms : 0 < ms) :
    ({ l with expiresAt := some (now + milliseconds ms) } : Lease).beat now = .accepted := by
  have hahead : ¬now + milliseconds ms ≤ now :=
    Int.not_le.mpr (Int.lt_add_of_pos_right now (Int.mul_pos (Int.natCast_pos.mpr hms) (by decide)))
  simp only [renewable, Bool.and_eq_true, Option.isNone_iff_eq_none] at h
  obtain ⟨⟨⟨hcancel, hdeadline⟩, htimeout⟩, -⟩ := h
  have hdeadline' : l.deadlineAt.any (· ≤ now) = false := by
    cases hd : l.deadlineAt <;> simp_all
  have htimeout' : l.attemptTimeoutAt.any (· ≤ now) = false := by
    cases ht : l.attemptTimeoutAt <;> simp_all
  simp [beat, hcancel, hdeadline', htimeout', hahead]

theorem verdict_eq_accepted (hexpiry : l.expiresAt.isSome) : l.verdict now = .accepted ↔ l.renewable now = true := by
  constructor
  · intro h
    by_contra hnot
    simp only [verdict, hnot] at h
    obtain ⟨e, he⟩ := Option.isSome_iff_exists.mp hexpiry
    cases hc : l.cancelRequestedAt <;> cases hd : l.deadlineAt <;> cases ht : l.attemptTimeoutAt <;>
      simp_all [beat, renewable] <;> grind
  · intro h
    simp [verdict, h]

end Lease

theorem Runtime.beat_renewed {r : Runtime} {now : Time} {ms : Nat} (hms : 0 < ms) :
    (r.renewed now ms).lease.beat now = r.lease.verdict now := by
  unfold renewed Lease.verdict
  split
  · rename_i h
    exact Lease.beat_extended h hms
  · rfl

theorem FastRuntime.beat_renewed {now : Time} {ms : Nat} (hms : 0 < ms) :
    (r.renewed now ms).lease.beat now = r.lease.verdict now := by
  unfold renewed Lease.verdict
  split
  · rename_i h
    exact Lease.beat_extended h hms
  · rfl

/-! ## Durations -/

theorem longestLease_eq_some {beats : List Beat} {id : TaskId} {fence ms : Nat} :
    longestLease beats id fence = some ms ↔
      IsGreatest {n | ∃ b ∈ beats, b.taskId = id ∧ b.fenceToken = fence ∧ b.leaseMs = n} ms := by
  rw [longestLease, List.max?_eq_some_iff]
  simp [IsGreatest, upperBounds, and_assoc]

theorem longestLease_isSome {beats : List Beat} {b : Beat} (hb : b ∈ beats) :
    ∃ ms, longestLease beats b.taskId b.fenceToken = some ms := by
  refine Option.isSome_iff_exists.mp ?_
  rw [longestLease, List.isSome_max?_iff]
  intro hnil
  rw [List.map_eq_nil_iff, List.filter_eq_nil_iff] at hnil
  exact hnil b hb (by simp)

/-! ## The rows after a call -/

section Fold

variable {ν β : Type} {g : TaskId → Db → Db} {ids : List TaskId}

theorem foldl_get? {π : Db → Table TaskId ν} {f : TaskId → ν → ν}
    (hstep : ∀ id db k, (π (g id db)).get? k = if k = id then ((π db).get? k).map (f k) else (π db).get? k)
    (hnd : ids.Nodup) (db : Db) (k : TaskId) :
    (π (ids.foldl (fun db id => g id db) db)).get? k =
      if k ∈ ids then ((π db).get? k).map (f k) else (π db).get? k := by
  induction ids generalizing db with
  | nil => simp
  | cons id ids ih =>
    obtain ⟨hnot, hnd⟩ := List.nodup_cons.mp hnd
    rw [List.foldl_cons, ih hnd, hstep]
    by_cases hk : k = id
    · subst hk
      simp [hnot]
    · simp [hk]

theorem foldl_same {π : Db → β} (hstep : ∀ id db, π (g id db) = π db) (ids : List TaskId) (db : Db) :
    π (ids.foldl (fun db id => g id db) db) = π db := by
  induction ids generalizing db with
  | nil => rfl
  | cons id ids ih => rw [List.foldl_cons, ih, hstep]

end Fold

def FastRuntime.beaten (worker : String) (beats : List Beat) (now : Time) (id : TaskId) (r : FastRuntime) :
    FastRuntime :=
  match longestLease beats id r.fenceToken with
  | none => r
  | some ms => if r.ownedBy worker r.fenceToken then r.renewed now ms else r

def Runtime.beaten (worker : String) (beats : List Beat) (now : Time) (id : TaskId) (r : Runtime) : Runtime :=
  match longestLease beats id r.fenceToken with
  | none => r
  | some ms => if r.ownedBy worker r.fenceToken then r.renewed now ms else r

def Db.withoutLive (db : Db) : Db := { db with fastRuntime := .empty, runtime := .empty }

section Step

variable (worker : String) (beats : List Beat) (now : Time) (id : TaskId) (db : Db)

theorem fastRenewLocked_get? (k : TaskId) : (fastRenewLocked worker beats now id db).fastRuntime.get? k =
      if k = id then (db.fastRuntime.get? k).map (FastRuntime.beaten worker beats now k)
      else db.fastRuntime.get? k := by
  unfold fastRenewLocked
  by_cases hk : k = id
  · subst hk
    cases hr : db.fastRuntime.get? k with
    | none => simp [hr]
    | some r =>
      cases hms : longestLease beats k r.fenceToken with
      | none => simp [hr, FastRuntime.beaten, hms]
      | some ms => by_cases ho : r.ownedBy worker r.fenceToken <;> simp [hr, FastRuntime.beaten, hms, ho, Db.setFast]
  · rw [if_neg hk]
    split
    · rfl
    · split
      · rfl
      · split
        · simp [Db.setFast, hk]
        · rfl

theorem renewLocked_get? (k : TaskId) : (renewLocked worker beats now id db).runtime.get? k =
      if k = id then (db.runtime.get? k).map (Runtime.beaten worker beats now k) else db.runtime.get? k := by
  unfold renewLocked
  by_cases hk : k = id
  · subst hk
    cases hr : db.runtime.get? k with
    | none => simp [hr]
    | some r =>
      cases hms : longestLease beats k r.fenceToken with
      | none => simp [hr, Runtime.beaten, hms]
      | some ms => by_cases ho : r.ownedBy worker r.fenceToken <;> simp [hr, Runtime.beaten, hms, ho, Db.setRuntime]
  · rw [if_neg hk]
    split
    · rfl
    · split
      · rfl
      · split
        · simp [Db.setRuntime, hk]
        · rfl

theorem fastRenewLocked_rest : (fastRenewLocked worker beats now id db).runtime = db.runtime ∧
    (fastRenewLocked worker beats now id db).withoutLive = db.withoutLive := by
  unfold fastRenewLocked
  split
  · exact ⟨rfl, rfl⟩
  · split
    · exact ⟨rfl, rfl⟩
    · split <;> exact ⟨rfl, rfl⟩

theorem renewLocked_rest : (renewLocked worker beats now id db).fastRuntime = db.fastRuntime ∧
    (renewLocked worker beats now id db).withoutLive = db.withoutLive := by
  unfold renewLocked
  split
  · exact ⟨rfl, rfl⟩
  · split
    · exact ⟨rfl, rfl⟩
    · split <;> exact ⟨rfl, rfl⟩

end Step

namespace BeatCall

variable {c : BeatCall} {b : Beat}

theorem mem_ids (hb : b ∈ c.beats) : b.taskId ∈ c.ids := by
  simpa [ids, byId] using ⟨b, hb, rfl⟩

theorem nodup_ids (c : BeatCall) : c.ids.Nodup := (List.perm_insertionSort _ _).nodup_iff.mpr (List.nodup_dedup _)

theorem nodup_fastLocked (c : BeatCall) : c.fastLocked.Nodup := c.nodup_ids.filter _

theorem nodup_fullLocked (c : BeatCall) : c.fullLocked.Nodup := c.nodup_ids.filter _

theorem after_fast (c : BeatCall) (id : TaskId) : c.after.fastRuntime.get? id = if id ∈ c.fastLocked then
        (c.atRenewal.fastRuntime.get? id).map (FastRuntime.beaten c.worker c.beats c.now id)
      else c.atRenewal.fastRuntime.get? id := by
  rw [after, foldl_same (π := Db.fastRuntime) fun id db => (renewLocked_rest c.worker c.beats c.now id db).1]
  exact foldl_get? (fastRenewLocked_get? c.worker c.beats c.now) c.nodup_fastLocked c.atRenewal id

theorem after_full (c : BeatCall) (id : TaskId) : c.after.runtime.get? id =
      if id ∈ c.fullLocked then (c.atRenewal.runtime.get? id).map (Runtime.beaten c.worker c.beats c.now id)
      else c.atRenewal.runtime.get? id := by
  have hfast := foldl_same (π := Db.runtime) (fun id db => (fastRenewLocked_rest c.worker c.beats c.now id db).1)
    c.fastLocked c.atRenewal
  have hfull := foldl_get? (renewLocked_get? c.worker c.beats c.now) c.nodup_fullLocked
    (c.fastLocked.foldl (fun db id => fastRenewLocked c.worker c.beats c.now id db) c.atRenewal) id
  rw [hfast] at hfull
  exact hfull

theorem after_withoutLive (c : BeatCall) : c.after.withoutLive = c.atRenewal.withoutLive := by
  rw [after, foldl_same (π := Db.withoutLive) fun id db => (renewLocked_rest c.worker c.beats c.now id db).2,
    foldl_same (π := Db.withoutLive) fun id db => (fastRenewLocked_rest c.worker c.beats c.now id db).2]

/-! ## The status of an entry -/

def FastOwned (c : BeatCall) (b : Beat) (r : FastRuntime) : Prop :=
  c.atRenewal.fastRuntime.get? b.taskId = some r ∧ r.ownedBy c.worker b.fenceToken = true

def FullOwned (c : BeatCall) (b : Beat) (r : Runtime) : Prop :=
  c.atRenewal.runtime.get? b.taskId = some r ∧ r.ownedBy c.worker b.fenceToken = true

theorem fastLocked_of_owned (hb : b ∈ c.beats) (h : c.FastOwned b r) (hfree : ¬c.FastHeld b.taskId) :
    b.taskId ∈ c.fastLocked := by
  simp only [FastHeld, not_or, ne_eq, not_not, Bool.not_eq_true] at hfree
  obtain ⟨hheld, hsame⟩ := hfree
  obtain ⟨hrow, howned⟩ := h
  simp only [FastRuntime.ownedBy, Bool.and_eq_true] at howned
  simp [fastLocked, mem_ids hb, hsame, hrow, hheld, howned.1.2]

theorem fullLocked_of_owned (hb : b ∈ c.beats) {r : Runtime} (h : c.FullOwned b r) (hfree : ¬c.FullHeld b.taskId) :
    b.taskId ∈ c.fullLocked := by
  simp only [FullHeld, not_or, ne_eq, not_not, Bool.not_eq_true] at hfree
  obtain ⟨hheld, hsame⟩ := hfree
  obtain ⟨hrow, howned⟩ := h
  simp only [Runtime.ownedBy, Bool.and_eq_true] at howned
  simp [fullLocked, mem_ids hb, hsame, hrow, hheld, howned.1.2]

theorem status_cases (ha : c.Accepted) (hl : c.atRenewal.Leased) (hb : b ∈ c.beats) :
    (∃ r, c.FastOwned b r ∧ b.taskId ∈ c.fastLocked ∧ c.status b = r.lease.verdict c.now) ∨
    (∃ r, c.FullOwned b r ∧ b.taskId ∈ c.fullLocked ∧ c.status b = r.lease.verdict c.now) ∨
    ((∃ r, c.FastOwned b r) ∨ ∃ r, c.FullOwned b r) ∧ b.taskId ∉ c.fastLocked ∧ b.taskId ∉ c.fullLocked ∧
      c.status b = .busy ∨
    (∀ r, c.FastOwned b r → b.taskId ∉ c.fastLocked) ∧ (∀ r, c.FullOwned b r → b.taskId ∉ c.fullLocked) ∧
      c.status b = .stale := by
  obtain ⟨ms, hms⟩ := longestLease_isSome hb
  have hpos : 0 < ms := by
    obtain ⟨⟨b', hb', -, -, rfl⟩, -⟩ := longestLease_eq_some.mp hms
    exact Nat.lt_of_lt_of_le (by decide) (ha.2.2 b' hb').1
  have hfast (r : FastRuntime) : c.FastOwned b r ↔
      (c.atRenewal.fastRuntime.get? b.taskId).filter (·.ownedBy c.worker b.fenceToken) = some r := by
    simp [FastOwned, Option.filter_eq_some_iff]
  have hfull (r : Runtime) : c.FullOwned b r ↔
      (c.atRenewal.runtime.get? b.taskId).filter (·.ownedBy c.worker b.fenceToken) = some r := by
    simp [FullOwned, Option.filter_eq_some_iff]
  have hone (r : FastRuntime) (r' : Runtime) (h : c.FastOwned b r) (h' : c.FullOwned b r') : False := by
    rcases hl.one_tier b.taskId with hnone | hnone
    · rw [h.1] at hnone
      cases hnone
    · rw [h'.1] at hnone
      cases hnone
  simp only [hfast, hfull] at hone ⊢
  unfold status beatStatus
  rw [hms]
  cases hF : (c.atRenewal.fastRuntime.get? b.taskId).filter (·.ownedBy c.worker b.fenceToken) with
  | some r =>
    cases hG : (c.atRenewal.runtime.get? b.taskId).filter (·.ownedBy c.worker b.fenceToken) with
    | some r' => exact (hone r r' hF hG).elim
    | none =>
      by_cases hm : b.taskId ∈ c.fastLocked <;> by_cases hn : b.taskId ∈ c.fullLocked <;>
        simp [hm, hn, FastRuntime.beat_renewed hpos, Option.filter]
  | none =>
    cases hG : (c.atRenewal.runtime.get? b.taskId).filter (·.ownedBy c.worker b.fenceToken) with
    | some r' =>
      by_cases hm : b.taskId ∈ c.fastLocked <;> by_cases hn : b.taskId ∈ c.fullLocked <;>
        simp [hm, hn, Runtime.beat_renewed hpos, Option.filter]
    | none =>
      by_cases hm : b.taskId ∈ c.fastLocked <;> by_cases hn : b.taskId ∈ c.fullLocked <;> simp [hm, hn]

end BeatCall

/-- The status that `heartbeat_v1` returns for an entry at a reading of the clock. -/
def singleStatus (db : Db) (worker : String) (now : Time) (b : Beat) : Status :=
  match db.fastRuntime.get? b.taskId, db.runtime.get? b.taskId with
  | some r, _ => if r.ownedBy worker b.fenceToken then r.lease.verdict now else .stale
  | none, some r => if r.ownedBy worker b.fenceToken then r.lease.verdict now else .stale
  | none, none => .stale

open Transaction in
theorem heartbeat_status {worker : String} {b : Beat} {s : Session} (hworker : worker ≠ "")
    (hms : 100 ≤ b.leaseMs ∧ b.leaseMs ≤ 86400000) :
    Returns (heartbeat b.taskId worker b.fenceToken b.leaseMs) s fun status _ =>
      status = singleStatus s.db worker s.now b := by
  have hpos : 0 < b.leaseMs := by omega
  simp only [heartbeat, ensureWorker, ensureLease, returns_bind, returns_ensure, returns_database, returns_ite]
  refine ⟨by simpa using hworker, by simpa using hms, fun hfast => ?_, fun hfull => ?_⟩
  · obtain ⟨r, hr⟩ := Table.contains_iff.mp hfast
    simp only [fastHeartbeatMany, fastOwned, returns_bind, returns_clockTimestamp, List.foldlM_cons, List.foldlM_nil,
      returns_database, returns_pure, Session.ask_db, hr, singleStatus]
    by_cases ho : r.ownedBy worker b.fenceToken = true
    · simp only [Option.filter, ho, if_true, List.contains_nil, Bool.false_eq_true, if_false, returns_bind,
        returns_write, returns_pure, FastRuntime.beat_renewed hpos]
      rfl
    · simp [ho, Option.filter, returns_pure]
  · have hnone : s.db.fastRuntime.get? b.taskId = none := Table.not_contains_iff.mp (by simpa using hfull)
    simp only [owned, returns_bind, returns_clockTimestamp, returns_database, returns_pure, Session.ask_db,
      singleStatus, hnone]
    cases hr : s.db.runtime.get? b.taskId with
    | none => simp [returns_pure]
    | some r =>
      by_cases ho : r.ownedBy worker b.fenceToken = true
      · simp only [Option.filter, ho, if_true, returns_bind, returns_write, returns_pure, Runtime.beat_renewed hpos]
      · simp [ho, Option.filter, returns_pure]

namespace BeatCall

variable {c : BeatCall} {b : Beat} {id : TaskId}

def Names (c : BeatCall) (id : TaskId) (fence : Nat) (b : Beat) : Prop :=
  b ∈ c.beats ∧ b.taskId = id ∧ b.fenceToken = fence

theorem longest_isGreatest {fence ms : Nat} (h : longestLease c.beats id fence = some ms) :
    IsGreatest {n | ∃ b, c.Names id fence b ∧ b.leaseMs = n} ms := by
  have hgreatest := longestLease_eq_some.mp h
  simpa only [Names, and_assoc] using hgreatest

/-- Without other transactions, an entry has the status of a heartbeat of its own. -/
theorem status_eq_single (ha : c.Accepted) (hl : c.atRenewal.Leased) (hb : b ∈ c.beats)
    (hfast : ¬c.FastHeld b.taskId) (hfull : ¬c.FullHeld b.taskId) :
    c.status b = singleStatus c.atRenewal c.worker c.now b := by
  rcases status_cases ha hl hb with ⟨r, ⟨hr, ho⟩, -, hstatus⟩ | ⟨r, ⟨hr, ho⟩, -, hstatus⟩ |
    ⟨⟨r, ho⟩ | ⟨r, ho⟩, hm, hn, -⟩ | ⟨hm, hn, hstatus⟩
  · simp [hstatus, singleStatus, hr, ho]
  · have hnone : c.atRenewal.fastRuntime.get? b.taskId = none :=
      (hl.one_tier b.taskId).resolve_right fun h => by rw [hr] at h; cases h
    simp [hstatus, singleStatus, hnone, hr, ho]
  · exact absurd (fastLocked_of_owned hb ho hfast) hm
  · exact absurd (fullLocked_of_owned hb ho hfull) hn
  · rw [hstatus, singleStatus]
    cases hr : c.atRenewal.fastRuntime.get? b.taskId with
    | some r =>
      have ho : ¬r.ownedBy c.worker b.fenceToken = true := fun ho =>
        hm r ⟨hr, ho⟩ (fastLocked_of_owned hb ⟨hr, ho⟩ hfast)
      simp [ho]
    | none =>
      cases hr' : c.atRenewal.runtime.get? b.taskId with
      | some r =>
        have ho : ¬r.ownedBy c.worker b.fenceToken = true := fun ho =>
          hn r ⟨hr', ho⟩ (fullLocked_of_owned hb ⟨hr', ho⟩ hfull)
        simp [ho]
      | none => rfl

/-- The verdict on an entry that names the generation of a row. -/
theorem accepted_iff {status : Status} {l : Lease} {now : Time} {owned locked : Prop}
    (hexpiry : owned → l.expiresAt.isSome)
    (h : owned ∧ locked ∧ status = l.verdict now ∨ ¬(owned ∧ locked) ∧ (status = .busy ∨ status = .stale)) :
    status = .accepted ↔ owned ∧ locked ∧ l.renewable now = true := by
  rcases h with ⟨ho, hm, hstatus⟩ | ⟨hnot, hstatus⟩
  · rw [hstatus, Lease.verdict_eq_accepted (hexpiry ho)]
    simp [ho, hm]
  · have hne : status ≠ .accepted := by rcases hstatus with rfl | rfl <;> exact nofun
    exact ⟨fun h => absurd h hne, fun h => absurd ⟨h.1, h.2.1⟩ hnot⟩

theorem fast_accepted (ha : c.Accepted) (hl : c.atRenewal.Leased)
    (hr : c.atRenewal.fastRuntime.get? id = some r) (hb : c.Names id r.fenceToken b) :
    c.status b = .accepted ↔ r.ownedBy c.worker r.fenceToken = true ∧ id ∈ c.fastLocked ∧
      r.lease.renewable c.now = true := by
  obtain ⟨hb, rfl, hfence⟩ := hb
  rw [← hfence]
  refine accepted_iff (fun ho => hl.fast _ r hr ?_) ?_
  · simp only [FastRuntime.ownedBy, Bool.and_eq_true, beq_iff_eq] at ho
    exact ho.1.1
  · rcases status_cases ha hl hb with ⟨r', ⟨hr', ho⟩, hm, hstatus⟩ | ⟨r', ⟨hr', -⟩, -⟩ | ⟨-, hm, -, hstatus⟩ |
      ⟨hm, -, hstatus⟩
    · cases hr.symm.trans hr'
      exact .inl ⟨ho, hm, hstatus⟩
    · rcases hl.one_tier b.taskId with h | h
      · cases hr.symm.trans h
      · cases hr'.symm.trans h
    · exact .inr ⟨fun h => hm h.2, .inl hstatus⟩
    · exact .inr ⟨fun h => hm r ⟨hr, h.1⟩ h.2, .inr hstatus⟩

theorem full_accepted (ha : c.Accepted) (hl : c.atRenewal.Leased) {r : Runtime}
    (hr : c.atRenewal.runtime.get? id = some r) (hb : c.Names id r.fenceToken b) :
    c.status b = .accepted ↔ r.ownedBy c.worker r.fenceToken = true ∧ id ∈ c.fullLocked ∧
      r.lease.renewable c.now = true := by
  obtain ⟨hb, rfl, hfence⟩ := hb
  rw [← hfence]
  refine accepted_iff (fun ho => hl.full _ r hr ?_) ?_
  · simp only [Runtime.ownedBy, Bool.and_eq_true, beq_iff_eq] at ho
    exact ho.1.1
  · rcases status_cases ha hl hb with ⟨r', ⟨hr', -⟩, -⟩ | ⟨r', ⟨hr', ho⟩, hm, hstatus⟩ | ⟨-, -, hm, hstatus⟩ |
      ⟨-, hm, hstatus⟩
    · rcases hl.one_tier b.taskId with h | h
      · cases hr'.symm.trans h
      · cases hr.symm.trans h
    · cases hr.symm.trans hr'
      exact .inl ⟨ho, hm, hstatus⟩
    · exact .inr ⟨fun h => hm h.2, .inl hstatus⟩
    · exact .inr ⟨fun h => hm r ⟨hr, h.1⟩ h.2, .inr hstatus⟩

/-- A row after a call, in either tier: `renew` is what a renewal makes of it. -/
theorem renewal {ν : Type} {fence : Nat} {owned locked renewable : Prop} [Decidable (locked ∧ owned ∧ renewable)]
    {r : ν} {after : Option ν} {renew : Nat → ν}
    (haccepted : ∀ b, c.Names id fence b → (c.status b = .accepted ↔ owned ∧ locked ∧ renewable))
    (hafter : after = some (if locked ∧ owned ∧ renewable then (longestLease c.beats id fence).elim r renew else r)) :
    ((∃ b, c.Names id fence b ∧ c.status b = .accepted) →
      ∃ ms, IsGreatest {n | ∃ b, c.Names id fence b ∧ b.leaseMs = n} ms ∧ after = some (renew ms)) ∧
    ((¬∃ b, c.Names id fence b ∧ c.status b = .accepted) → after = some r) := by
  constructor
  · rintro ⟨b, hb, hstatus⟩
    obtain ⟨ho, hm, hrenewable⟩ := (haccepted b hb).mp hstatus
    obtain ⟨hmem, rfl, rfl⟩ := hb
    obtain ⟨ms, hms⟩ := longestLease_isSome hmem
    rw [if_pos ⟨hm, ho, hrenewable⟩, hms] at hafter
    exact ⟨ms, longest_isGreatest hms, hafter⟩
  · intro h
    cases hms : longestLease c.beats id fence with
    | none => rw [hafter, hms, Option.elim_none, ite_self]
    | some ms =>
      obtain ⟨⟨b, hb, -⟩, -⟩ := longest_isGreatest hms
      rw [hafter, if_neg fun hall => h ⟨b, hb, (haccepted b hb).mpr ⟨hall.2.1, hall.1, hall.2.2⟩⟩]

theorem fast_after (hr : c.atRenewal.fastRuntime.get? id = some r) : c.after.fastRuntime.get? id =
    some (if id ∈ c.fastLocked ∧ r.ownedBy c.worker r.fenceToken = true ∧ r.lease.renewable c.now = true then
      (longestLease c.beats id r.fenceToken).elim r fun ms => { r with expiresAt := some (c.now + milliseconds ms) }
      else r) := by
  rw [after_fast, hr, Option.map_some, FastRuntime.beaten]
  cases longestLease c.beats id r.fenceToken <;> by_cases hm : id ∈ c.fastLocked <;>
    by_cases ho : r.ownedBy c.worker r.fenceToken = true <;> simp [hm, ho, FastRuntime.renewed]

theorem full_after {r : Runtime} (hr : c.atRenewal.runtime.get? id = some r) : c.after.runtime.get? id =
    some (if id ∈ c.fullLocked ∧ r.ownedBy c.worker r.fenceToken = true ∧ r.lease.renewable c.now = true then
      (longestLease c.beats id r.fenceToken).elim r fun ms =>
        { r with heartbeatAt := some c.now, expiresAt := some (c.now + milliseconds ms) }
      else r) := by
  rw [after_full, hr, Option.map_some, Runtime.beaten]
  cases longestLease c.beats id r.fenceToken <;> by_cases hm : id ∈ c.fullLocked <;>
    by_cases ho : r.ownedBy c.worker r.fenceToken = true <;> simp [hm, ho, Runtime.renewed]

end BeatCall

/-! ## A call on its own -/

section Alone

open Transaction

variable {s : Session} {ids : List TaskId}

theorem lockRows_returns (hnd : ids.Nodup) (acc : List TaskId) : Returns (ids.foldlM (fun acc id => do
      if ← tryLock (.row id) then pure (acc ++ [id]) else pure acc) acc : Tx (List TaskId)) s fun locked t =>
        locked = acc ++ ids.filter (fun id => s.host.free (s.asked + ids.idxOf id) (.row id)) ∧
          t = { s with asked := s.asked + ids.length } := by
  induction ids generalizing s acc with
  | nil => simp [returns_pure]
  | cons id ids ih =>
    obtain ⟨hnot, hnd⟩ := List.nodup_cons.mp hnd
    have hrest : ids.filter (fun k => s.host.free (s.asked + (id :: ids).idxOf k) (.row k)) =
        ids.filter (fun k => s.ask.host.free (s.ask.asked + ids.idxOf k) (.row k)) := by
      refine List.filter_congr fun k hk => ?_
      have hne : id ≠ k := fun h => hnot (h ▸ hk)
      rw [List.idxOf_cons_ne _ hne, Session.ask_host, Nat.succ_eq_one_add, ← Nat.add_assoc]
      rfl
    have hasked : s.ask.asked + ids.length = s.asked + (id :: ids).length := by
      simp [Session.ask]
      omega
    rw [List.foldlM_cons, returns_bind, returns_bind, returns_tryLock, returns_ite, returns_pure, returns_pure,
      List.filter_cons, List.idxOf_cons_self, Nat.add_zero, hrest]
    refine ⟨fun hfree => (ih hnd (acc ++ [id])).mono fun locked t h => ?_, fun hheld =>
      (ih hnd acc).mono fun locked t h => ?_⟩
    · rw [h.1, h.2, if_pos hfree, hasked]
      exact ⟨by simp, rfl⟩
    · rw [h.1, h.2, if_neg hheld, hasked]
      exact ⟨rfl, rfl⟩

/-- The call that `heartbeat_many_v2` makes in a session of its own. -/
def Session.beatCall (s : Session) (worker : String) (beats : List Beat) : BeatCall :=
  let ids := byId (beats.map (·.taskId)).dedup
  let fast := ids.filter fun id => (s.db.fastRuntime.get? id).any (·.workerId == some worker)
  let full := ids.filter fun id => (s.db.runtime.get? id).any (·.workerId == some worker)
  { worker, beats
    atFastLock := s.db
    fastHeld := fun id => !s.host.free (s.asked + fast.idxOf id) (.row id)
    atFullLock := s.db
    fullHeld := fun id => !s.host.free (s.asked + fast.length + full.idxOf id) (.row id)
    atRenewal := s.db
    now := s.host.clock (s.asked + fast.length + full.length) }

/-- Alone, the call returns and writes what `beatCall` says. -/
theorem heartbeatManyV2_returns {worker : String} {beats : List Beat} (ha : (s.beatCall worker beats).Accepted) :
    Returns (heartbeatManyV2 worker beats) s fun statuses t =>
      statuses = beats.map (fun b => (b.taskId, (s.beatCall worker beats).status b)) ∧
        t.db = (s.beatCall worker beats).after := by
  obtain ⟨hworker, hlength, hms⟩ : worker ≠ "" ∧ (1 ≤ beats.length ∧ beats.length ≤ 100) ∧
    ∀ b ∈ beats, 100 ≤ b.leaseMs ∧ b.leaseMs ≤ 86400000 := ha
  have hnd (p : TaskId → Bool) : ((byId (beats.map (·.taskId)).dedup).filter p).Nodup :=
    (s.beatCall worker beats).nodup_ids.filter p
  simp only [heartbeatManyV2, ensureBeats, ensureWorker, returns_bind, returns_ensure, returns_database]
  refine ⟨by simpa using hworker, by simpa using hlength, by simpa using hms, ?_⟩
  refine (lockRows_returns (hnd _) []).mono fun fastLocked t₁ h₁ => ?_
  obtain ⟨hfast, rfl⟩ := h₁
  refine (lockRows_returns (hnd _) []).mono fun fullLocked t₂ h₂ => ?_
  obtain ⟨hfull, rfl⟩ := h₂
  simp only [returns_clockTimestamp, returns_write, returns_pure]
  have hfast' : fastLocked = (s.beatCall worker beats).fastLocked := by
    simpa [BeatCall.fastLocked, BeatCall.ids, Session.beatCall, List.filter_filter, Bool.and_comm] using hfast
  have hfull' : fullLocked = (s.beatCall worker beats).fullLocked := by
    simpa [BeatCall.fullLocked, BeatCall.ids, Session.beatCall, List.filter_filter, Bool.and_comm] using hfull
  rw [hfast', hfull']
  exact ⟨rfl, rfl⟩

end Alone

open Transaction BeatCall in
/-- **Batched heartbeats.** A batch gives each entry the status of a heartbeat of its own at the same reading, if no
other transaction holds a row that it names. It renews exactly the generations with an accepted entry, by the longest
duration that is named for them. An entry is busy only if another transaction holds the row of the generation, and
that is still active. -/
theorem batched_heartbeat (c : BeatCall) (ha : c.Accepted) (hl : c.atRenewal.Leased) :
    ((∀ b ∈ c.beats, ¬c.FastHeld b.taskId ∧ ¬c.FullHeld b.taskId) →
      ∀ s : Session, s.db = c.atRenewal → s.now = c.now → ∀ b ∈ c.beats,
        Returns (heartbeat b.taskId c.worker b.fenceToken b.leaseMs) s fun status _ => status = c.status b) ∧
    (∀ id r, c.atRenewal.fastRuntime.get? id = some r → ((∃ b, c.Names id r.fenceToken b ∧ c.status b = .accepted) →
        ∃ ms, IsGreatest {n | ∃ b, c.Names id r.fenceToken b ∧ b.leaseMs = n} ms ∧
          c.after.fastRuntime.get? id = some { r with expiresAt := some (c.now + milliseconds ms) }) ∧
      ((¬∃ b, c.Names id r.fenceToken b ∧ c.status b = .accepted) → c.after.fastRuntime.get? id = some r)) ∧
    (∀ id r, c.atRenewal.runtime.get? id = some r → ((∃ b, c.Names id r.fenceToken b ∧ c.status b = .accepted) →
        ∃ ms, IsGreatest {n | ∃ b, c.Names id r.fenceToken b ∧ b.leaseMs = n} ms ∧ c.after.runtime.get? id =
            some { r with heartbeatAt := some c.now, expiresAt := some (c.now + milliseconds ms) }) ∧
      ((¬∃ b, c.Names id r.fenceToken b ∧ c.status b = .accepted) → c.after.runtime.get? id = some r)) ∧
    (∀ id, c.atRenewal.fastRuntime.get? id = none → c.after.fastRuntime.get? id = none) ∧
    (∀ id, c.atRenewal.runtime.get? id = none → c.after.runtime.get? id = none) ∧
    c.after.withoutLive = c.atRenewal.withoutLive ∧ ∀ b ∈ c.beats, c.status b = .busy →
      (∃ r, c.FastOwned b r ∧ c.FastHeld b.taskId) ∨ ∃ r, c.FullOwned b r ∧ c.FullHeld b.taskId := by
  refine ⟨?_, fun id r hr => renewal (fun b hb => fast_accepted ha hl hr hb) (fast_after hr),
    fun id r hr => renewal (fun b hb => full_accepted ha hl hr hb) (full_after hr), ?_, ?_, c.after_withoutLive, ?_⟩
  · intro hfree s hdb hnow b hb
    obtain ⟨hfast, hfull⟩ := hfree b hb
    refine (heartbeat_status ha.1 (ha.2.2 b hb)).mono fun status _ hstatus => ?_
    rw [hstatus, hdb, hnow, status_eq_single ha hl hb hfast hfull]
  · intro id hnone
    simp [after_fast, hnone]
  · intro id hnone
    simp [after_full, hnone]
  · intro b hb hbusy
    have hverdict (l : Lease) : l.verdict c.now ≠ .busy := by
      unfold Lease.verdict Lease.beat
      split
      · decide
      · repeat' split
        all_goals decide
    rcases status_cases ha hl hb with ⟨r, -, -, hstatus⟩ | ⟨r, -, -, hstatus⟩ |
      ⟨⟨r, ho⟩ | ⟨r, ho⟩, hm, hn, -⟩ | ⟨-, -, hstatus⟩
    · exact absurd (hstatus.symm.trans hbusy) (hverdict _)
    · exact absurd (hstatus.symm.trans hbusy) (hverdict _)
    · exact Or.inl ⟨r, ho, by_contra fun hfree => hm (fastLocked_of_owned hb ho hfree)⟩
    · exact Or.inr ⟨r, ho, by_contra fun hfree => hn (fullLocked_of_owned hb ho hfree)⟩
    · rw [hstatus] at hbusy
      cases hbusy

def leasedRow : FastRuntime where
  queueName := "default"
  taskType := "send"
  state := .active
  priority := 0
  runAt := 0
  sequence := 1
  resultMaxBytes := 10
  redact := false
  retryPolicy := none
  maxAttempts := 3
  attempt := 1
  fenceToken := 5
  workerId := some "worker"
  claimedAt := some 50
  expiresAt := some 200
  deadlineAt := none
  executionTimeoutMs := none
  attemptTimeoutAt := none
  previousRetryDelayMs := none
  cancelRequestedAt := none
  cancelRequestedBy := none
  cancelReason := none
  errors := []
  errorsDropped := 0
  enqueuedAt := 0

/-- A batch that names one generation twice, an older one of the same task, and a task that is in no table. -/
def repeatedBeats : BeatCall where
  worker := "worker"
  beats := [⟨1, 5, 100⟩, ⟨1, 5, 200⟩, ⟨1, 4, 300⟩, ⟨2, 1, 100⟩]
  atFastLock := Db.empty.setFast 1 leasedRow
  fastHeld _ := false
  atFullLock := Db.empty.setFast 1 leasedRow
  fullHeld _ := false
  atRenewal := Db.empty.setFast 1 leasedRow
  now := 100

theorem repeatedBeats_leased : repeatedBeats.atRenewal.Leased where
  fast id r h _ := by
    obtain ⟨-, rfl⟩ : id = 1 ∧ leasedRow = r := by
      simpa [repeatedBeats, Db.setFast, Db.empty] using h
    rfl
  full id r h _ := by simp [repeatedBeats, Db.setFast, Db.empty] at h
  one_tier id := Or.inr rfl

theorem heartbeatManyV2_returns_repeated :
    Transaction.Returns (heartbeatManyV2 "worker" repeatedBeats.beats) ⟨repeatedBeats.atRenewal, steadyHost, 0⟩
      fun statuses _ => statuses.map Prod.snd = [.accepted, .accepted, .stale, .stale] :=
  (heartbeatManyV2_returns ⟨by decide, by decide, by decide⟩).mono fun _ _ h => by rw [h.1]; rfl

theorem batched_heartbeat_repeated : repeatedBeats.status ⟨1, 5, 100⟩ = .accepted ∧
      ∃ ms, IsGreatest {n | ∃ b, repeatedBeats.Names 1 5 b ∧ b.leaseMs = n} ms ∧
        repeatedBeats.after.fastRuntime.get? 1 =
          some { leasedRow with expiresAt := some (repeatedBeats.now + milliseconds ms) } := by
  have haccepted : repeatedBeats.status ⟨1, 5, 100⟩ = .accepted := by decide
  obtain ⟨-, hfast, -⟩ := batched_heartbeat repeatedBeats ⟨by decide, by decide, by decide⟩ repeatedBeats_leased
  exact ⟨haccepted, (hfast 1 leasedRow rfl).1 ⟨⟨1, 5, 100⟩, ⟨List.mem_cons_self, rfl, rfl⟩, haccepted⟩⟩

end Workhorse
