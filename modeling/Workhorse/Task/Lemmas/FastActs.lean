import Workhorse.Task.Lemmas.Closing

/-!
# Fast-tier calls
-/

namespace Workhorse

open Transaction Relation

variable {s : Session} {id : TaskId} {worker : String} {fence : Nat} {error : Option Envelope}
  {outcome : AttemptOutcome}

theorem fastOwned_some {r : FastRuntime}
    (h : (s.db.fastRuntime.get? id).filter (·.ownedBy worker fence) = some r) :
    s.db.fastRuntime.get? id = some r ∧ r.state = .active ∧ r.workerId = some worker ∧ r.fenceToken = fence := by
  obtain ⟨hr, ho⟩ := Option.filter_eq_some_iff.mp h
  exact ⟨hr, FastRuntime.ownedBy_iff.mp ho⟩

variable {r : FastRuntime}

theorem ensures_fastClose {state : OutcomeState} {result : Option Jsonb}
    {closedAs : Option ClosedAs} {Q : Unit → Session → Prop} :
    Ensures (fastClose id r state result error closedAs outcome) s Q ↔
      Q () (fastFinish id r state result error closedAs outcome s) :=
  ensures_ok rfl

variable {c : Core}

theorem fastTerminalizeDeadline_calls (hcore : s.core = c) (hr : c.fastRuntime.get? id = some r)
    (hs : r.state = .active) (hf : r.fenceToken = fence) :
    Calls c id fence ((fastTerminalizeDeadline id s).1 = true)
      (fastTerminalizeDeadline id s).2.core := by
  subst hcore
  rw [Session.fastRuntime_core] at hr
  simp only [fastTerminalizeDeadline, hr]
  split
  · exact .same (by simp)
  · split
    · exact .same (by simp)
    · split <;> simp only [core_fastFinish] <;> exact .fastClose hr hs hf

theorem fastTerminalizeDeadline_acts : Acts s.core (fastTerminalizeDeadline id s).2.core := by
  unfold fastTerminalizeDeadline
  split
  · exact .refl
  · rename_i r hr
    split
    · exact .refl
    · split
      · exact .refl
      · split <;> simp only [core_fastFinish] <;> exact .fastClose hr _ _ _

@[simp] theorem core_retryDelay {attempt : Nat} {policy : Option RetryPolicy} {previous : Option Nat}
    {override : Option Int} {omitted : OmittedSource} :
    (retryDelay id attempt policy previous override omitted s).2.core = s.core := by
  unfold retryDelay
  rcases override with _ | ms
  · rcases policy with _ | p
    · cases omitted <;> rfl
    · cases p <;> rfl
  · rfl

theorem fastRetry_calls (hcore : s.core = c) (hr : c.fastRuntime.get? id = some r)
    (hs : r.state = .active) (hf : r.fenceToken = fence) (hc : r.cancelRequestedAt = none) {delay : RetryDelay}
    {accepted : Status → Prop} : Ensures (fastRetry id r outcome error delay) s fun status s' =>
      Calls c id fence (accepted status) s'.core := by
  subst hcore
  unfold fastRetry
  simp only [ensures_bind, ensures_clockTimestamp, ensures_database, ensures_nextReadySequence,
    ensures_write, ensures_pure, Session.core_update]
  rw [Db.core_setFast]
  generalize (if 0 < delay.delayMs then Status.scheduled else Status.ready) = status
  by_cases hrecords : fastRecordsAttempts s.ask.db r.queueName = true
  · rw [if_pos hrecords, Db.core_addAttempt]
    refine .fastRetry hr hs hf (.ready hs hc ?_ ?_ ?_) ?_ _ <;> simp
  · rw [if_neg hrecords]
    refine .setFast hr hs hf (.ready hs hc ?_ ?_ ?_) ?_ <;> simp

theorem fastRetry_acts (hcore : s.core = c) (hr : c.fastRuntime.get? id = some r)
    (hs : r.state = .active) (hc : r.cancelRequestedAt = none) {delay : RetryDelay} :
    Ensures (fastRetry id r outcome error delay) s fun _ s' => Acts c s'.core := by
  have h : Ensures (fastRetry id r outcome error delay) s fun _ s' =>
      Calls c id r.fenceToken False s'.core := fastRetry_calls hcore hr hs rfl hc
  exact h.mono fun _ _ h => h.acts

theorem fastTimeoutOwned_calls (hcore : s.core = c) : Ensures (fastTimeoutOwned id worker fence) s
    fun ok s' => Calls c id fence (ok = true) s'.core := by
  subst hcore
  simp only [fastTimeoutOwned, fastOwned, ensures_bind, ensures_database, ensures_pure]
  split
  · exact ensures_pure.mpr (.same (by simp))
  · rename_i r h
    obtain ⟨hr, hs, -, hf⟩ := fastOwned_some h
    split
    · exact ensures_pure.mpr (.same (by simp))
    · simp only [ensures_ite, ensures_bind, ensures_clockTimestamp, ensures_pure, ensures_perform,
        ensures_fastClose, core_fastFinish]
      refine ⟨fun _ => .same (by simp), fun hc => ⟨fun _ => .same (by simp), fun _ =>
        ⟨fun _ => fastTerminalizeDeadline_calls rfl hr hs hf, fun _ => ⟨fun _ => ?_, fun _ => ?_⟩⟩⟩⟩
      · exact fastRetry_calls (by simp only [core_retryDelay, Session.core_ask]) hr hs hf
          (by simpa using hc)
      · exact .fastClose hr hs hf

theorem fastExpireOwned_calls (hcore : s.core = c) : Ensures (fastExpireOwned id worker fence) s
    fun status s' => Calls c id fence (status.closed = true) s'.core := by
  subst hcore
  simp only [fastExpireOwned, fastOwned, ensures_bind, ensures_database, ensures_pure]
  split
  · exact ensures_pure.mpr (.same (by simp [Status.closed]))
  · rename_i r h
    obtain ⟨hr, hs, -, hf⟩ := fastOwned_some h
    simp only [ensures_ite, ensures_bind, ensures_clockTimestamp, ensures_pure, ensures_perform]
    refine ⟨fun _ => .same (by simp [Status.closed]), fun _ => ⟨fun _ => ?_, fun _ => ⟨fun _ => ?_,
      fun _ => .same (by simp [Status.closed])⟩⟩⟩
    · have h := fastTerminalizeDeadline_calls (s := s.ask.ask) rfl hr hs hf
      exact ⟨fun ht => h.mono fun _ => ht, fun _ => h.mono (by simp [Status.closed])⟩
    · refine (fastTimeoutOwned_calls (s := s.ask.ask.ask) rfl).mono fun ok s' h => ?_
      exact ⟨fun ht => h.mono fun _ => ht, fun _ => h.mono (by simp [Status.closed])⟩

theorem fastFail_calls {retryDelayMs : Option Int} :
    Ensures (fastFail id worker fence error retryDelayMs) s fun status s' =>
      Calls s.core id fence (status.closed = true) s'.core := by
  simp only [fastFail, fastOwned, ensures_bind, ensures_database, ensures_pure]
  split
  · exact ensures_pure.mpr (.same (by simp [Status.closed]))
  · rename_i r h
    obtain ⟨hr, hs, -, hf⟩ := fastOwned_some h
    simp only [ensures_ite, ensures_bind, ensures_clockTimestamp, ensures_pure, ensures_perform,
      ensures_fastClose, core_fastFinish]
    refine ⟨fun _ => .same (by simp [Status.closed]), fun _ => ⟨fun _ => .same (by simp [Status.closed]),
      fun hc => ⟨fun _ => fastExpireOwned_calls rfl, fun _ => ⟨fun _ => ?_, fun _ => ?_⟩⟩⟩⟩
    · exact fastRetry_calls (by simp only [core_retryDelay, Session.core_ask]) hr hs hf
        (by simpa using hc)
    · exact .fastClose hr hs hf

theorem fastReleaseOwned_calls : Ensures (fastReleaseOwned id worker fence) s fun status s' =>
    Calls s.core id fence (status.closed = true) s'.core := by
  simp only [fastReleaseOwned, fastOwned, ensures_bind, ensures_database, ensures_pure]
  split
  · exact ensures_pure.mpr (.same (by simp [Status.closed]))
  · rename_i r h
    obtain ⟨hr, hs, -, hf⟩ := fastOwned_some h
    simp only [ensures_ite, ensures_bind, ensures_clockTimestamp, ensures_pure, ensures_write,
      ensures_nextReadySequence, Session.core_update, Db.core_setFast]
    refine ⟨fun _ => .same (by simp [Status.closed]), fun _ => ⟨fun _ => .same (by simp [Status.closed]),
      fun hc => ⟨fun _ => fastExpireOwned_calls rfl, fun _ => ?_⟩⟩⟩
    exact .setFast hr hs hf (.ready hs (by simpa using hc) rfl rfl rfl) (by simp)

theorem fastAcknowledgeCancel_calls : Ensures (fastAcknowledgeCancel id worker fence) s fun ok s' =>
    Calls s.core id fence (ok = true) s'.core := by
  simp only [fastAcknowledgeCancel, fastOwned, ensures_bind, ensures_database, ensures_pure]
  split
  · exact ensures_pure.mpr (.same (by simp))
  · rename_i r h
    obtain ⟨hr, hs, -, hf⟩ := fastOwned_some h
    rw [ensures_bind, ensures_clockTimestamp]
    split
    · exact ensures_pure.mpr (.same (by simp))
    · simp only [ensures_ite, ensures_bind, ensures_pure, ensures_fastClose, core_fastFinish]
      exact ⟨fun _ => .same (by simp), fun _ => .fastClose hr hs hf⟩

/-! ## Batches -/

theorem fastCompleteEntry_cases {now : Time} {acc : List TaskId} {e : Completion}
    (hv : ∀ r, s.db.fastRuntime.get? e.taskId = some r → r.shapeCheck = true) :
    Ensures (fastCompleteEntry worker now acc e) s fun acc' s' => (acc' = acc ∧ s'.core = s.core) ∨
      (acc' = acc ++ [e.taskId] ∧ s.core.Holds .fast e.taskId e.fenceToken ∧
        ∃ o n recorded, s'.core = (s.core.fastClose e.taskId o).note e.taskId n recorded) := by
  simp only [fastCompleteEntry, ensures_bind, ensures_database]
  split
  · exact ensures_pure.mpr (.inl ⟨rfl, rfl⟩)
  · rename_i r hr
    simp only [ensures_ite, ensures_bind, ensures_pure, ensures_fastClose]
    refine ⟨fun howned => .inr ⟨trivial, ⟨r, hr, ?_, howned.1⟩, _, _, _, core_fastFinish⟩,
      fun _ => .inl ⟨trivial, trivial⟩⟩
    obtain ⟨-, hw, -⟩ := howned
    have := hv r hr
    cases hs : r.state with
    | active => rfl
    | ready => simp [FastRuntime.shapeCheck, hs, hw] at this

theorem fastHeartbeatMany_acts {beats : List Beat} :
    Ensures (fastHeartbeatMany worker beats) s fun _ s' => Acts s.core s'.core := by
  simp only [fastHeartbeatMany, ensures_bind, ensures_clockTimestamp, ensures_pure]
  refine .foldlM (fun _ (t : Session) => Acts s.core t.core) (fun acc b _ t ht => ?_) .refl
  simp only [fastOwned, ensures_bind, ensures_database, ensures_pure]
  split
  · exact ensures_pure.mpr ht
  · rename_i r h
    obtain ⟨hr, hs, -, -⟩ := fastOwned_some h
    simp only [ensures_ite, ensures_bind, ensures_pure, ensures_write, Session.core_update]
    exact ⟨fun _ => ht, fun _ => ht.quiet (.fastRevise hr (.renewed hs _ _))⟩

theorem Moves.holds_of_seq {c c' : Core} (hc : c.Sound) (h : Moves c c')
    (hseq : c'.fenceSeq = c.fenceSeq) {tier : Tier} (hk : c'.Holds tier id fence) :
    c.Holds tier id fence := by
  rcases h.holds hk with hk' | hlt
  · exact hk'
  · have := (hc.moves h).drawn _ _ _ hk
    omega

/-- What a batched completion ensures: every accepted identity is a generation of the batch that was
active before and whose row is gone. -/
structure Completes (c : Core) (entries : List Completion) (accepted : List TaskId) (c' : Core) : Prop where
  acts : Acts c c'
  seq : c'.fenceSeq = c.fenceSeq
  nodup : accepted.Nodup
  held : ∀ id ∈ accepted, c'.fastRuntime.get? id = none ∧ ∃ e ∈ entries, e.taskId = id ∧ c.Holds .fast id e.fenceToken

theorem fastCompleteMany_completes {entries : List Completion} (hc : s.core.Sound) :
    Ensures (fastCompleteMany worker entries) s fun accepted s' =>
      Completes s.core entries accepted s'.core := by
  simp only [fastCompleteMany, ensures_bind, ensures_database]
  -- The oversized entries fail first, and their acts draw no token.
  refine (Ensures.forM (fun t : Session => Acts s.core t.core ∧ t.core.fenceSeq = s.core.fenceSeq)
    (fun e _ t ht => ?_) ⟨.refl, rfl⟩).mono fun _ t ht => ?_
  · simp only [ensures_bind, ensures_pure]
    refine fastFail_calls.mono fun _ t' h => ⟨ht.1.trans h.acts, h.seq.trans ht.2⟩
  · rw [ensures_clockTimestamp]
    refine .foldlM (fun acc (t : Session) => Completes s.core entries acc t.core)
      (fun acc e he t ht => ?_) ⟨ht.1, ht.2, List.nodup_nil, by simp⟩
    have hst := hc.moves ht.acts.moves
    refine (fastCompleteEntry_cases fun r hr => hst.fastValid _ r hr).mono fun acc' t' h => ?_
    rcases h with ⟨rfl, heq⟩ | ⟨rfl, hheld, o, n, recorded, heq⟩
    · rw [heq]
      exact ht
    · have hheld₀ := Moves.holds_of_seq hc ht.acts.moves ht.seq hheld
      obtain ⟨r, hr, -, -⟩ := hheld
      have hnew : e.taskId ∉ acc := by
        intro hmem
        rw [(ht.held _ hmem).1] at hr
        cases hr
      refine ⟨heq ▸ ht.acts.trans (Acts.fastClose hr o n recorded), heq ▸ ht.seq,
        List.nodup_append_comm.mp (List.nodup_cons.mpr ⟨hnew, ht.nodup⟩), fun id hid => ?_⟩
      rw [heq]
      simp only [Core.note, Core.fastClose, Table.get?_erase]
      rcases List.mem_append.mp hid with hid | hid
      · have hne : id ≠ e.taskId := fun h => hnew (h ▸ hid)
        rw [if_neg hne]
        exact ht.held id hid
      · cases List.mem_singleton.mp hid
        exact ⟨if_pos rfl, e, (List.mem_filter.mp he).1, rfl, hheld₀⟩

theorem fastComplete_calls {result : Option Jsonb} (hc : s.core.Sound) :
    Ensures (fastComplete id worker fence result) s fun ok s' =>
      Calls s.core id fence (ok = true) s'.core := by
  simp only [fastComplete, ensures_bind, ensures_database, ensures_ensure, ensures_pure]
  refine fun _ => (fastCompleteMany_completes hc).mono fun accepted s' h => ⟨h.acts, h.seq, fun hlen => ?_⟩
  obtain ⟨k, rfl⟩ := List.length_eq_one_iff.mp (beq_iff_eq.mp hlen)
  obtain ⟨hnone, e, he, rfl, hheld⟩ := h.held k (by simp)
  cases List.mem_singleton.mp he
  refine ⟨.fast, hheld, ?_⟩
  rintro ⟨r, hr, -⟩
  rw [hnone] at hr
  cases hr

end Workhorse
