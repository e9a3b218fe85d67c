import Workhorse.Task.Lemmas.Verdicts

/-!
# Batched completions

`fast_complete_many_v1` promises the verdicts of single completions. It keeps the promise when no task
of the batch is contested between entries that differ.
-/

namespace Workhorse

open Transaction

variable {worker : String} {now : Time} {entries : List Completion} {s : Session}

/-- While the clock stands still, a batch accepts what single calls in list order accept and leaves
the same outcomes, in whatever order the server takes its rows, just when every row that the worker
may still complete is uncontested. -/
theorem batched_completion_iff (hclock : ∀ i, s.host.clock i = now)
    (hvalid : ∀ id r, s.db.fastRuntime.get? id = some r → r.shapeCheck = true) :
    (∀ oversized rest, Joins s.db entries oversized rest → ∃ batch singles,
      fastCompleteJoined worker oversized rest s = .ok batch ∧
      completeOneByOne worker entries s = .ok singles ∧ SameVerdicts batch singles) ↔
    ∀ id r, s.db.fastRuntime.get? id = some r → r.workerId = some worker →
      r.lease.renewable now = true → r.Uncontested (entriesOf id entries) := by
  have hheld : s.db.HeldValid worker := fun id r hr _ => hvalid id r hr
  obtain ⟨singles, u, hsingles, hstanding⟩ := completeOneByOne_standing hclock hheld entries
  have hbatch (oversized rest : List Completion) : ∃ accepted t,
      fastCompleteJoined worker oversized rest s = .ok (accepted, t) ∧ ∀ k, t.standing worker accepted k =
        (s.standing worker [] k).batched now (entriesOf k oversized) (entriesOf k rest) := by
    obtain ⟨accepted, t, hrun, -, h⟩ := fastCompleteJoined_standing hclock hheld oversized rest
    exact ⟨accepted, t, hrun, h []⟩
  constructor
  · intro hsame id r hr hw hrenew c hfirst
    have hrow : (s.standing worker [] id).row = some r := standing_row hr hw
    by_contra hno
    obtain ⟨hfit, hdiffers⟩ := not_or.mp hno
    -- Single calls complete the row with the first entry under its token.
    have hagree (oversized rest : List Completion) (h : Joins s.db entries oversized rest) :
        ((s.standing worker [] id).batched now (entriesOf id oversized) (entriesOf id rest)).accepted =
          (s.standing worker [] id).accepted + 1 ∧
        ((s.standing worker [] id).batched now (entriesOf id oversized) (entriesOf id rest)).outcome =
          some (r.finished .succeeded (some (c.result.getD .null)) none none now) := by
      obtain ⟨_, _, hrun, hrun', hverdicts⟩ := hsame oversized rest h
      obtain ⟨accepted, t, hok, hbatched⟩ := hbatch oversized rest
      cases hok.symm.trans hrun
      cases hsingles.symm.trans hrun'
      have hid := (sameVerdicts_iff worker).mp hverdicts id
      rw [hbatched, hstanding, Standing.run_single hrow hrenew, hfirst] at hid
      simpa only [if_neg hfit, Standing.completed] using hid
    have hjoins := joins_insertionSort s.db entries
    have hrest := hjoins.entriesOf_rest hr
    by_cases hbig : ∃ c' ∈ entriesOf id entries, r.resultMaxBytes < resultSize c'.result
    · rw [if_pos hbig] at hrest
      have haccepted := (hagree _ _ hjoins).1
      rw [hrest.eq_nil, Standing.batched_nil_accepted hrow] at haccepted
      omega
    · have hfits : ∀ c' ∈ entriesOf id entries, ¬r.resultMaxBytes < resultSize c'.result :=
        fun c' hc' hlt => hbig ⟨c', hc', hlt⟩
      obtain ⟨c', hc', hf, hne⟩ : ∃ c' ∈ entriesOf id entries, r.fenceToken = c'.fenceToken ∧
          c'.result.getD .null ≠ c.result.getD .null := by
        by_contra hall
        refine hdiffers fun c' hc' => ⟨hfits c' hc', fun hf => ?_⟩
        by_contra hne
        exact hall ⟨c', hc', hf, hne⟩
      rw [if_neg hbig] at hrest
      -- The server may delete the row with the entry that differs.
      obtain ⟨rest', hfirst'⟩ := hjoins.exists_first (mem_entriesOf.mp (hrest.mem_iff.mpr hc')).1
      have hout := (hagree _ _ hfirst').2
      have hhead : entriesOf id (c' :: rest') = c' :: entriesOf id rest' :=
        List.filter_cons_of_pos (by simpa using (mem_entriesOf.mp hc').2)
      rw [Standing.batched_of_fitting (hfirst'.entriesOf_oversized hr) hfits,
        Standing.run_complete hrow hrenew, hhead, List.find?_cons_of_pos (by simpa using hf)] at hout
      have hresult := congrArg FastOutcome.result (Option.some.inj hout)
      exact hne (Option.some.inj hresult)
  · intro hcond oversized rest hjoins
    obtain ⟨accepted, t, hrun, hbatched⟩ := hbatch oversized rest
    refine ⟨_, _, hrun, hsingles, (sameVerdicts_iff worker).mpr fun k => ?_⟩
    have heq : t.standing worker accepted k = u.standing worker singles k := by
      rw [hbatched, hstanding]
      cases hrow : (s.standing worker [] k).row with
      | none =>
        rw [Standing.batched, Standing.run_of_none (fun _ _ => Standing.fail_of_none) hrow,
          Standing.run_of_none (fun _ _ => Standing.complete_of_none) hrow,
          Standing.run_of_none (fun _ _ => Standing.single_of_none) hrow]
      | some r =>
        obtain ⟨hr, hw⟩ := standing_row_iff.mp hrow
        exact Standing.batched_eq_single hrow (hjoins.entriesOf_oversized hr) (hjoins.entriesOf_rest hr)
          (hcond k r hr hw)
    exact ⟨congrArg Standing.accepted heq, congrArg Standing.outcome heq⟩

/-- A fast-tier row that worker `w` holds under token 5, with room for ten bytes of result. -/
def heldRow : FastRuntime where
  queueName := "q"
  taskType := "t"
  state := .active
  priority := 0
  runAt := 0
  sequence := 1
  resultMaxBytes := 10
  redact := false
  retryPolicy := none
  maxAttempts := 3
  attempt := 1
  fenceToken := 5
  workerId := some "w"
  claimedAt := some 50
  expiresAt := some 200
  deadlineAt := none
  executionTimeoutMs := none
  attemptTimeoutAt := none
  previousRetryDelayMs := none
  cancelRequestedAt := none
  cancelRequestedBy := none
  cancelReason := none
  errors := []
  errorsDropped := 0
  enqueuedAt := 0

def heldSession : Session where
  db := { Db.empty with fastRuntime := Table.empty.put 1 heldRow }
  host := { steadyHost with clock := fun _ => 100 }
  asked := 0

/-- A result of twelve bytes under the stale token 4, and then none under the current one. -/
def staleOversized : List Completion := [⟨1, 4, some ⟨"\"0123456789\""⟩⟩, ⟨1, 5, none⟩]

/-- An oversized entry of a stale generation keeps the batch from completing the current one, which
single calls complete: a batch of one each, or `fast_complete_v1`, which raises for the first. -/
theorem stale_entry_blocks_current : ∃ batch singles raised single,
    fastCompleteMany "w" staleOversized heldSession = .ok batch ∧ batch.1 = [] ∧
    batch.2.db.fastOutcomes.contains 1 = false ∧
    completeOneByOne "w" staleOversized heldSession = .ok singles ∧ singles.1 = [1] ∧
    singles.2.db.fastOutcomes.contains 1 = true ∧
    fastComplete 1 "w" 4 (some ⟨"\"0123456789\""⟩) heldSession = .error raised ∧
    fastComplete 1 "w" 5 none heldSession = .ok single ∧ single.1 = true :=
  ⟨_, _, _, _, rfl, rfl, rfl, rfl, rfl, rfl, rfl, rfl, rfl⟩

theorem heldSession_row {id : TaskId} {r : FastRuntime}
    (h : heldSession.db.fastRuntime.get? id = some r) : id = 1 ∧ r = heldRow := by
  change (Table.empty.put 1 heldRow).get? id = some r at h
  rw [Table.get?_put] at h
  split at h
  · rename_i hid
    exact ⟨hid, (Option.some.inj h).symm⟩
  · cases h

theorem batched_completion_iff_current : (∀ i, heldSession.host.clock i = 100) ∧ ∀ oversized rest,
    Joins heldSession.db [⟨1, 4, none⟩, ⟨1, 5, none⟩] oversized rest → ∃ batch singles,
      fastCompleteJoined "w" oversized rest heldSession = .ok batch ∧
      completeOneByOne "w" [⟨1, 4, none⟩, ⟨1, 5, none⟩] heldSession = .ok singles ∧ SameVerdicts batch singles := by
  have hclock : ∀ i, heldSession.host.clock i = 100 := fun _ => rfl
  refine ⟨hclock, (batched_completion_iff hclock fun id r hr => ?_).mpr fun id r hr _ _ c hfirst => ?_⟩
  · rw [(heldSession_row hr).2]
    rfl
  · obtain ⟨rfl, rfl⟩ := heldSession_row hr
    cases hfirst
    right
    decide

end Workhorse
