import Workhorse.Task.Lemmas.Runs

/-!
# Execution time

Every write leaves execution time to the attempt of a row whose task has a timeout. A release does as
long as the attempt does not time out between the reading of its guard and the reading that charges
the time since the claim.
-/

namespace Workhorse

open Transaction Relation

variable {c c' : Core} {s s' : Session} {call : Call}

def Core.Within (c : Core) : Prop := ∀ id r t timeoutMs, c.runtime.get? id = some r → c.tasks.get? id = some t →
    t.executionTimeoutMs = some timeoutMs → r.Within timeoutMs

theorem Core.Within.setRuntime (h : c.Within) {id : TaskId} {r r' : Runtime}
    (hr : c.runtime.get? id = some r) (hw : ∀ timeoutMs, r.Within timeoutMs → r'.Within timeoutMs) :
    (c.setRuntime id r').Within := by
  intro k q t timeoutMs hq ht hms
  rcases Table.get?_put_cases hq with ⟨rfl, rfl⟩ | ⟨-, hq⟩
  · exact hw timeoutMs (h k r t timeoutMs hr ht hms)
  · exact h k q t timeoutMs hq ht hms

theorem Quiet.within (h : Quiet c c') (hc : c.Within) : c'.Within := by
  cases h with
  | revise hr h => exact hc.setRuntime hr h.within
  | @claim id r hr hs worker now expires timeoutMs htimeout shard =>
    intro k q t ms hq ht hms
    rcases Table.get?_put_cases hq with ⟨rfl, rfl⟩ | ⟨-, hq⟩
    · have hms' := htimeout t ht
      rw [hms] at hms'
      subst hms'
      exact (hc k r t ms hr ht hms).claimed worker _ now expires shard
    · exact hc k q t ms hq ht hms
  | retry hr h => exact hc.setRuntime hr h.within
  | skip | bind | fastRevise | fastClaim | fastClose | fastRecord => exact hc

theorem Resolve.within (h : Resolve c c') (hc : c.Within) : c'.Within := by
  cases h with
  | release hr hs hv hs' hused hattempt => exact hc.setRuntime hr fun _ h => h.of_used hused hs'
  | @count id r hr hs pending rejected =>
    intro k q t ms hq ht hms
    simp only [Core.setCounters, Table.get?_modify] at hq
    split at hq
    · obtain ⟨q', hq', rfl⟩ := Option.map_eq_some_iff.mp hq
      have hw := hc k q' t ms hq' ht hms
      exact ⟨hw.left, hw.timeout⟩
    · exact hc k q t ms hq ht hms
  | @close id r hr o ho recorded =>
    intro k q t ms hq ht hms
    obtain ⟨-, hq⟩ := Table.get?_erase_eq_some hq
    exact hc k q t ms hq ht hms
  | fastClose | fastRecord | edges => exact hc

theorem Write.within (h : Write c c') (hc : c.Within) (hp : c.Sound) : c'.Within := by
  cases h with
  | quiet h => exact h.within hc
  | resolve h => exact h.within hc
  | @create id hid t r hr =>
    intro k q u ms hq hu hms
    simp only [Core.create, Table.get?_put] at hq hu
    split at hq
    · rename_i heq
      cases hq
      rw [if_pos heq] at hu
      cases hu
      have hused := hr.used
      rw [hms] at hused
      exact ⟨by simpa using hused, fun h => absurd h hr.idle⟩
    · rename_i hne
      rw [if_neg hne] at hu
      exact hc k q u ms hq hu hms
  | @fastCreate id hid t r hr hs =>
    intro k q u ms hq hu hms
    simp only [Core.createFast, Table.get?_put] at hq hu
    split at hu
    · -- A new task of the fast tier has no row in the full tier.
      rename_i heq
      subst heq
      have hnone := (Core.nowhere (hp.placed k) hid).1
      rw [Table.contains_of_get? hq] at hnone
      cases hnone
    · exact hc k q u ms hq hu hms
  | delete =>
    intro k q u ms hq hu hms
    simp only [Table.get?_filter, Option.filter_eq_some_iff] at hq hu
    exact hc k q u ms hq.1 hu.1 hms

theorem Writes.within (h : Writes c c') (hc : c.Within) (hp : c.Sound) : c'.Within := by
  induction h with
  | refl => exact hc
  | tail hcc h ih => exact h.within ih (hp.moves (Writes.moves hcc))

/-- The attempt of a row that a release gives back does not time out between the reading of the guard
and the reading that charges its time, the sixth and the ninth of the call. -/
def Call.InTime (s : Session) : Call → Prop
  | .releaseOwned id worker fence => ∀ r timeoutAt, s.db.runtime.get? id = some r →
      r.ownedBy worker fence = true → r.attemptTimeoutAt = some timeoutAt →
      s.host.clock (s.asked + 5) < timeoutAt → s.host.clock (s.asked + 8) < timeoutAt
  | _ => True

theorem Released.within {id : TaskId} {worker : String} {fence : Nat} {accepted : Prop}
    (h : Released s id worker fence accepted c') (hc : s.core.Within) (hp : s.core.Sound)
    (htime : (Call.releaseOwned id worker fence).InTime s) : c'.Within := by
  rcases h with h | ⟨r, r', hr, ho, -, hs', -, hguard, hused, rfl⟩
  · exact h.acts.writes.within hc hp
  · refine hc.setRuntime hr fun timeoutMs h => ⟨?_, fun h => by simp [hs'] at h⟩
    rw [hused]
    refine h.usedAt_lt (Runtime.ownedBy_iff.mp ho).1 fun t ht => htime r t hr ho ht ?_
    simpa [ht] using hguard

theorem exec_within (hc : s.core.Within) (hp : s.core.Sound) (htime : call.InTime s) :
    Ensures (exec call) s fun _ s' => s'.core.Within := by
  refine (exec_writes hp).mono fun _ s' h => ?_
  rcases h with h | ⟨id, worker, fence, accepted, rfl, h⟩
  · exact h.within hc hp
  · exact h.within hc hp htime

inductive Punctual (host : Host) : Session → Prop
  | initial : Punctual host (initial host)
  | step {s s' : Session} {e : Exchange} (h : Punctual host s) (htime : e.call.InTime s)
      (hs : Step s e s') : Punctual host s'

theorem Punctual.run {host : Host} (h : Punctual host s) : ∃ es, Run (Workhorse.initial host) es s := by
  induction h with
  | initial => exact ⟨[], .nil _⟩
  | step _ _ hs ih =>
    obtain ⟨es, hrun⟩ := ih
    exact ⟨_, hrun.snoc hs⟩

theorem Punctual.within {host : Host} (h : Punctual host s) : s.core.Within := by
  induction h with
  | initial => exact fun _ _ _ _ hr => nomatch hr
  | step h htime hs ih =>
    obtain ⟨es, hrun⟩ := h.run
    cases hs with
    | commit hx => exact exec_within ih hrun.sound htime _ _ hx
    | abort => exact ih

end Workhorse
