import Workhorse.Task.Lemmas.EnqueueMoves

/-!
# Replays of a keyed request

A batch checks the members of a request, its tier and its prerequisites before it looks its key up.
The lemmas say when each of these checks returns.
-/

namespace Workhorse

open Transaction

variable {s s₀ : Session} {r : Request}

/-! ## Checks that return -/

theorem normalizeRetryPolicy_cases (policy : Option RetryPolicy) : (∀ s x, normalizeRetryPolicy policy s ≠ .ok x) ∨
      ∀ s, normalizeRetryPolicy policy s = .ok (policy, s) := by
  by_cases h : ∃ s x, normalizeRetryPolicy policy s = .ok x
  · refine .inr fun s => ?_
    obtain ⟨t, x, hx⟩ := h
    unfold normalizeRetryPolicy at hx ⊢
    split at hx
    · rfl
    all_goals
      simp only [ensure_bind_ok] at hx ⊢
      simp_all only [true_and]
      rfl
  · exact .inl fun s x hx => h ⟨s, x, hx⟩

def Request.Plain (r : Request) : Prop :=
  r.concurrencyKey = none ∧ r.budget = none ∧ r.dependencies = none ∧ r.prerequisites = []

theorem rejectFastFeature_bind_ok {α : Type} {queue feature : String} {f : Unit → Tx α}
    {x : α × Session} : (rejectFastFeature queue feature >>= f) s = .ok x ↔ False := by
  obtain ⟨a, s'⟩ := x
  rw [iff_false, bind_eq_ok]
  rintro ⟨_, _, h, _⟩
  cases h

theorem ensureRequest_again {fast fast₀ : Bool} {x₀ x : Unit × Session}
    (h : ensureRequest fast₀ r s₀ = .ok x₀) :
    ensureRequest fast r s = .ok x ↔ (fast = true → r.Plain) ∧ x = ((), s) := by
  unfold ensureRequest at h ⊢
  simp only [ensure_bind_ok] at h ⊢
  obtain ⟨h₁, h₂, h₃, h₄, h₅, h₆, h₇, h₈, h₉, h⟩ := h
  simp only [h₁, h₂, h₃, h₄, h₅, h₆, h₇, h₈, h₉, true_and]
  rcases normalizeRetryPolicy_cases r.retryPolicy with hp | hp
  · obtain ⟨_, _⟩ := x₀
    obtain ⟨_, _, hp', _⟩ := bind_eq_ok.mp h
    exact absurd hp' (hp _ _)
  · have hbind {f : Option RetryPolicy → Tx Unit} {t : Session} :
        (normalizeRetryPolicy r.retryPolicy >>= f) t = f r.retryPolicy t := by
      change Except.bind (normalizeRetryPolicy r.retryPolicy t) (fun p => f p.1 p.2) = _
      rw [hp t]
      rfl
    rw [hbind] at h ⊢
    simp only [ensure_bind_ok] at h ⊢
    obtain ⟨h₁₀, h₁₁, h₁₂, h⟩ := h
    simp only [h₁₀, h₁₁, h₁₂, true_and]
    -- What is left is the tier, then that no prerequisite is named twice.
    have hnodup : decide r.prerequisites.Nodup = true := by
      split_ifs at h <;> simp only [rejectFastFeature_bind_ok, ensure_ok] at h <;> exact h.1
    cases fast with
    | false => simp [ensure_ok, hnodup]
    | true =>
      cases hk : r.concurrencyKey <;> cases hb : r.budget <;> cases hd : r.dependencies <;>
        by_cases hp : r.prerequisites = [] <;>
        simp_all [rejectFastFeature_bind_ok, ensure_ok, Request.Plain]

theorem ensureIdempotency_again {x₀ : Unit × Session} (h : ensureIdempotency r s₀ = .ok x₀) :
    ensureIdempotency r s = .ok ((), s) := by
  unfold ensureIdempotency at h ⊢
  cases hi : r.idempotency with
  | none => rfl
  | some i =>
    simp only [hi, ensure_bind_ok, ensure_ok] at h ⊢
    exact ⟨h.1, h.2.1, h.2.2.1, trivial⟩

/-! ## The parts of a batch of one request -/

/-- The batch that `openBatch` returns for one request. -/
def Batch.opened (db : Db) (now : Time) (queue : String) : Batch where
  now := now
  fastQueues := [queue].filter db.isFast
  locked := []
  keys := []
  full := []
  edges := []
  fast := []
  replies := []

theorem contains_fastQueues (db : Db) (now : Time) (queue : String) :
    (Batch.opened db now queue).fastQueues.contains queue = db.isFast queue := by
  cases h : db.isFast queue <;> simp [Batch.opened, h]

theorem openBatch_one (h : ensureIdempotency r s.ask = .ok ((), s.ask)) :
    openBatch [r] s = .ok (Batch.opened s.db s.now r.queue, s.ask) := by
  have hforM : [r].forM ensureIdempotency s.ask = .ok ((), s.ask) := by
    change (ensureIdempotency r >>= fun _ => pure ()) s.ask = _
    exact bind_eq_ok.mpr ⟨(), s.ask, h, rfl⟩
  unfold openBatch
  refine bind_eq_ok.mpr ⟨s.now, s.ask, rfl, ?_⟩
  rw [ensure_bind_ok]
  exact ⟨by simp, bind_eq_ok.mpr ⟨(), s.ask, hforM, rfl⟩⟩

def Db.Offers (db : Db) (r : Request) : Prop :=
  ∀ p ∈ r.prerequisites, db.tasks.contains p = true ∧ db.fastRuntime.contains p = false ∧
    db.fastOutcomes.contains p = false

theorem checkPrerequisites_ok {x : Unit × Session} : checkPrerequisites r s = .ok x ↔ s.db.Offers r ∧ x = ((), s) := by
  unfold checkPrerequisites
  obtain ⟨u, s'⟩ := x
  rw [bind_eq_ok]
  constructor
  · rintro ⟨_, _, hdb, h⟩
    cases hdb
    obtain ⟨hall, h⟩ := ensure_bind_ok.mp h
    cases hfind : r.prerequisites.find? fun id =>
        s.db.fastRuntime.contains id || s.db.fastOutcomes.contains id with
    | some id =>
      simp only [hfind] at h
      cases h
    | none =>
      simp only [hfind] at h
      cases h
      refine ⟨fun p hp => ⟨List.all_eq_true.mp hall p hp, ?_⟩, rfl⟩
      have := List.find?_eq_none.mp hfind p hp
      simpa using this
  · rintro ⟨hoffers, h⟩
    cases h
    refine ⟨s.db, s, rfl, ensure_bind_ok.mpr ⟨List.all_eq_true.mpr fun p hp => (hoffers p hp).1, ?_⟩⟩
    have hfind : r.prerequisites.find? (fun id =>
        s.db.fastRuntime.contains id || s.db.fastOutcomes.contains id) = none := by
      refine List.find?_eq_none.mpr fun p hp => ?_
      simp [(hoffers p hp).2.1, (hoffers p hp).2.2]
    simp only [hfind]
    rfl

theorem resolveIdentity_replay {b : Batch} {i : IdempotencyKey} {e : Idempotency}
    (hi : r.idempotency = some i) (hkeys : b.keys = []) (hrow : s.db.idempotency.get? i.identity = some e)
    (hfingerprint : e.fingerprint = r.fingerprint) (hlive : b.now < e.expiresAt) :
    resolveIdentity r b s = .ok ((e.taskId, false, b), s.ask) := by
  unfold resolveIdentity
  refine bind_eq_ok.mpr ⟨_, s.ask, rfl, ?_⟩
  simp only [hi]
  refine bind_eq_ok.mpr ⟨s.db, s.ask, rfl, ?_⟩
  simp only [hkeys, List.lookup_nil, hrow, Option.none_or]
  rw [if_neg (Int.not_le.mpr hlive), if_neg (not_not.mpr hfingerprint)]
  rfl

theorem insertBatch_empty {b : Batch} (hkeys : b.keys = []) (hfull : b.full = []) (hfast : b.fast = [])
    (hedges : b.edges = []) : insertBatch b s = .ok ((), s) := by
  unfold insertBatch insertFull insertFast
  simp only [Batch.ids, hkeys, hfull, hfast, hedges]
  rfl

end Workhorse
