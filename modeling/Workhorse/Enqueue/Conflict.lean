import Workhorse.Enqueue.Theorems
import Workhorse.Enqueue.Written
import Workhorse.Lib.SortByKey

/-!
# Conflicts of a retained key

An enqueue whose key is live for another request is rejected with the members that differ. The report
goes over the members of the new fingerprint, so it misses a member that only the stored one has.
-/

namespace Workhorse

open Transaction

/-! ## What the report names -/

theorem RequestField.mem_all (m : RequestField) : m ∈ RequestField.all := by
  cases m <;> decide

theorem FieldValue.ofOption_inj {α : Type} {f : α → FieldValue} (hf : Function.Injective f)
    (hnull : ∀ a, f a ≠ null) {x y : Option α} (h : ofOption f x = ofOption f y) : x = y := by
  cases x with
  | none =>
    cases y with
    | none => rfl
    | some b => exact absurd h.symm (hnull b)
  | some a =>
    cases y with
    | none => exact absurd h (hnull a)
    | some b => exact congrArg some (hf h)

namespace Request

variable {f g q r : Request} {m : RequestField}

theorem mem_conflictingFields : m ∈ f.conflictingFields g ↔ (g.member m).isSome = true ∧ f.member m ≠ g.member m := by
  simp [conflictingFields, RequestField.mem_all]

theorem member_isSome (hm : m ≠ .budget) : (f.member m).isSome = true := by
  cases m <;> first | rfl | exact absurd rfl hm

theorem member_budget_isSome : (f.member .budget).isSome = f.budget.isSome := by
  simp [member]

theorem fingerprint_eq_of_member (h : ∀ m, q.fingerprint.member m = r.fingerprint.member m) :
    q.fingerprint = r.fingerprint := by
  have htext : Function.Injective FieldValue.text := fun _ _ h => by cases h; rfl
  have hnumber : Function.Injective FieldValue.number := fun _ _ h => by cases h; rfl
  have hinstant : Function.Injective FieldValue.instant := fun _ _ h => by cases h; rfl
  have optional {α : Type} {v : α → FieldValue} (hv : Function.Injective v)
      (hnull : ∀ a, v a ≠ .null) {x y : Option α}
      (hxy : some (FieldValue.ofOption v x) = some (FieldValue.ofOption v y)) : x = y :=
    FieldValue.ofOption_inj hv hnull (Option.some.inj hxy)
  have hbudget := Option.map_injective htext (h .budget)
  have hconcurrencyKey := optional htext (fun _ h => by cases h) (h .concurrencyKey)
  have hcontractVersion := optional htext (fun _ h => by cases h) (h .contractVersion)
  have hdeadline := optional hinstant (fun _ h => by cases h) (h .deadline)
  have hdependencies := optional (v := .dependencies) (fun _ _ h => by cases h; rfl)
    (fun _ h => by cases h) (h .dependencies)
  have htimeout := optional hnumber (fun _ h => by cases h) (h .executionTimeoutMs)
  have hmaxAttempts := optional hnumber (fun _ h => by cases h) (h .maxAttempts)
  have hpayload := FieldValue.json.inj (Option.some.inj (h .payload))
  have hpayloadMax := optional hnumber (fun _ h => by cases h) (h .payloadMaxBytes)
  have hprerequisite := optional (v := .task) (fun _ _ h => by cases h; rfl)
    (fun _ h => by cases h) (h .prerequisiteTaskId)
  have hpriority := optional hnumber (fun _ h => by cases h) (h .priority)
  have hqueue := htext (Option.some.inj (h .queue))
  have hresultMax := optional hnumber (fun _ h => by cases h) (h .resultMaxBytes)
  have hpolicy := optional (v := .policy) (fun _ _ h => by cases h; rfl)
    (fun _ h => by cases h) (h .retryPolicy)
  have hrunAt := optional hinstant (fun _ h => by cases h) (h .runAt)
  have hpayloadKeys := FieldValue.texts.inj (Option.some.inj (h .sensitivePayloadKeys))
  have hresultKeys := FieldValue.texts.inj (Option.some.inj (h .sensitiveResultKeys))
  have htags := FieldValue.texts.inj (Option.some.inj (h .tags))
  have htype := htext (Option.some.inj (h .type))
  -- A fingerprint keeps of the key only its lifetime.
  have hkey : q.fingerprint.idempotency = r.fingerprint.idempotency := by
    have httl := optional hnumber (fun _ h => by cases h) (h .ttlMs)
    simp only [fingerprint, Option.map_map] at httl ⊢
    cases hq : q.idempotency <;> cases hr : r.idempotency <;> simp_all [IdempotencyKey.ttl]
  cases hq : q.fingerprint
  cases hr : r.fingerprint
  simp_all only

theorem conflictingFields_exact_iff : (∀ m, m ∈ f.conflictingFields g ↔ f.member m ≠ g.member m) ↔
      ¬(f.budget.isSome = true ∧ g.budget = none) := by
  simp only [mem_conflictingFields, and_iff_right_iff_imp]
  constructor
  · rintro h ⟨hf, hg⟩
    have hne : f.member .budget ≠ g.member .budget := by
      intro heq
      have := congrArg Option.isSome heq
      rw [member_budget_isSome, member_budget_isSome, hf, hg] at this
      cases this
    have := h .budget hne
    rw [member_budget_isSome, hg] at this
    cases this
  · intro h m hne
    by_cases hm : m = .budget
    · subst hm
      rw [member_budget_isSome]
      cases hg : g.budget with
      | some _ => rfl
      | none =>
        refine absurd ⟨?_, hg⟩ h
        cases hf : f.budget with
        | some _ => rfl
        | none => exact absurd (by simp [member, hf, hg]) hne
    · exact member_isSome hm

end Request

/-! ## The rejection -/

section Rejection

variable {s t : Session} {q r : Request} {i : IdempotencyKey} {e : Idempotency} {b : Batch}

def conflict (e : Idempotency) (r : Request) : Fault :=
  .rejected "P1001" "enqueue idempotency conflict with a retained request" e.taskId
    (e.fingerprint.conflictingFields r.fingerprint)

theorem bind_of_ok {α β : Type} {x : Tx α} {k : α → Tx β} {a : α} (h : x s = .ok (a, t)) : (x >>= k) s = k a t := by
  change (Except.bind (x s) fun p => k p.1 p.2) = _
  rw [h]
  rfl

theorem bind_of_error {α β : Type} {x : Tx α} {k : α → Tx β} {fault : Fault} (h : x s = .error fault) :
    (x >>= k) s = .error fault := by
  change (Except.bind (x s) fun p => k p.1 p.2) = _
  rw [h]
  rfl

theorem resolveIdentity_conflict (hi : r.idempotency = some i)
    (hrow : (b.keys.lookup i.identity).or (s.db.idempotency.get? i.identity) = some e)
    (hlive : b.now < e.expiresAt) (hne : e.fingerprint ≠ r.fingerprint) :
    resolveIdentity r b s = .error (conflict e r) := by
  unfold resolveIdentity
  rw [bind_of_ok (t := s.ask) (a := s.host.uuid s.asked) rfl]
  simp only [hi]
  rw [bind_of_ok (t := s.ask) (a := s.db) rfl]
  simp only [hrow]
  rw [if_neg (Int.not_le.mpr hlive), if_pos hne]
  rfl

theorem bufferRequest_conflict {n : Counts} {rejected : Bool} (hi : r.idempotency = some i)
    (hrow : (b.keys.lookup i.identity).or (s.db.idempotency.get? i.identity) = some e)
    (hlive : b.now < e.expiresAt) (hne : e.fingerprint ≠ r.fingerprint) :
    bufferRequest r n rejected b s = .error (conflict e r) :=
  bind_of_error (resolveIdentity_conflict hi hrow hlive hne)

theorem enqueueRequest_conflict (hi : r.idempotency = some i)
    (hrow : (b.keys.lookup i.identity).or (s.db.idempotency.get? i.identity) = some e)
    (hlive : b.now < e.expiresAt) (hne : e.fingerprint ≠ r.fingerprint) :
    Ensures (enqueueRequest b r) s fun _ _ => False := by
  simp only [enqueueRequest, lockPrerequisites, checkPrerequisites, countPrerequisites, isRejected,
    ensures_bind, ensures_database, ensures_pure, ensures_ensure]
  refine ensureRequest_same.mono fun _ t ht => ?_
  subst ht
  refine fun _ => ?_
  split
  · exact ensures_throw.mpr trivial
  · refine ensures_pure.mpr fun a t' h => ?_
    have herror := h.symm.trans (bufferRequest_conflict hi (by exact hrow) (by exact hlive) hne)
    cases herror

/-- The key of a request is live for `q`: the row is stored for `q`, or `q` stands earlier in the batch. -/
def LiveFor (s : Session) (before : List Request) (i : IdempotencyKey) (q : Request) : Prop :=
  (∃ e, s.db.idempotency.get? i.identity = some e ∧ e.fingerprint = q.fingerprint ∧ s.now < e.expiresAt) ∨
    q ∈ before ∧ q.identity = some i.identity

/-- A batch until it has worked through its first requests. -/
def workThrough (requests before : List Request) : Tx Batch := do
  let b ← openBatch requests
  let b ← lockPrerequisites (requests.flatMap (·.prerequisites)).dedup b
  before.foldlM enqueueRequest b

variable {before after : List Request}

theorem LiveFor.row (h : LiveFor s before i q) (hwork : workThrough (before ++ r :: after) before s = .ok (b, t)) :
    ∃ e, (b.keys.lookup i.identity).or (t.db.idempotency.get? i.identity) = some e ∧ b.now < e.expiresAt ∧
      e.fingerprint = q.fingerprint := by
  obtain ⟨b₀, t₀, hopen, hwork⟩ := bind_eq_ok.mp hwork
  obtain ⟨b₁, t₁, hlock, hfold⟩ := bind_eq_ok.mp hwork
  cases hlock
  obtain ⟨rfl, hnow, hb, httl⟩ := openBatch_answers _ _ hopen
  obtain ⟨hframes, hnow', hb⟩ := foldlM_answers (s := s.ask) (by exact ⟨hb.answered, hb.ids⟩)
    (fun r hr => httl r (List.mem_append_left _ hr)) _ _ hfold
  rw [hframes.idempotency]
  rcases h with ⟨e, hrow, hfingerprint, hlive⟩ | ⟨hq, hk⟩
  · have hlive' : b.now < e.expiresAt := (hnow'.trans hnow) ▸ hlive
    exact ⟨e, by rw [(hb.answered.live hrow hlive').1, Option.none_or]; exact hrow, hlive', hfingerprint⟩
  · obtain ⟨n, hn, rfl⟩ := List.mem_iff_getElem.mp hq
    have hn' : n < b.replies.length := hb.answered.length_eq ▸ hn
    obtain ⟨e, he, hlive, hholds⟩ := hb.answered.named (p := (before[n], b.replies[n]))
      (List.mem_iff_getElem.mpr ⟨n, by simp [hn, hn'], by simp⟩) hk
    exact ⟨e, he, hlive, hholds.fingerprint⟩

theorem enqueueBatch_conflict (hi : r.idempotency = some i) (hlive : LiveFor s before i q)
    (hne : q.fingerprint ≠ r.fingerprint) : ∀ x, enqueueBatch (before ++ r :: after) s ≠ .ok x := by
  intro x h
  obtain ⟨b₀, t₀, hopen, h⟩ := bind_eq_ok.mp h
  obtain ⟨b₁, t₁, hlock, h⟩ := bind_eq_ok.mp h
  obtain ⟨_, _, hfold, -⟩ := bind_eq_ok.mp h
  rw [List.foldlM_append] at hfold
  obtain ⟨b, t, hbefore, hrest⟩ := bind_eq_ok.mp hfold
  rw [List.foldlM_cons] at hrest
  obtain ⟨b', t', hr, -⟩ := bind_eq_ok.mp hrest
  obtain ⟨e, hrow, hlive, hfingerprint⟩ := hlive.row
    (bind_eq_ok.mpr ⟨b₀, t₀, hopen, bind_eq_ok.mpr ⟨b₁, t₁, hlock, hbefore⟩⟩)
  exact enqueueRequest_conflict hi hrow hlive (hfingerprint ▸ hne) b' t' hr

theorem enqueueBatch_reports (hi : r.idempotency = some i)
    (hrow : (b.keys.lookup i.identity).or (t.db.idempotency.get? i.identity) = some e) (hlive : b.now < e.expiresAt)
    (hne : e.fingerprint ≠ r.fingerprint) (hwork : workThrough (before ++ r :: after) before s = .ok (b, t))
    (hchecks : ensureRequest (b.fastQueues.contains r.queue) r t = .ok ((), t)) (hoffers : t.db.Offers r) :
    enqueueBatch (before ++ r :: after) s = .error (conflict e r) := by
  obtain ⟨b₀, t₀, hopen, hwork⟩ := bind_eq_ok.mp hwork
  obtain ⟨b₁, t₁, hlock, hfold⟩ := bind_eq_ok.mp hwork
  unfold enqueueBatch
  rw [bind_of_ok hopen, bind_of_ok hlock]
  refine bind_of_error ?_
  rw [List.foldlM_append, bind_of_ok hfold, List.foldlM_cons]
  refine bind_of_error ?_
  unfold enqueueRequest
  rw [bind_of_ok hchecks, bind_of_ok (t := t) rfl, bind_of_ok (checkPrerequisites_ok.mpr ⟨hoffers, rfl⟩),
    bind_of_ok (t := t) rfl, bind_of_ok (t := t) rfl]
  exact bufferRequest_conflict hi hrow hlive hne

end Rejection

/-! ## Requests that differ in how they are written -/

namespace Json

theorem canonicalItems_append (items items' : List Json) :
    canonicalItems (items ++ items') = canonicalItems items ++ canonicalItems items' := by
  induction items with
  | nil => rfl
  | cons j items ih => simp [canonicalItems, ih]

theorem canonicalMembers_eq (members : List (String × Json)) :
    canonicalMembers members = members.map fun e => (e.1, e.2.canonical) := by
  induction members with
  | nil => rfl
  | cons e members ih => simp [canonicalMembers, ih]

theorem Same.canonical_eq {i j : Json} (h : Same i j) : i.canonical = j.canonical := by
  induction h with
  | refl => rfl
  | trans _ _ ih ih' => exact ih.trans ih'
  | reorder hperm hkeys =>
    simp only [canonical, canonicalMembers_eq]
    rw [SortByKey.insertionSort_eq_of_perm (hperm.map _)]
    simpa [List.map_map, Function.comp_def] using hkeys
  | item before after _ ih => simp only [canonical, canonicalItems_append, canonicalItems, ih]
  | value before k after _ ih =>
    simp only [canonical, canonicalMembers_eq, List.map_append, List.map_cons, ih]

end Json

namespace WrittenPolicy

variable {p p' : WrittenPolicy}

theorem lookup_eq_of_perm (h : p.Perm p') (hkeys : (p.map Prod.fst).Nodup) (name : String) :
    p.lookup name = p'.lookup name := by
  induction h with
  | nil => rfl
  | cons e _ ih => rw [List.lookup_cons, List.lookup_cons, ih (List.nodup_cons.mp hkeys).2]
  | swap a b l =>
    have hne : b.1 ≠ a.1 := by
      intro h
      simp [h] at hkeys
    rw [List.lookup_cons, List.lookup_cons, List.lookup_cons, List.lookup_cons]
    by_cases ha : name = a.1
    · have hb : (name == b.1) = false := beq_false_of_ne (ha ▸ hne.symm)
      simp [hb]
    · simp [beq_false_of_ne ha]
  | trans h _ ih ih' => exact (ih hkeys).trans (ih' ((h.map _).nodup_iff.mp hkeys))

theorem normalize_eq_of_perm (h : p.Perm p') (hkeys : (p.map Prod.fst).Nodup) : p.normalize = p'.normalize := by
  simp only [normalize, hasExactly, number, lookup_eq_of_perm h hkeys, h.all_eq]

end WrittenPolicy

theorem WrittenRequest.Same.read_eq {w w' : WrittenRequest} (store : Json → Jsonb) (h : w.Same w') :
    w.read store = w'.read store := by
  have hpolicy : w.retryPolicy.mapM WrittenPolicy.normalize = w'.retryPolicy.mapM WrittenPolicy.normalize := by
    have hsame := h.retryPolicy
    cases hw : w.retryPolicy with
    | none =>
      cases hw' : w'.retryPolicy with
      | none => rfl
      | some p' => simp [hw, hw', SamePolicy] at hsame
    | some p =>
      cases hw' : w'.retryPolicy with
      | none => simp [hw, hw', SamePolicy] at hsame
      | some p' =>
        simp only [hw, hw', SamePolicy] at hsame
        simp only [Option.mapM_some, WrittenPolicy.normalize_eq_of_perm hsame.1 hsame.2]
  unfold read
  rw [hpolicy, h.payload.canonical_eq, h.runAt, h.deadline, h.others]

/-! ## The result -/

/-- An enqueue under a key that is live for a request with another fingerprint, by its row or within one
batch, is rejected, and the report names exactly the members that differ unless only the first request has a
budget. Requests that differ only in how they are written have one fingerprint. -/
theorem conflict_report_iff {s : Session} {q r : Request} {i : IdempotencyKey} (store : Json → Jsonb)
    (hi : r.idempotency = some i) (hne : q.fingerprint ≠ r.fingerprint) :
    (∀ before after, LiveFor s before i q → ∀ x, enqueueBatch (before ++ r :: after) s ≠ .ok x) ∧
    (∃ fields, (∀ before after b t, LiveFor s before i q → workThrough (before ++ r :: after) before s = .ok (b, t) →
        ensureRequest (b.fastQueues.contains r.queue) r t = .ok ((), t) → t.db.Offers r → ∃ e,
          (b.keys.lookup i.identity).or (t.db.idempotency.get? i.identity) = some e ∧
          enqueueBatch (before ++ r :: after) s = .error (.rejected "P1001"
            "enqueue idempotency conflict with a retained request" e.taskId fields)) ∧
      ((∀ m, m ∈ fields ↔ q.fingerprint.member m ≠ r.fingerprint.member m) ∧ fields ≠ [] ↔
        ¬(q.budget.isSome = true ∧ r.budget = none))) ∧
    ∀ w w' : WrittenRequest, w.Same w' → ∀ g g', w.read store = .ok g → w'.read store = .ok g' →
      g.fingerprint = g'.fingerprint := by
  refine ⟨fun _ _ hlive => enqueueBatch_conflict hi hlive hne,
    ⟨q.fingerprint.conflictingFields r.fingerprint, fun before after b t hlive hwork hchecks hoffers => ?_, ?_⟩, ?_⟩
  · obtain ⟨e, hrow, hlive, hfingerprint⟩ := hlive.row hwork
    refine ⟨e, hrow, ?_⟩
    rw [← hfingerprint] at hne ⊢
    exact enqueueBatch_reports hi hrow hlive hne hwork hchecks hoffers
  · constructor
    · intro h
      exact Request.conflictingFields_exact_iff (f := q.fingerprint) (g := r.fingerprint) |>.mp h.1
    · intro h
      have hexact := Request.conflictingFields_exact_iff (f := q.fingerprint) (g := r.fingerprint) |>.mpr h
      refine ⟨hexact, fun hempty => hne (Request.fingerprint_eq_of_member fun m => ?_)⟩
      by_contra hm
      have hmem := (hexact m).mpr hm
      rw [hempty] at hmem
      exact absurd hmem List.not_mem_nil
  · intro w w' hsame g g' hg hg'
    rw [hsame.read_eq store, hg'] at hg
    cases hg
    rfl

def budgetRequest : Request := { keyedRequest with budget := some "tokens" }

def afterFirst (first second : Request) : Option Fault :=
  match enqueueBatch [first] (initial steadyHost) with
  | .ok (_, s) =>
    match enqueueBatch [second] s with
    | .ok _ => none
    | .error fault => some fault
  | .error _ => none

/-- A conflict that names no member: the budget is only in the stored fingerprint. -/
theorem conflict_names_nothing : afterFirst budgetRequest keyedRequest = some (.rejected "P1001"
      "enqueue idempotency conflict with a retained request" 1 []) ∧
    budgetRequest.fingerprint.member .budget ≠ keyedRequest.fingerprint.member .budget := by
  decide +kernel

/-- The request without the budget is rejected right after the one with it, and in one batch with it. -/
theorem conflict_report_iff_budgetRequest :
    (∃ s, ∀ before after, ∀ x, enqueueBatch (before ++ keyedRequest :: after) s ≠ .ok x) ∧
    ∀ x, enqueueBatch [budgetRequest, keyedRequest] (initial steadyHost) ≠ .ok x := by
  have hne : budgetRequest.fingerprint ≠ keyedRequest.fingerprint := by decide +kernel
  have hlive : ((enqueueBatch [budgetRequest] (initial steadyHost)).toOption.any fun p =>
      (p.2.db.idempotency.get? ("default", "order")).any fun e =>
        e.fingerprint = budgetRequest.fingerprint ∧ p.2.now < e.expiresAt) = true := by decide +kernel
  obtain ⟨p, -, hlive⟩ := any_toOption.mp hlive
  obtain ⟨e, hrow, hlive⟩ := (Option.any_eq_true _ _).mp hlive
  have hlater (s : Session) := conflict_report_iff (s := s) (i := ⟨"order", none, none⟩) (fun _ => .null) rfl hne
  exact ⟨⟨p.2, fun before after => (hlater p.2).1 before after (.inl ⟨e, hrow, of_decide_eq_true hlive⟩)⟩,
    (hlater _).1 [budgetRequest] [] (.inr ⟨List.mem_singleton_self _, rfl⟩)⟩

end Workhorse
