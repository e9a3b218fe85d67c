import Workhorse.Dependency.Lemmas.Frame
import Workhorse.Enqueue.Interleaving
import Workhorse.Task.Lemmas.EnqueueMoves

/-!
# Keys of a batch

`Answered` tells how a batch has answered the requests that it worked through so far, from the rows
that it read and the ones that it writes. A batch holds the locks of all of its keys while it reads, so
no commit of another batch changes an answer.
-/

namespace Workhorse

open Transaction Session

variable {s s' : Session} {rows : Table (String × String) Idempotency} {now : Time} {r : Request} {b : Batch}
  {requests : List Request} {id : TaskId}
  {done : List Request} {keys : List ((String × String) × Idempotency)} {replies : List (TaskId × Bool)}
  {k : String × String} {e : Idempotency}

/-- The row of a key holds an answered request: its task and its fingerprint, and not as a debounce if the
answer is a new task. -/
structure Idempotency.Holds (e : Idempotency) (p : Request × (TaskId × Bool)) : Prop where
  task : p.2.1 = e.taskId
  fingerprint : e.fingerprint = p.1.fingerprint
  plain : p.2.2 = true → e.debounce = false

inductive Answered (rows : Table (String × String) Idempotency) (now : Time) :
    List Request → List ((String × String) × Idempotency) → List (TaskId × Bool) → Prop
  | nil : Answered rows now [] [] []
  | unkeyed {done : List Request} {keys : List ((String × String) × Idempotency)}
      {replies : List (TaskId × Bool)} {r : Request} (h : Answered rows now done keys replies)
      (hr : r.identity = none) (id : TaskId) :
      Answered rows now (done ++ [r]) keys (replies ++ [(id, true)])
  | fresh {done : List Request} {keys : List ((String × String) × Idempotency)}
      {replies : List (TaskId × Bool)} {r : Request} {k : String × String} {entry : Idempotency}
      (h : Answered rows now done keys replies) (hr : r.identity = some k)
      (hexpired : ∀ e, (keys.lookup k).or (rows.get? k) = some e → e.expiresAt ≤ now)
      (hlive : now < entry.expiresAt) (hentry : entry.Holds (r, (entry.taskId, true))) :
      Answered rows now (done ++ [r]) ((k, entry) :: keys) (replies ++ [(entry.taskId, true)])
  | replay {done : List Request} {keys : List ((String × String) × Idempotency)}
      {replies : List (TaskId × Bool)} {r : Request} {k : String × String} {e : Idempotency}
      (h : Answered rows now done keys replies) (hr : r.identity = some k)
      (he : (keys.lookup k).or (rows.get? k) = some e) (hlive : now < e.expiresAt)
      (hsame : e.Holds (r, (e.taskId, false))) :
      Answered rows now (done ++ [r]) keys (replies ++ [(e.taskId, false)])

namespace Answered

theorem length_eq (h : Answered rows now done keys replies) : done.length = replies.length := by
  induction h with
  | nil => rfl
  | unkeyed _ _ _ ih => simp [ih]
  | fresh _ _ _ _ _ ih => simp [ih]
  | replay _ _ _ _ _ ih => simp [ih]

theorem zip_snoc (h : Answered rows now done keys replies) (reply : TaskId × Bool) :
    (done ++ [r]).zip (replies ++ [reply]) = done.zip replies ++ [(r, reply)] := List.zip_append h.length_eq

theorem lookup_eq_none (h : Answered rows now done keys replies)
    (hk : ∀ r ∈ done, r.identity ≠ some k) : keys.lookup k = none := by
  induction h with
  | nil => rfl
  | unkeyed _ _ _ ih => exact ih fun r hr => hk r (by simp [hr])
  | @fresh done keys replies r k' entry _ hr _ _ _ ih =>
    have hne : k' ≠ k := fun h => hk r (by simp) (h ▸ hr)
    rw [List.lookup_cons, beq_false_of_ne hne.symm]
    exact ih fun r hr => hk r (by simp [hr])
  | replay _ _ _ _ _ ih => exact ih fun r hr => hk r (by simp [hr])

theorem congr {rows' : Table (String × String) Idempotency} (h : Answered rows now done keys replies)
    (hrows : ∀ r ∈ done, ∀ k, r.identity = some k → rows'.get? k = rows.get? k) :
    Answered rows' now done keys replies := by
  induction h with
  | nil => exact .nil
  | unkeyed _ hr id ih => exact .unkeyed (ih fun r hr => hrows r (by simp [hr])) hr id
  | @fresh _ _ _ r k _ _ hr hexpired hlive hentry ih =>
    refine .fresh (ih fun r hr => hrows r (by simp [hr])) hr ?_ hlive hentry
    rwa [hrows r (by simp) k hr]
  | @replay _ _ _ r k e _ hr he hlive hsame ih =>
    refine .replay (ih fun r hr => hrows r (by simp [hr])) hr ?_ hlive hsame
    rwa [hrows r (by simp) k hr]

theorem lookup_live (h : Answered rows now done keys replies) (he : keys.lookup k = some e) : now < e.expiresAt := by
  induction h with
  | nil => cases he
  | unkeyed _ _ _ ih => exact ih he
  | @fresh _ _ _ _ k' entry _ _ _ hlive _ ih =>
    rw [List.lookup_cons] at he
    split at he
    · cases he
      exact hlive
    · exact ih he
  | replay _ _ _ _ _ ih => exact ih he

theorem named (h : Answered rows now done keys replies) {p : Request × (TaskId × Bool)}
    (hp : p ∈ done.zip replies) (hk : p.1.identity = some k) :
    ∃ e, (keys.lookup k).or (rows.get? k) = some e ∧ now < e.expiresAt ∧ e.Holds p := by
  induction h with
  | nil => cases hp
  | unkeyed h hr id ih =>
    rw [h.zip_snoc] at hp
    rcases List.mem_append.mp hp with hp | hp
    · exact ih hp
    · cases List.mem_singleton.mp hp
      rw [hr] at hk
      cases hk
  | @fresh _ keys _ r k' entry h hr hexpired hlive hentry ih =>
    rw [h.zip_snoc] at hp
    by_cases heq : k = k'
    · subst heq
      rcases List.mem_append.mp hp with hp | hp
      · -- An earlier answer to the key would have left a live row.
        obtain ⟨e, he, hlive', -⟩ := ih hp
        exact absurd (hexpired e he) (Int.not_le.mpr hlive')
      · cases List.mem_singleton.mp hp
        exact ⟨entry, by simp, hlive, hentry⟩
    · rcases List.mem_append.mp hp with hp | hp
      · obtain ⟨e, he, hlive', hid⟩ := ih hp
        refine ⟨e, ?_, hlive', hid⟩
        rwa [List.lookup_cons, beq_false_of_ne heq]
      · cases List.mem_singleton.mp hp
        exact absurd (Option.some.inj (hk.symm.trans hr)) heq
  | @replay _ _ _ r k' e h hr he hlive hsame ih =>
    rw [h.zip_snoc] at hp
    rcases List.mem_append.mp hp with hp | hp
    · exact ih hp
    · cases List.mem_singleton.mp hp
      cases Option.some.inj (hk.symm.trans hr)
      exact ⟨e, he, hlive, hsame⟩

/-- While the row of a key is live, the batch leaves it and every answer repeats its task. -/
theorem live (h : Answered rows now done keys replies) (he : rows.get? k = some e)
    (hlive : now < e.expiresAt) : keys.lookup k = none ∧
      ∀ p ∈ done.zip replies, p.1.identity = some k → p.2 = (e.taskId, false) := by
  induction h with
  | nil => exact ⟨rfl, fun p hp => by cases hp⟩
  | unkeyed h hr id ih =>
    refine ⟨ih.1, fun p hp hk => ?_⟩
    rw [h.zip_snoc] at hp
    rcases List.mem_append.mp hp with hp | hp
    · exact ih.2 p hp hk
    · cases List.mem_singleton.mp hp
      rw [hr] at hk
      cases hk
  | @fresh _ _ _ r k' entry h hr hexpired _ _ ih =>
    have hne : k ≠ k' := by
      rintro rfl
      rw [ih.1, Option.none_or] at hexpired
      exact absurd (hexpired e he) (Int.not_le.mpr hlive)
    refine ⟨by rw [List.lookup_cons, beq_false_of_ne hne]; exact ih.1, fun p hp hk => ?_⟩
    rw [h.zip_snoc] at hp
    rcases List.mem_append.mp hp with hp | hp
    · exact ih.2 p hp hk
    · cases List.mem_singleton.mp hp
      exact absurd (Option.some.inj (hk.symm.trans hr)) hne
  | @replay _ _ _ r k' e' h hr he' _ _ ih =>
    refine ⟨ih.1, fun p hp hk => ?_⟩
    rw [h.zip_snoc] at hp
    rcases List.mem_append.mp hp with hp | hp
    · exact ih.2 p hp hk
    · cases List.mem_singleton.mp hp
      cases Option.some.inj (hk.symm.trans hr)
      rw [ih.1, Option.none_or, he] at he'
      cases he'
      rfl

/-- A key gets a new task only from the first request that names it, and only when its row is gone or
expired. -/
theorem first (h : Answered rows now done keys replies) {l₁ l₂ : List (Request × (TaskId × Bool))}
    {p : Request × (TaskId × Bool)} (hp : done.zip replies = l₁ ++ p :: l₂)
    (hk : p.1.identity = some k) (hnew : p.2.2 = true) :
    (∀ q ∈ l₁, q.1.identity ≠ some k) ∧ ∀ e, rows.get? k = some e → e.expiresAt ≤ now := by
  induction h generalizing l₂ with
  | nil => simp at hp
  | unkeyed h hr id ih =>
    rw [h.zip_snoc] at hp
    rcases List.eq_nil_or_concat l₂ with rfl | ⟨l₂', q, rfl⟩
    · obtain ⟨-, hq⟩ := List.append_inj' hp rfl
      cases hq
      rw [hr] at hk
      cases hk
    · rw [List.concat_eq_append, ← List.cons_append, ← List.append_assoc] at hp
      exact ih (List.append_inj' hp rfl).1
  | @fresh done keys replies r k' entry h hr hexpired _ _ ih =>
    rw [h.zip_snoc] at hp
    rcases List.eq_nil_or_concat l₂ with rfl | ⟨l₂', q, rfl⟩
    · obtain ⟨rfl, hq⟩ := List.append_inj' hp rfl
      cases hq
      cases Option.some.inj (hk.symm.trans hr)
      have hgone : keys.lookup k = none := by
        cases hlookup : keys.lookup k with
        | none => rfl
        | some e =>
          exact absurd (hexpired e (by simp [hlookup])) (Int.not_le.mpr (h.lookup_live hlookup))
      constructor
      · intro q hq hqk
        obtain ⟨e, he, hlive, -⟩ := h.named hq hqk
        exact absurd (hexpired e he) (Int.not_le.mpr hlive)
      · intro e he
        exact hexpired e (by rw [hgone, Option.none_or, he])
    · rw [List.concat_eq_append, ← List.cons_append, ← List.append_assoc] at hp
      exact ih (List.append_inj' hp rfl).1
  | @replay done keys replies r k' e h hr he _ _ ih =>
    rw [h.zip_snoc] at hp
    rcases List.eq_nil_or_concat l₂ with rfl | ⟨l₂', q, rfl⟩
    · obtain ⟨-, hq⟩ := List.append_inj' hp rfl
      cases hq
      cases hnew
    · rw [List.concat_eq_append, ← List.cons_append, ← List.append_assoc] at hp
      exact ih (List.append_inj' hp rfl).1

theorem replayed (h : Answered rows now [r] keys [(id, false)]) (hk : r.identity = some k) :
    ∃ e, rows.get? k = some e ∧ e.taskId = id := by
  generalize hdone : [r] = done at h
  generalize hreplies : [(id, false)] = replies at h
  cases h with
  | nil => cases hdone
  | unkeyed => simp [List.singleton_eq_append_iff] at hreplies
  | fresh => simp [List.singleton_eq_append_iff] at hreplies
  | replay h hr he =>
    obtain ⟨rfl, hlast⟩ := List.append_inj' (show [] ++ [r] = _ from hdone) rfl
    cases hlast
    cases hk.symm.trans hr
    obtain ⟨-, hreply⟩ := List.append_inj' (show [] ++ [(id, false)] = _ from hreplies) rfl
    rw [h.lookup_eq_none (by simp), Option.none_or] at he
    cases hreply
    exact ⟨_, he, rfl⟩

end Answered

/-! ## Working through the requests -/

inductive Identified (rows : Table (String × String) Idempotency) (r : Request) (b : Batch) :
    TaskId × Bool × Batch → Prop
  | unkeyed (hr : r.identity = none) (id : TaskId) : Identified rows r b (id, true, b)
  | fresh {k : String × String} {entry : Idempotency} (hr : r.identity = some k)
      (hexpired : ∀ e, (b.keys.lookup k).or (rows.get? k) = some e → e.expiresAt ≤ b.now)
      (hlive : b.now < entry.expiresAt) (hentry : entry.Holds (r, (entry.taskId, true))) :
      Identified rows r b (entry.taskId, true, { b with keys := (k, entry) :: b.keys })
  | replay {k : String × String} {e : Idempotency} (hr : r.identity = some k)
      (he : (b.keys.lookup k).or (rows.get? k) = some e) (hlive : b.now < e.expiresAt)
      (hsame : e.Holds (r, (e.taskId, false))) :
      Identified rows r b (e.taskId, false, b)

theorem lt_add_milliseconds (now : Time) {ms : Nat} (h : 1 ≤ ms) : now < now + milliseconds ms := by
  have hpos : (0 : Int) < ms * 1000 := by omega
  exact Int.lt_add_of_pos_right now hpos

theorem resolveIdentity_identified (httl : ∀ i, r.idempotency = some i → 1 ≤ i.ttl) :
    Ensures (resolveIdentity r b) s fun reply s' =>
      s.Frames s' ∧ Identified s.db.idempotency r b reply := by
  simp only [resolveIdentity, ensures_bind, ensures_asking]
  split
  · rename_i hr
    exact ensures_pure.mpr ⟨.ask s, .unkeyed (by simp [Request.identity, hr]) _⟩
  · rename_i i hr
    have hid : r.identity = some i.identity := by simp [Request.identity, hr]
    have hlater := lt_add_milliseconds b.now (httl i hr)
    simp only [ensures_bind, ensures_database, ask_db]
    split
    · rename_i hnone
      refine ensures_pure.mpr ⟨.ask s, ?_⟩
      exact @Identified.fresh _ _ _ _ ⟨r.fingerprint, _, b.now + milliseconds i.ttl, false⟩ hid
        (fun e he => by rw [hnone] at he; cases he) hlater ⟨rfl, rfl, fun _ => rfl⟩
    · rename_i stored hstored
      simp only [ensures_ite, ensures_bind, ensures_asking, ensures_pure, ensures_throw]
      refine ⟨fun hexpired => ⟨(Frames.ask s).trans (.ask _), ?_⟩, fun hlive => ⟨fun _ => trivial,
        fun hsame => ⟨.ask s, .replay hid hstored (Int.not_le.mp hlive) ⟨rfl, not_not.mp hsame, fun h => by cases h⟩⟩⟩⟩
      refine @Identified.fresh _ _ _ _ ⟨r.fingerprint, _, b.now + milliseconds i.ttl, false⟩ hid
        (fun e he => ?_) hlater ⟨rfl, rfl, fun _ => rfl⟩
      rw [hstored] at he
      cases he
      exact hexpired

structure Batch.Answers (b : Batch) (rows : Table (String × String) Idempotency) (done : List Request) : Prop where
  answered : Answered rows b.now done b.keys b.replies
  ids : ∀ id, id ∈ b.ids ↔ (id, true) ∈ b.replies

theorem Batch.Answers.identified {b b' : Batch} {isNew : Bool}
    (h : b.Answers rows done) (hi : Identified rows r b (id, isNew, b')) :
    b'.now = b.now ∧ b'.full = b.full ∧ b'.fast = b.fast ∧ b'.replies = b.replies ∧
      Answered rows b.now (done ++ [r]) b'.keys (b.replies ++ [(id, isNew)]) := by
  cases hi with
  | unkeyed hr => exact ⟨rfl, rfl, rfl, rfl, h.answered.unkeyed hr id⟩
  | fresh hr hexpired hlive hentry => exact ⟨rfl, rfl, rfl, rfl, h.answered.fresh hr hexpired hlive hentry⟩
  | replay hr he hlive hsame => exact ⟨rfl, rfl, rfl, rfl, h.answered.replay hr he hlive hsame⟩

theorem bufferRequest_answers {n : Counts} {rejected : Bool}
    (h : b.Answers s.db.idempotency done) (httl : ∀ i, r.idempotency = some i → 1 ≤ i.ttl) :
    Ensures (bufferRequest r n rejected b) s fun b' s' =>
      s.Frames s' ∧ b'.now = b.now ∧ b'.Answers s.db.idempotency (done ++ [r]) := by
  simp only [bufferRequest, ensures_bind]
  refine (resolveIdentity_identified httl).mono fun reply t hreply => ?_
  obtain ⟨id, isNew, b'⟩ := reply
  obtain ⟨ht, hi⟩ := hreply
  obtain ⟨hnow, hfull, hfast, hreplies, hanswered⟩ := h.identified hi
  have hmem (x : TaskId) : x ∈ b'.full.map Prod.fst ∨ x ∈ b'.fast.map Prod.fst ↔ (x, true) ∈ b.replies := by
    rw [hfull, hfast]
    exact List.mem_append.symm.trans (h.ids x)
  simp only [ensures_ite, ensures_bind, ensures_map, ensures_nextReadySequence, ensures_pure, hnow, hreplies]
  have hnext : t.Frames t.nextReadySequence.2 := .nextReadySequence t
  constructor
  · intro hold
    obtain rfl : isNew = false := by simpa using hold
    exact ⟨ht, trivial, hanswered, fun x => by simp [Batch.ids, ← hmem x]⟩
  · intro hnew
    obtain rfl : isNew = true := by simpa using hnew
    have hfull (x : TaskId) (row : Task × Runtime) : x ∈ (b'.full ++ [(id, row)]).map Prod.fst ++ b'.fast.map Prod.fst ↔
          (x, true) ∈ b.replies ++ [(id, true)] := by
      simp only [List.map_append, List.mem_append, List.map_cons, List.map_nil, List.mem_singleton,
        Prod.mk.injEq, and_true]
      rw [or_right_comm, hmem]
    have hfast (x : TaskId) (row : Task × FastRuntime) :
        x ∈ b'.full.map Prod.fst ++ (b'.fast ++ [(id, row)]).map Prod.fst ↔ (x, true) ∈ b.replies ++ [(id, true)] := by
      simp only [List.map_append, List.mem_append, List.map_cons, List.map_nil, List.mem_singleton,
        Prod.mk.injEq, and_true]
      rw [← or_assoc, hmem]
    exact ⟨fun _ => ⟨ht.trans hnext, trivial, hanswered, fun x => hfast x _⟩, fun _ =>
      ⟨fun _ => ⟨ht.trans hnext, trivial, hanswered, fun x => hfull x _⟩,
        fun _ => ⟨ht, trivial, hanswered, fun x => hfull x _⟩⟩⟩

theorem enqueueRequest_answers (h : b.Answers s.db.idempotency done) (httl : ∀ i, r.idempotency = some i → 1 ≤ i.ttl) :
    Ensures (enqueueRequest b r) s fun b' s' =>
      s.Frames s' ∧ b'.now = b.now ∧ b'.Answers s.db.idempotency (done ++ [r]) := by
  simp only [enqueueRequest, lockPrerequisites, checkPrerequisites, countPrerequisites, isRejected,
    ensures_bind, ensures_database, ensures_pure, ensures_ensure]
  refine ensureRequest_same.mono fun _ t ht => ?_
  subst ht
  refine fun _ => ?_
  split
  · exact ensures_throw.mpr trivial
  · exact ensures_pure.mpr (bufferRequest_answers ⟨h.answered, h.ids⟩ httl)

theorem openBatch_answers :
    Ensures (openBatch requests) s fun b s' => s' = s.ask ∧ b.now = s.now ∧ b.Answers s.db.idempotency [] ∧
      ∀ r ∈ requests, ∀ i, r.idempotency = some i → 1 ≤ i.ttl := by
  intro b s' h
  unfold openBatch at h
  obtain ⟨now, t, hclock, h⟩ := bind_eq_ok.mp h
  cases hclock
  obtain ⟨-, h⟩ := ensure_bind_ok.mp h
  obtain ⟨_, t, hforM, h⟩ := bind_eq_ok.mp h
  have ht : t = s.ask := by
    refine Ensures.forM (s := s.ask) (fun t : Session => t = s.ask) (fun r _ t ht => ?_) rfl _ _ hforM
    unfold ensureIdempotency
    split
    · exact ensures_pure.mpr ht
    · simp only [ensures_bind, ensures_ensure]
      exact fun _ _ _ => ht
  subst ht
  cases h
  refine ⟨rfl, rfl, ⟨.nil, by simp [Batch.ids]⟩, fun r hr i hi => ?_⟩
  obtain ⟨u, x, hr⟩ := forM_ok hforM hr
  unfold ensureIdempotency at hr
  simp only [hi, ensure_bind_ok, ensure_ok, decide_eq_true_eq] at hr
  exact hr.2.2.1.1

theorem foldlM_answers (h : b.Answers s.db.idempotency done)
    (httl : ∀ r ∈ requests, ∀ i, r.idempotency = some i → 1 ≤ i.ttl) :
    Ensures (requests.foldlM enqueueRequest b) s fun b' s' =>
      s.Frames s' ∧ b'.now = b.now ∧ b'.Answers s.db.idempotency (done ++ requests) := by
  induction requests generalizing b s done with
  | nil => exact ensures_pure.mpr ⟨.refl s, rfl, by simpa using h⟩
  | cons r rest ih =>
    rw [List.foldlM_cons, ensures_bind]
    refine (enqueueRequest_answers h (httl r List.mem_cons_self)).mono fun b' t ht => ?_
    obtain ⟨hframes, hnow, hb⟩ := ht
    rw [← hframes.idempotency] at hb
    refine (ih hb fun r hr => httl r (List.mem_cons_of_mem _ hr)).mono fun b'' u hu => ?_
    obtain ⟨hframes', hnow', hb'⟩ := hu
    rw [hframes.idempotency, List.append_assoc] at hb'
    exact ⟨hframes.trans hframes', hnow'.trans hnow, hb'⟩

/-! ## Writing the batch -/

theorem insertBatchEdges_frames : Ensures (insertBatchEdges b) s fun _ s' => s.Frames s' := by
  simp only [insertBatchEdges, ensures_bind]
  refine insertEdges_cases.mono fun _ t ht => ?_
  have hedges : s.Frames t := ht ▸ .update rfl
  have hevents : t.Frames (t.update fun db => b.edges.foldl (fun db e => db.addEvent e.1.1 none
      (if e.2.pending then .dependencyBlocked else .dependencyReleased)) db) :=
    .update (rest_foldl (f := fun db e => db.addEvent e.1.1 none
      (if e.2.pending then .dependencyBlocked else .dependencyReleased)) (fun _ _ => rfl) b.edges t.db)
  simp only [ensures_database, ensures_write, ensures_ite, ensures_perform, ensures_pure]
  refine ⟨fun _ => ?_, fun _ => hedges.trans hevents⟩
  exact (hedges.trans hevents).trans (resolveDependentsMany_frames onOutcomes_frames _)

theorem insertFull_frames : Ensures (insertFull b) s fun _ s' =>
    (s.update fun db => b.full.foldl (fun db e => db.create e.1 e.2.1 e.2.2) db).Frames s' := by
  simp only [insertFull, ensures_bind, ensures_write, ensures_ite]
  generalize s.update (fun db => b.full.foldl (fun db e => db.create e.1 e.2.1 e.2.2) db) = u
  have hrest {t : Session} (ht : u.Frames t) : Ensures ((pastDeadline b.now b.full).forM fun id => do
        let _ ← perform (terminalizeDeadline id))
      (t.update fun db => b.full.foldl (fun db e => db.addEvent e.1 none .enqueued) db)
      fun _ s' => u.Frames s' := by
    refine .forM (fun t' : Session => u.Frames t') (fun id _ t' ht' => ?_) ?_
    · simp only [ensures_bind, ensures_perform, ensures_pure]
      exact ht'.trans terminalizeDeadline_frames
    · exact ht.trans (.update (rest_foldl (f := fun db e => db.addEvent e.1 none .enqueued)
        (fun _ _ => rfl) b.full t.db))
  exact ⟨fun _ => insertBatchEdges_frames.mono fun _ t ht => hrest ht, fun _ => hrest (.refl u)⟩

theorem insertFast_frames : Ensures (insertFast b) s fun _ s' =>
    (s.update fun db => b.fast.foldl (fun db e => db.createFast e.1 e.2.1 e.2.2) db).Frames s' := by
  simp only [insertFast, ensures_bind, ensures_write]
  refine .forM (fun t : Session => (s.update fun db =>
    b.fast.foldl (fun db e => db.createFast e.1 e.2.1 e.2.2) db).Frames t) (fun id _ t ht => ?_) (.refl _)
  simp only [ensures_bind, ensures_perform, ensures_pure]
  exact ht.trans fastTerminalizeDeadline_frames

theorem contains_create {xs : List (TaskId × Task × Runtime)} {db : Db} :
    (xs.foldl (fun db e => db.create e.1 e.2.1 e.2.2) db).tasks.contains id = true ↔
      db.tasks.contains id = true ∨ id ∈ xs.map Prod.fst := by
  induction xs generalizing db with
  | nil => simp
  | cons x xs ih =>
    rw [List.foldl_cons, ih]
    simp only [Db.create, Table.contains_put, Bool.or_eq_true, decide_eq_true_eq, List.map_cons, List.mem_cons]
    tauto

theorem contains_createFast {xs : List (TaskId × Task × FastRuntime)} {db : Db} :
    (xs.foldl (fun db e => db.createFast e.1 e.2.1 e.2.2) db).tasks.contains id = true ↔
      db.tasks.contains id = true ∨ id ∈ xs.map Prod.fst := by
  induction xs generalizing db with
  | nil => simp
  | cons x xs ih =>
    rw [List.foldl_cons, ih]
    simp only [Db.createFast, Table.contains_put, Bool.or_eq_true, decide_eq_true_eq, List.map_cons, List.mem_cons]
    tauto

theorem idempotency_create {xs : List (TaskId × Task × Runtime)} {db : Db} :
    (xs.foldl (fun db e => db.create e.1 e.2.1 e.2.2) db).idempotency = db.idempotency := by
  induction xs generalizing db with
  | nil => rfl
  | cons x xs ih => exact ih

theorem idempotency_createFast {xs : List (TaskId × Task × FastRuntime)} {db : Db} :
    (xs.foldl (fun db e => db.createFast e.1 e.2.1 e.2.2) db).idempotency = db.idempotency := by
  induction xs generalizing db with
  | nil => rfl
  | cons x xs ih => exact ih

theorem get?_foldr_put (keys : List ((String × String) × Idempotency))
    (rows : Table (String × String) Idempotency) (k : String × String) :
    (keys.foldr (fun e t => t.put e.1 e.2) rows).get? k = (keys.lookup k).or (rows.get? k) := by
  induction keys with
  | nil => rfl
  | cons e keys ih =>
    rw [List.foldr_cons, Table.get?_put, ih, List.lookup_cons]
    by_cases hk : k = e.1
    · simp [hk]
    · simp [hk, beq_false_of_ne hk]

theorem insertBatch_rows : Ensures (insertBatch b) s fun _ s' =>
    (∀ k, s'.db.idempotency.get? k = (b.keys.lookup k).or (s.db.idempotency.get? k)) ∧
    (∀ id, s'.db.tasks.contains id = true ↔ s.db.tasks.contains id = true ∨ id ∈ b.ids) ∧
    s'.host = s.host ∧ s.asked ≤ s'.asked := by
  simp only [insertBatch, ensures_bind, ensures_database, ensures_ite, ensures_throw, ensures_write]
  refine ⟨fun _ => trivial, fun _ => insertFull_frames.mono fun _ t ht => ?_⟩
  refine insertFast_frames.mono fun _ s' hs' => ⟨fun k => ?_, fun id => ?_, ?_, ?_⟩
  · rw [hs'.idempotency, update_db, idempotency_createFast, ht.idempotency, update_db, idempotency_create]
    exact get?_foldr_put _ _ _
  · rw [hs'.tasks, update_db, contains_createFast, ht.tasks, update_db, contains_create, Batch.ids,
      List.mem_append, or_assoc]
    rfl
  · exact hs'.host.trans ht.host
  · exact ht.asked.trans hs'.asked

theorem enqueueBatch_answers : Ensures (enqueueBatch requests) s fun replies s' =>
    (∃ keys, Answered s.db.idempotency s.now requests keys replies ∧
      ∀ k, s'.db.idempotency.get? k = (keys.lookup k).or (s.db.idempotency.get? k)) ∧
    s'.host = s.host ∧ s.asked ≤ s'.asked := by
  simp only [enqueueBatch, lockPrerequisites, decideEdges, ensures_bind, ensures_database, ensures_pure]
  refine openBatch_answers.mono fun b t hb => ?_
  obtain ⟨rfl, hnow, hb, httl⟩ := hb
  refine Ensures.mono (foldlM_answers (s := s.ask) (b := { b with locked := _ })
    ⟨hb.answered, hb.ids⟩ httl) fun b' t ht => ?_
  obtain ⟨hframes, hnow', hb'⟩ := ht
  refine insertBatch_rows.mono fun _ s' hs' => ?_
  obtain ⟨hrows, -, hhost, hasked⟩ := hs'
  refine ⟨⟨b'.keys, ?_, fun k => ?_⟩, hhost.trans hframes.host, (Nat.le_succ _).trans (hframes.asked.trans hasked)⟩
  · have hanswered := hb'.answered
    rwa [hnow'.trans hnow] at hanswered
  · rw [hrows k, hframes.idempotency]
    rfl

/-! ## Interleavings -/

structure OpenBatch.Sound (o : OpenBatch) (s : Session) : Prop where
  keys : ∀ r ∈ o.requests, ∀ k, r.identity = some k → k ∈ o.unlocked ∨ k ∈ o.held
  locked : o.unlocked ≠ [] → o.done = []
  parts : o.done ++ o.todo = o.requests
  ttl : ∀ r ∈ o.requests, ∀ i, r.idempotency = some i → 1 ≤ i.ttl
  past : o.batch.now ≤ s.now
  answers : o.batch.Answers s.db.idempotency o.done

structure Batches.Sound (σ : Batches) : Prop where
  clock : σ.session.host.Monotone
  exclusive : ∀ c o c' o', σ.running.get? c = some o → σ.running.get? c' = some o' → c ≠ c' → ∀ k ∈ o.held, k ∉ o'.held
  opened : ∀ c o, σ.running.get? c = some o → o.Sound σ.session

theorem Session.now_le_now (hclock : s.host.Monotone) (hhost : s'.host = s.host)
    (hasked : s.asked ≤ s'.asked) : s.now ≤ s'.now := by
  unfold Session.now
  rw [hhost]
  exact hclock hasked

namespace OpenBatch.Sound

variable {o : OpenBatch}

theorem mem_held (h : o.Sound s) (hr : r ∈ o.done) (hk : r.identity = some k) : k ∈ o.held := by
  have hmem : r ∈ o.requests := h.parts ▸ List.mem_append_left _ hr
  have hall : o.unlocked = [] := by
    by_contra hne
    rw [h.locked hne] at hr
    cases hr
  rcases h.keys r hmem k hk with hk | hk
  · rw [hall] at hk
    cases hk
  · exact hk

/-- A batch does not notice writes to keys that it does not hold. -/
theorem mono (h : o.Sound s) (hclock : s.host.Monotone) (hhost : s'.host = s.host)
    (hasked : s.asked ≤ s'.asked)
    (hrows : ∀ k ∈ o.held, s'.db.idempotency.get? k = s.db.idempotency.get? k) : o.Sound s' where
  keys := h.keys
  locked := h.locked
  parts := h.parts
  ttl := h.ttl
  past := le_trans h.past (now_le_now hclock hhost hasked)
  answers := ⟨h.answers.answered.congr fun _ hr k hk => hrows k (h.mem_held hr hk), h.answers.ids⟩

end OpenBatch.Sound

theorem mem_lockOrder (hr : r ∈ requests) (hk : r.identity = some k) : k ∈ lockOrder requests := by
  rw [lockOrder, List.mem_insertionSort, List.mem_dedup, List.mem_filterMap]
  exact ⟨r, hr, hk⟩

namespace Batches

variable {σ σ' : Batches} {accepted : Accepted}

/-- What a step does to the committed rows: nothing, or what a batch has answered from them. -/
structure Answers (σ : Batches) (accepted : Accepted) (σ' : Batches) : Prop where
  host : σ'.session.host = σ.session.host
  asked : σ.session.asked ≤ σ'.session.asked
  rows : ∃ now ≤ σ.session.now, ∃ keys done replies, accepted = done.zip replies ∧
    Answered σ.session.db.idempotency now done keys replies ∧ ∀ k, σ'.row k = (keys.lookup k).or (σ.row k)
  tasks : accepted ≠ [] → ∀ id, σ'.session.db.tasks.contains id = true ↔
    σ.session.db.tasks.contains id = true ∨ ∃ r, (r, (id, true)) ∈ accepted

theorem Answers.silent (hhost : σ'.session.host = σ.session.host)
    (hasked : σ.session.asked ≤ σ'.session.asked)
    (hrows : σ'.session.db.idempotency = σ.session.db.idempotency) : σ.Answers [] σ' where
  host := hhost
  asked := hasked
  rows := ⟨σ.session.now, le_rfl, [], [], [], rfl, .nil, fun k => by simp [row, hrows]⟩
  tasks h := absurd rfl h

theorem Step.answers (hσ : σ.Sound) (h : Step σ accepted σ') : σ.Answers accepted σ' := by
  cases h with
  | start _ h =>
    obtain ⟨rfl, -, -⟩ := openBatch_answers _ _ h
    exact .silent rfl (Nat.le_succ _) rfl
  | lock => exact .silent rfl le_rfl rfl
  | request hconn _ hr h =>
    have ho := hσ.opened _ _ hconn
    obtain ⟨hframes, -⟩ := enqueueRequest_answers (b := readTiers _ _ _)
      ⟨ho.answers.answered, ho.answers.ids⟩
      (ho.ttl _ (ho.parts ▸ List.mem_append_right _ (hr ▸ List.mem_cons_self))) _ _ h
    exact .silent hframes.host hframes.asked hframes.idempotency
  | @commit conn o s hconn _ hdone h =>
    have ho := hσ.opened _ _ hconn
    obtain ⟨_, _, hdecide, h⟩ := bind_eq_ok.mp h
    cases hdecide
    obtain ⟨hrows, htasks, hhost, hasked⟩ := insertBatch_rows _ _ h
    refine ⟨hhost, hasked, ⟨o.batch.now, ho.past, _, _, _, rfl, ho.answers.answered, hrows⟩, ?_⟩
    intro _ id
    rw [htasks id]
    refine or_congr Iff.rfl ((ho.answers.ids id).trans ⟨fun hid => ?_, fun hid => ?_⟩)
    · obtain ⟨i, hi, hget⟩ := List.mem_iff_getElem.mp hid
      have hi' : i < o.done.length := ho.answers.answered.length_eq ▸ hi
      refine ⟨o.done[i], List.mem_iff_getElem.mpr ⟨i, by simp [hi, hi'], ?_⟩⟩
      simp [hget]
    · obtain ⟨r, hr⟩ := hid
      exact (List.of_mem_zip hr).2
  | abort => exact .silent rfl le_rfl rfl
  | other hkeys hhost hasked => exact .silent hhost hasked hkeys

theorem Sound.put (hσ : σ.Sound) {conn : Nat} {o : OpenBatch} {s : Session}
    (hhost : s.host = σ.session.host) (hasked : σ.session.asked ≤ s.asked)
    (hrows : s.db.idempotency = σ.session.db.idempotency) (ho : o.Sound s)
    (hheld : ∀ c o', σ.running.get? c = some o' → c ≠ conn → ∀ k ∈ o.held, k ∉ o'.held) :
    Sound ⟨s, σ.running.put conn o⟩ where
  clock := by
    change s.host.Monotone
    exact hhost ▸ hσ.clock
  exclusive := by
    intro c o₁ c' o₂ h₁ h₂ hne k hk₁ hk₂
    simp only [Table.get?_put] at h₁ h₂
    split at h₁
    · rename_i hc
      cases h₁
      have hc' : c' ≠ conn := fun h => hne (hc.trans h.symm)
      rw [if_neg hc'] at h₂
      exact hheld c' o₂ h₂ hc' k hk₁ hk₂
    · split at h₂
      · cases h₂
        exact hheld c o₁ h₁ (by assumption) k hk₂ hk₁
      · exact hσ.exclusive c o₁ c' o₂ h₁ h₂ hne k hk₁ hk₂
  opened := by
    intro c o' h
    rcases Table.get?_put_cases h with ⟨-, rfl⟩ | ⟨-, h⟩
    · exact ho
    · exact (hσ.opened c o' h).mono hσ.clock hhost hasked fun k _ => congrArg (·.get? k) hrows

theorem Sound.erase (hσ : σ.Sound) {conn : Nat} {s : Session} (hhost : s.host = σ.session.host)
    (hasked : σ.session.asked ≤ s.asked)
    (hrows : ∀ c o, σ.running.get? c = some o → c ≠ conn → ∀ k ∈ o.held,
      s.db.idempotency.get? k = σ.session.db.idempotency.get? k) :
    Sound ⟨s, σ.running.erase conn⟩ where
  clock := by
    change s.host.Monotone
    exact hhost ▸ hσ.clock
  exclusive := by
    intro c o c' o' h h' hne
    simp only [Table.get?_erase] at h h'
    split at h
    · cases h
    · split at h'
      · cases h'
      · exact hσ.exclusive c o c' o' h h' hne
  opened := by
    intro c o h
    obtain ⟨hne, h⟩ := Table.get?_erase_eq_some h
    exact (hσ.opened c o h).mono hσ.clock hhost hasked (hrows c o h (by simpa using hne))

theorem Step.sound (hσ : σ.Sound) (h : Step σ accepted σ') : σ'.Sound := by
  cases h with
  | @start conn requests b s _ h =>
    obtain ⟨rfl, hnow, hanswers, httl⟩ := openBatch_answers _ _ h
    refine hσ.put rfl (Nat.le_succ _) rfl ?_ (by simp)
    refine ⟨fun r hr k hk => .inl (mem_lockOrder hr hk), fun _ => rfl, rfl, httl, ?_, hanswers⟩
    exact hnow ▸ now_le_now hσ.clock rfl (Nat.le_succ _)
  | @lock conn o k ks hconn hk hfree =>
    have ho := hσ.opened _ _ hconn
    refine hσ.put rfl le_rfl rfl ?_ ?_
    · refine ⟨fun r hr k' hk' => ?_, fun _ => ho.locked (by simp [hk]), ho.parts, ho.ttl, ho.past, ho.answers⟩
      have hor := ho.keys r hr k' hk'
      rw [hk] at hor
      rcases hor with hor | hor
      · rcases List.mem_cons.mp hor with rfl | hor
        · exact .inr List.mem_cons_self
        · exact .inl hor
      · exact .inr (List.mem_cons_of_mem _ hor)
    · intro c o' hc hne k' hk'
      rcases List.mem_cons.mp hk' with rfl | hk'
      · exact hfree c o' hc hne
      · exact hσ.exclusive conn o c o' hconn hc (Ne.symm hne) k' hk'
  | @request conn o r rs b s hconn hlocked hr h =>
    have ho := hσ.opened _ _ hconn
    obtain ⟨hframes, hnow, hanswers⟩ := enqueueRequest_answers (b := readTiers _ _ _)
      ⟨ho.answers.answered, ho.answers.ids⟩
      (ho.ttl _ (ho.parts ▸ List.mem_append_right _ (hr ▸ List.mem_cons_self))) _ _ h
    refine hσ.put hframes.host hframes.asked hframes.idempotency ?_ ?_
    · refine ⟨ho.keys, fun hne => absurd hlocked hne, ?_, ho.ttl, ?_, ?_⟩
      · rw [← ho.parts, hr, List.append_assoc]
        rfl
      · change b.now ≤ s.now
        rw [hnow]
        exact le_trans ho.past (now_le_now hσ.clock hframes.host hframes.asked)
      · rw [hframes.idempotency]
        exact hanswers
    · intro c o' hc hne
      exact hσ.exclusive conn o c o' hconn hc (Ne.symm hne)
  | @commit conn o s hconn _ _ h =>
    have ho := hσ.opened _ _ hconn
    obtain ⟨_, _, hdecide, h⟩ := bind_eq_ok.mp h
    cases hdecide
    obtain ⟨hrows, -, hhost, hasked⟩ := insertBatch_rows _ _ h
    refine hσ.erase hhost hasked fun c o' hc hne k hk => ?_
    -- The batch writes keys that it holds, so the other one holds none of them.
    have hnone : o.batch.keys.lookup k = none := by
      refine ho.answers.answered.lookup_eq_none fun r hr hrk => ?_
      exact hσ.exclusive conn o c o' hconn hc (Ne.symm hne) k (ho.mem_held hr hrk) hk
    rw [hrows k]
    simp [hnone]
  | abort conn => exact hσ.erase rfl le_rfl fun _ _ _ _ _ _ => rfl
  | @other s hkeys hhost hasked =>
    constructor
    · change s.host.Monotone
      exact hhost ▸ hσ.clock
    · exact hσ.exclusive
    · intro c o hc
      exact (hσ.opened c o hc).mono hσ.clock hhost hasked fun k _ => congrArg (·.get? k) hkeys

theorem initial_sound {host : Host} (hclock : host.Monotone) : (initial host).Sound where
  clock := hclock
  exclusive := by simp [initial]
  opened := by simp [initial]

theorem Run.sound {trace : List Accepted} (hσ : σ.Sound) (h : Run σ trace σ') : σ'.Sound := by
  induction h with
  | refl => exact hσ
  | tail _ hs ih => exact hs.sound ih

/-- A row that is live at the end of a run was not touched, and every answer repeated its task. -/
theorem Run.live {trace : List Accepted} (hσ : σ.Sound) (h : Run σ trace σ') {k : String × String}
    {e : Idempotency} (he : σ.row k = some e) (hlive : σ'.session.now < e.expiresAt) :
    σ'.row k = some e ∧ ∀ accepted ∈ trace, ∀ p ∈ accepted, p.1.identity = some k → p.2 = (e.taskId, false) := by
  induction h with
  | refl => exact ⟨he, by simp⟩
  | @tail σ₁ σ₂ trace accepted hrun hs ih =>
    have hsound := hrun.sound hσ
    have hstep := hs.answers hsound
    have hlive₁ : σ₁.session.now < e.expiresAt := lt_of_le_of_lt (now_le_now hsound.clock hstep.host hstep.asked) hlive
    obtain ⟨hrow, htrace⟩ := ih hlive₁
    obtain ⟨now, hnow, keys, done, replies, rfl, hanswered, hrows⟩ := hstep.rows
    obtain ⟨hnone, hreplies⟩ := hanswered.live hrow (lt_of_le_of_lt hnow hlive₁)
    constructor
    · rw [hrows k, hnone, Option.none_or]
      exact hrow
    · intro acc hacc
      rcases List.mem_append.mp hacc with hacc | hacc
      · exact htrace acc hacc
      · cases List.mem_singleton.mp hacc
        exact hreplies

end Batches

end Workhorse
